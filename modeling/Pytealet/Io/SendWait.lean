import Pytealet.Io.SendStreamRuns

/-!
# SendWait — the tealets parked in `drain` and `flush`

A tealet parks when its predicate is false.  It is woken by a notification and tests the predicate
again; nothing else wakes it.

* Every section that can make a predicate true, or make it raise, notifies.
* A leg that is under way ends with a notification.  So a tealet that parks while a leg is under way
  is woken.
* A tealet that parks while the buffer is idle is not: its bytes are held back until `min_write`,
  and no leg is there to carry them.  `drain` and `flush` reserve a leg when they begin, but not
  when they test the predicate again.
-/

namespace Pytealet.Io.SendBuffer

open Lib Lib.Transition List

variable {β ε : Type*}

/-! ## The property and the guard -/

/-- A tealet whose predicate holds or would raise has a notification; one without a notification and
without an error waits for a leg. -/
def WakesUp (s : State β ε) : List (Frame β ε) → Prop
  | .parked w notified :: _ =>
    (s.buf.sendError.isSome = true ∨ s.buf.ready w = true → notified = true) ∧
      (notified = false → s.buf.sendError.isSome = false → 0 < s.legs)
  | _ => True

instance (s : State β ε) (call : List (Frame β ε)) : Decidable (WakesUp s call) := by
  unfold WakesUp
  split <;> infer_instance

def NoLostWakeup (s : State β ε) : Prop :=
  ∀ call ∈ s.calls, WakesUp s call

instance (s : State β ε) : Decidable (NoLostWakeup s) :=
  inferInstanceAs (Decidable (∀ call ∈ s.calls, WakesUp s call))

/-- The predicate of `w` holds or raises, or a leg is under way. -/
def Buffer.settled (b : Buffer β ε) (w : Wait) : Bool :=
  b.sendError.isSome || b.ready w || b.active

/-- The predicate of `drain` and `flush` is not tested while the buffer is idle and holds bytes
back. -/
def ChecksSettled (s : State β ε) : Act β ε → Prop
  | .run k _ =>
    match s.calls[k]? with
    | some (.check w :: _) | some (.parked w true :: _) => s.buf.settled w = true
    | _ => True
  | _ => True

/-! ## Waiting for a leg -/

/-- The predicate of `w` is false, and a leg is under way. -/
structure Buffer.Blocks (b : Buffer β ε) (w : Wait) : Prop where
  error : b.sendError = none
  waits : b.ready w = false
  active : b.active = true

/-- Every tealet that is parked without a notification waits for a leg. -/
def Waiting (s : State β ε) : Prop :=
  ∀ call ∈ s.calls, ∀ w, .parked w false ∈ call → s.buf.Blocks w

/-- No tealet is parked in this call without a notification. -/
def Stirs (call : List (Frame β ε)) : Prop :=
  ∀ w, .parked w false ∉ call

theorem Passive.stirs {call : List (Frame β ε)} (h : Passive call) : Stirs call := by
  intro w hmem
  have hpass := h _ hmem
  cases hpass

theorem Stirs.cons {f : Frame β ε} {call : List (Frame β ε)} (h : Stirs call)
    (hf : ∀ w, f ≠ .parked w false) : Stirs (f :: call) := by
  intro w hmem
  rcases mem_cons.1 hmem with heq | hmem
  · exact hf w heq.symm
  · exact h w hmem

theorem stirs_nil : Stirs ([] : List (Frame β ε)) :=
  fun _ hmem => absurd hmem not_mem_nil

theorem Passive.stirs_unwind {call : List (Frame β ε)} (h : Passive call) (e : ε) :
    Stirs (SendBuffer.unwind e call) := by
  induction call with
  | nil => exact stirs_nil
  | cons f rest ih =>
    have hrest : Passive rest := fun g hg => h g (mem_cons_of_mem f hg)
    cases f with
    | onDone => exact hrest.stirs.cons (fun w heq => by cases heq)
    | _ => exact ih hrest

theorem stirs_notify (call : List (Frame β ε)) : Stirs (call.map Frame.notify) := by
  intro w hmem
  rcases mem_map.1 hmem with ⟨f, -, hf⟩
  cases f <;> cases hf

section Rules

variable {s : State β ε} {k : Nat} {f : Frame β ε} {rest stack : List (Frame β ε)}
  {sec : Section β ε}

theorem Waiting.init (highWater lowWater : Int) (minWrite : Nat) :
    Waiting (init highWater lowWater minWrite : State β ε) :=
  fun _ hcall => absurd hcall not_mem_nil

theorem Waiting.goOn (h : Waiting s) (hstack : Stirs stack) : Waiting (s.goOn k stack) := by
  intro call hcall w hmem
  rcases mem_or_eq_of_mem_set hcall with hcall | rfl
  · exact h call hcall w hmem
  · exact absurd hmem (hstack w)

theorem Waiting.spawn (h : Waiting s) (hstack : Stirs stack) : Waiting (s.spawn stack) := by
  intro call hcall w hmem
  rcases mem_append.1 hcall with hcall | hcall
  · exact h call hcall w hmem
  · have heq : call = stack := by simpa using hcall
    exact absurd (heq ▸ hmem) (hstack w)

theorem Waiting.congr {s' : State β ε} (h : Waiting s) (hbuf : s'.buf = s.buf)
    (hcalls : s'.calls = s.calls) : Waiting s' := by
  intro call hcall w hmem
  rw [hbuf]
  exact h call (hcalls ▸ hcall) w hmem

theorem waiting_of_notify (hn : sec.notify = true) : Waiting (s.enter k rest sec) := by
  intro call hcall w hmem
  simp only [State.enter, hn, if_true] at hcall
  rcases mem_map.1 hcall with ⟨old, -, rfl⟩
  exact absurd hmem (stirs_notify old w)

theorem Waiting.enter (h : Waiting s) (hkeep : ∀ w, s.buf.Blocks w → sec.buf.Blocks w)
    (hstack : ∀ w, .parked w false ∈ sec.stack rest → sec.buf.Blocks w) :
    Waiting (s.enter k rest sec) := by
  by_cases hn : sec.notify = true
  -- who was parked will test the predicate again
  · exact waiting_of_notify hn
  · intro call hcall w hmem
    simp only [State.enter, hn, if_false, Bool.false_eq_true] at hcall
    rcases mem_or_eq_of_mem_set hcall with hcall | rfl
    · exact hkeep w (h call hcall w hmem)
    · exact hstack w hmem

theorem Waiting.enter_stirs (h : Waiting s) (hrest : Passive rest)
    (hkeep : ∀ w, s.buf.Blocks w → sec.buf.Blocks w) (hsec : Stirs sec.frames) :
    Waiting (s.enter k rest sec) := by
  refine h.enter hkeep ?_
  intro w hmem
  unfold Section.stack at hmem
  unfold Section.frames at hsec
  split at hmem
  · rename_i frames hn
    rw [hn] at hsec
    rcases mem_append.1 hmem with hmem | hmem
    · exact absurd hmem (hsec w)
    · exact absurd hmem (hrest.stirs w)
  · rename_i e hn
    exact absurd hmem (hrest.stirs_unwind e w)

theorem Waiting.begin (h : Waiting s) (hkeep : ∀ w, s.buf.Blocks w → sec.buf.Blocks w)
    (hsec : Stirs sec.frames) : Waiting (s.begin sec) :=
  (h.spawn stirs_nil).enter_stirs passive_nil hkeep hsec

/-! ## The sections -/

theorem Buffer.Blocks.reserveLeg {b : Buffer β ε} {w : Wait} (h : b.Blocks w) (force : Bool) :
    b.reserveLeg force = (b, none) := by
  unfold Buffer.reserveLeg
  rw [if_pos (Or.inl h.active)]

theorem Buffer.Blocks.appendPending {b : Buffer β ε} {w : Wait} (h : b.Blocks w) (hb : b.Counted)
    (data : List β) : (b.appendPending data).Blocks w := by
  -- the predicate of `drain` is antitone in the number of bytes
  have hbytes : b.pendingBytes ≤ (b.appendPending data).pendingBytes := by
    rw [Buffer.counted_appendPending, Buffer.held_appendPending, hb, length_append]
    omega
  have hfields : (b.appendPending data).sendError = b.sendError ∧
      (b.appendPending data).active = b.active ∧
      (b.appendPending data).inFlightBytes = b.inFlightBytes ∧
      (b.appendPending data).lowWater = b.lowWater := by
    unfold Buffer.appendPending
    split <;> exact ⟨rfl, rfl, rfl, rfl⟩
  rcases hfields with ⟨herr, hact, hfly, hlow⟩
  refine ⟨herr.trans h.error, ?_, hact.trans h.active⟩
  have hready := h.waits
  cases w with
  | drain =>
    simp only [Buffer.ready, decide_eq_false_iff_not, hfly, hlow] at hready ⊢
    omega
  | flush => simp [Buffer.ready, hact, h.active]

theorem submitFrames_stirs (wait : Bool) (r : Option (List β)) :
    Stirs (submitFrames wait r : List (Frame β ε)) := by
  cases r with
  | none => exact stirs_nil
  | some chunk => exact stirs_nil.cons (fun w heq => by cases heq)

theorem Stirs.append {call call' : List (Frame β ε)} (h : Stirs call) (h' : Stirs call') :
    Stirs (call ++ call') := by
  intro w hmem
  rcases mem_append.1 hmem with hmem | hmem
  · exact h w hmem
  · exact h' w hmem

theorem Waiting.write (h : Waiting s) (hb : s.buf.Counted) (x : Errors ε) (data : List β) :
    Waiting (s.begin (writeSection x s.buf data)) := by
  unfold writeSection
  split
  · exact h.begin (fun _ hw => hw) stirs_nil
  · split
    · exact h.begin (fun _ hw => hw) stirs_nil
    · split
      · exact h.begin (fun _ hw => hw) stirs_nil
      · refine h.begin ?_ (submitFrames_stirs _ _)
        intro w hw
        have happ := hw.appendPending hb data
        simpa [Section.pass, happ.reserveLeg false] using happ

theorem Waiting.reserve (h : Waiting s) {tl : List (Frame β ε)} (htl : Stirs tl) :
    Waiting (s.begin (.pass (s.buf.reserveLeg true).1
      (.ok (submitFrames false (s.buf.reserveLeg true).2 ++ tl)))) := by
  refine h.begin ?_ ((submitFrames_stirs _ _).append htl)
  intro w hw
  simpa [Section.pass, hw.reserveLeg true] using hw

theorem Waiting.drain (h : Waiting s) : Waiting (s.begin (drainSection s.buf)) := by
  unfold drainSection
  split
  · exact h.begin (fun _ hw => hw) stirs_nil
  · refine h.reserve ?_
    split
    · exact stirs_nil.cons (fun w heq => by cases heq)
    · exact stirs_nil

theorem Waiting.flush (h : Waiting s) : Waiting (s.begin (flushSection s.buf)) := by
  unfold flushSection
  split
  · exact h.begin (fun _ hw => hw) stirs_nil
  · exact h.reserve (stirs_nil.cons (fun w heq => by cases heq))

theorem Waiting.writeEof (h : Waiting s) (x : Errors ε) (fault : Option ε) :
    Waiting (s.begin (writeEofSection x s.buf fault)) := by
  rcases writeEofSection_cases x s.buf fault with
    ⟨next, rfl | ⟨e, rfl⟩, heq⟩ | ⟨-, -, -, heq | ⟨-, heq⟩⟩
  · rw [heq]
    exact h.begin (fun _ hw => hw) stirs_nil
  · rw [heq]
    exact h.begin (fun _ hw => hw) stirs_nil
  · rw [heq]
    exact waiting_of_notify rfl
  · rw [heq]
    exact waiting_of_notify rfl

theorem Waiting.closing (h : Waiting s) {next : Except ε (List (Frame β ε))}
    (hnext : Stirs ({ closeSection s.buf with next := next } : Section β ε).frames) :
    Waiting (s.begin { closeSection s.buf with next := next }) := by
  refine h.begin ?_ hnext
  intro w hw
  have hbuf := closeSection_buf s.buf
  rw [hbuf]
  exact ⟨hw.error, by simpa [Buffer.ready] using hw.waits, hw.active⟩

theorem Waiting.setLimits (h : Waiting s) (x : Errors ε) (high low : Option Int) :
    Waiting (s.begin (limitsSection x s.buf high low)) := by
  unfold limitsSection
  dsimp only
  split
  · exact h.begin (fun _ hw => hw) stirs_nil
  · exact waiting_of_notify rfl

theorem Waiting.call (h : Waiting s) (hb : s.buf.Counted) (x : Errors ε) (op : Op β ε) :
    Waiting (call x s op) := by
  cases op with
  | write data =>
    cases data with
    | nil => exact h
    | cons d data =>
      simp only [SendBuffer.call]
      split
      · exact (h.write hb x (d :: data)).congr rfl rfl
      · exact h.write hb x (d :: data)
  | drain => exact h.drain
  | flush => exact h.flush
  | writeEof fault =>
    simp only [SendBuffer.call]
    split
    · exact (h.writeEof x fault).congr rfl rfl
    · exact h.writeEof x fault
  | close =>
    have hframes : (closeSection s.buf).frames = [] := by
      unfold closeSection
      split <;> rfl
    have hclose : Stirs ({ closeSection s.buf with next := (closeSection s.buf).next }).frames :=
      hframes ▸ stirs_nil
    exact h.closing hclose
  | setLimits high low => exact h.setLimits x high low
  | stealPending =>
    intro call hcall w hmem
    have hw := h call hcall w hmem
    -- a wait is blocked by a leg, so nothing is stolen
    simpa [SendBuffer.call, hw.active] using hw
  | waitClosed =>
    simp only [SendBuffer.call]
    split
    · exact h
    · exact h.closing (stirs_nil.cons (fun w heq => by cases heq))

/-! ## The steps -/

theorem settled_cases {b : Buffer β ε} {w : Wait} (h : b.settled w = true)
    (herr : b.sendError = none) : b.ready w = true ∨ b.active = true := by
  unfold Buffer.settled at h
  rw [herr] at h
  simpa using h

theorem Waiting.check {w : Wait} (h : Waiting s) (hrest : Passive rest)
    (hw : s.buf.settled w = true) : Waiting (s.enter k rest (checkSection s.buf w)) := by
  unfold checkSection
  split
  · exact h.enter_stirs hrest (fun _ hv => hv) stirs_nil
  · rename_i herr
    refine h.enter (fun _ hv => hv) ?_
    intro v hmem
    rcases mem_append.1 hmem with hmem | hmem
    · split at hmem
      · exact absurd hmem not_mem_nil
      · rename_i hready
        have heq : v = w := by simpa using hmem
        subst heq
        have hready' : s.buf.ready v = false := by simpa using hready
        refine ⟨herr, hready', ?_⟩
        rcases settled_cases hw herr with hr | hact
        · exact absurd hr hready
        · exact hact
    · exact absurd hmem (hrest.stirs v)

theorem Waiting.steal (h : Waiting s) (hrest : Passive rest) :
    Waiting (s.enter k rest (stealSection s.buf)) := by
  unfold stealSection
  split
  · exact h.enter_stirs hrest (fun _ hw => hw) stirs_nil
  · split
    · exact h.enter_stirs hrest (fun _ hw => hw) (stirs_nil.cons (fun w heq => by cases heq))
    · rename_i hact
      refine h.enter_stirs hrest (fun w hw => absurd hw.active hact) ?_
      unfold Section.frames Section.pass
      dsimp only
      split
      · exact stirs_nil.cons (fun w heq => by cases heq)
      · exact stirs_nil.cons (fun w heq => by cases heq)

theorem Waiting.arm (h : Waiting s) (hrest : Passive rest) :
    Waiting (s.enter k rest (armSection s.buf)) := by
  unfold armSection
  split
  · exact h.enter_stirs hrest (fun _ hw => hw) stirs_nil
  · split
    · exact h.enter_stirs hrest (fun _ hw => hw) (stirs_nil.cons (fun w heq => by cases heq))
    · refine h.enter_stirs hrest ?_ stirs_nil
      intro w hw
      exact ⟨hw.error, by cases w <;> exact hw.waits, hw.active⟩

theorem endLeg_notify (x : Errors ε) (b : Buffer β ε) (wait : Bool) (fault : Option ε) :
    (endLeg x b wait fault).notify = true ∧ (goIdle x b fault).notify = true := by
  have hidle : ∀ b : Buffer β ε, (goIdle x b fault).notify = true := by
    intro b
    unfold goIdle
    dsimp only
    split <;> rfl
  refine ⟨?_, hidle b⟩
  unfold endLeg
  split
  · rfl
  · exact hidle _

theorem finishSection_notify (x : Errors ε) (b : Buffer β ε) (fault : Option ε) :
    (finishSection x b fault).notify = true := by
  unfold finishSection
  split
  · rfl
  · exact (endLeg_notify x _ false fault).1

theorem completeSection_notify (x : Errors ε) (b : Buffer β ε) (exception fault : Option ε) :
    (completeSection x b exception fault).notify = true := by
  unfold completeSection
  dsimp only
  split
  · exact (endLeg_notify x _ true fault).1
  · exact (endLeg_notify x _ true fault).2

theorem Waiting.run {x : Errors ε} {reply : Reply ε} {s' : State β ε} (h : Waiting s)
    (hst : Stream s) (hk : s.calls[k]? = some (f :: rest)) (hc : ChecksSettled s (.run k reply))
    (hs : run x s k rest reply f = some s') : Waiting s' := by
  have hrest := hst.rest_passive hk
  -- nobody is parked below the frame that runs
  have hgo : Waiting (s.goOn k rest) := h.goOn hrest.stirs
  have hun : ∀ e, Waiting (s.goOn k (unwind e rest)) := fun e => h.goOn (hrest.stirs_unwind e)
  have hshut : ∀ stack, Waiting (s.goOn k stack) → Waiting (s.shut.goOn k stack) := by
    intro stack hw
    refine hw.congr ?_ ?_
    · unfold State.shut
      split <;> rfl
    · simp only [State.goOn, shut_calls]
  simp only [ChecksSettled, hk] at hc
  cases ran_of_run hs with
  | sent chunk =>
    have hfinish : Waiting (s.goOn k (.finish :: rest)) :=
      h.goOn (hrest.stirs.cons (fun w heq => by cases heq))
    exact hfinish.congr rfl rfl
  | submitted chunk => exact hgo.congr rfl rfl
  | eager chunk exception =>
    have hstack : Stirs (.complete exception :: .onDone :: .inCall none :: rest) :=
      ((hrest.stirs.cons (fun w heq => by cases heq)).cons
        (fun w heq => by cases heq)).cons (fun w heq => by cases heq)
    exact (h.goOn hstack).congr rfl rfl
  | refused chunk wait e => exact h.goOn (hrest.stirs.cons (fun w heq => by cases heq))
  | failed chunk e => exact waiting_of_notify rfl
  | finish => exact waiting_of_notify (finishSection_notify x s.buf reply.fault)
  | returned callbackError => exact hgo
  | raised callbackError e => exact hun e
  | complete exception => exact waiting_of_notify (completeSection_notify x s.buf exception reply.fault)
  | done => exact hgo
  | handled e next hnext => exact waiting_of_notify rfl
  | reported e => exact waiting_of_notify rfl
  | fireForget e => exact waiting_of_notify rfl
  | closeRaises writer e => exact hshut _ (hun e)
  | closes writer => exact (hshut _ hgo).congr rfl rfl
  | closeQuiet => exact hshut _ hgo
  | check w => exact h.check hrest hc
  | woken w => exact h.check hrest hc
  | steal => exact (h.steal hrest).congr rfl rfl
  | armed hnone => exact (h.arm hrest).congr rfl rfl
  | armFails herr => exact h.arm hrest
  | sendRaises chunk e => exact hun e
  | sendCloses chunk => exact (hshut _ hgo).congr rfl rfl

theorem Waiting.step {x : Errors ε} {a : Act β ε} {s' : State β ε} (h : Waiting s) (hst : Stream s)
    (hc : ChecksSettled s a) (hs : step x s a = some s') : Waiting s' := by
  cases a with
  | call op =>
    cases hs
    exact h.call hst.counted x op
  | completed exception =>
    simp only [SendBuffer.step] at hs
    split at hs
    · cases hs
      have hstack : Stirs ([.complete exception, .onDone] : List (Frame β ε)) :=
        (stirs_nil.cons (fun w heq => by cases heq)).cons (fun w heq => by cases heq)
      exact (h.spawn hstack).congr rfl rfl
    · cases hs
  | sendFailed e =>
    simp only [SendBuffer.step] at hs
    split at hs
    · cases hs
      have hstack : Stirs ([.fireForget e] : List (Frame β ε)) :=
        stirs_nil.cons (fun w heq => by cases heq)
      exact (h.spawn hstack).congr rfl rfl
    · cases hs
  | run k reply =>
    simp only [SendBuffer.step] at hs
    split at hs
    · rename_i f rest hk
      exact h.run hst hk hc hs
    · cases hs
  | throw k =>
    simp only [SendBuffer.step] at hs
    split at hs
    · cases hs
      exact h.goOn stirs_nil
    · cases hs

/-! ## Runs -/

theorem Waiting.noLostWakeup (h : Waiting s) (hst : Stream s) : NoLostWakeup s := by
  intro call hcall
  unfold WakesUp
  split
  · rename_i w notified tl
    have hblocks : notified = false → s.buf.Blocks w := by
      intro hn
      subst hn
      exact h _ hcall w mem_cons_self
    refine ⟨?_, ?_⟩
    · intro hready
      by_contra hn
      have hb := hblocks (by simpa using hn)
      rcases hready with herr | hready
      · rw [hb.error] at herr
        cases herr
      · rw [hb.waits] at hready
        cases hready
    · intro hn _
      have hb := hblocks hn
      have hone := (hst.active hb.error).1 hb.active
      omega
  · trivial

/-- A tealet that tests its predicate while the buffer is idle and holds bytes back parks, and no
leg is under way. -/
theorem lost_wakeup_of_unsettled {w : Wait} (hst : Stream s)
    (hk : s.calls[k]? = some (f :: rest)) (hf : f.isLeg = false) (hw : s.buf.settled w ≠ true) :
    ¬ NoLostWakeup (s.enter k rest (checkSection s.buf w)) := by
  have hfields : s.buf.sendError = none ∧ s.buf.ready w = false ∧ s.buf.active = false := by
    unfold Buffer.settled at hw
    simpa [and_assoc] using hw
  rcases hfields with ⟨herr, hready, hact⟩
  have hsec : checkSection s.buf w = .pass s.buf (.ok [.parked w false]) := by
    simp [checkSection, herr, hready]
  have hst' := hst.check hk hf w
  rw [hsec] at hst' ⊢
  have hidle := hst'.idle herr hact
  intro hall
  have hlen : k < s.calls.length := (List.getElem?_eq_some_iff.1 hk).1
  have hmem : .parked w false :: rest ∈ (s.enter k rest (.pass s.buf (.ok [.parked w false]))).calls := by
    simp only [State.enter, Section.pass, Section.stack, Bool.false_eq_true, if_false]
    exact mem_set hlen _
  have hpos := (hall _ hmem).2 rfl (by simp [State.enter, Section.pass, herr])
  omega

end Rules

/-- In every run: a tealet that is parked in `drain` or `flush` while its predicate holds or would
raise has a notification, and one that waits without an error waits for a leg, if and only if no
tealet tests its predicate while the buffer is idle, without error, and holds bytes back. -/
theorem no_lost_wakeup_iff_checks_settled (x : Errors ε) (highWater lowWater : Int) (minWrite : Nat)
    (acts : List (Act β ε)) :
    Always (step x) NoLostWakeup (init highWater lowWater minWrite) acts ↔
      Along (step x) ChecksSettled (init highWater lowWater minWrite) acts := by
  refine always_iff_along (I := fun s => Stream s ∧ Waiting s) ?_ ?_ ?_ acts _
    ⟨Stream.init highWater lowWater minWrite, Waiting.init highWater lowWater minWrite⟩
  · intro s h
    exact h.2.noLostWakeup h.1
  · intro s a s' h hc hs
    exact ⟨h.1.step hs, h.2.step h.1 hc hs⟩
  · intro s a s' h hc hs
    unfold ChecksSettled at hc
    split at hc
    · rename_i k reply
      simp only [step] at hs
      split at hc
      · rename_i w rest hk
        rw [hk] at hs
        cases hs
        exact lost_wakeup_of_unsettled h.1 hk rfl hc
      · rename_i w rest hk
        rw [hk] at hs
        cases hs
        exact lost_wakeup_of_unsettled h.1 hk rfl hc
      · exact absurd trivial hc
    · exact absurd trivial hc

/-- A tealet is parked in `flush` behind a leg.  The leg completes and notifies; before the tealet
gets its turn, another one writes less than `min_write`.  The tealet parks again, with the bytes
held back and no leg under way. -/
theorem flush_parks_without_leg :
    ¬ ∀ acts : List (Act Nat Nat),
      Always (step ⟨0, 1, 2, fun _ => true, fun _ => false⟩) NoLostWakeup (init 10 2 2) acts := by
  intro hall
  have hrun := hall
    [.call (.write [1, 2]), .run 0 .ok, .call .flush, .run 1 .ok, .completed none, .run 2 .ok,
      .run 2 .ok, .call (.write [3]), .run 1 .ok]
  revert hrun
  decide

end Pytealet.Io.SendBuffer
