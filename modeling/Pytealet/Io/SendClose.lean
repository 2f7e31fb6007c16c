import Pytealet.Io.SendEof

/-!
# SendClose — the close of an armed buffer

`wait_closed` of the stream writer arms the buffer when a leg is under way: the socket is then
closed by the call that ends the last leg.  A buffer that is idle already is closed by `wait_closed`
itself.

The end of a leg reads `_close_when_idle` where it becomes idle in the ordinary way.  Three other
ways out of a leg leave the flag set and close nothing: a submit that raises, the end of a leg of
`sock_send_nowait` that finds an error, and a `sock_shutdown_nowait` that raises.  Of an error that
`sock_send_nowait` reports, the socket is closed by `_on_fire_forget_error`.
-/

namespace Pytealet.Io.SendBuffer

open Lib Lib.Transition List Bool

variable {β ε : Type*}

/-! ## The property and the guard -/

/-- The call is about to close the socket. -/
def Frame.closes : Frame β ε → Bool
  | .close _ | .closeQuiet => true
  | _ => false

def closeCount (call : List (Frame β ε)) : Nat :=
  call.countP Frame.closes

/-- The calls that are about to close the socket. -/
def State.closers (s : State β ε) : Nat :=
  tally closeCount s.calls

/-- The socket is closed at most once; and it has been closed once the buffer was armed, no leg is
under way, no leg can be submitted any more, and no call is about to close it. -/
def ClosesOnce (s : State β ε) : Prop :=
  s.trace.closes ≤ 1 ∧
    (s.trace.armed = true → s.legs = 0 → (s.buf.sendError.isSome = true ∨ s.buf.held = []) →
      s.closers = 0 → s.trace.closes = 1)

instance [DecidableEq β] (s : State β ε) : Decidable (ClosesOnce s) :=
  inferInstanceAs (Decidable (_ ∧ _))

/-- The buffer is armed, and nobody else is about to close the socket. -/
def State.owes (s : State β ε) : Bool :=
  s.buf.closeWhenIdle && s.sockOpen && s.closers == 0

/-- While the close is owed, no leg ends with a submit that raises, with an error that is found
after `sock_send_nowait`, or with a shutdown that raises. -/
def EndsIdle (s : State β ε) : Act β ε → Prop
  | .run k reply =>
    match s.calls[k]? with
    | some (.failed _ _ :: _) => s.owes = false
    | some (.finish :: _) =>
      ((s.buf.sendError.isSome || (s.buf.eofDue && reply.fault.isSome)) && s.owes) = false
    | some (.complete _ :: _) => ((s.buf.eofDue && reply.fault.isSome) && s.owes) = false
    | _ => True
  | _ => True

/-! ## Fields -/

/-- There is an error, a leg, or nothing to send. -/
def Buffer.Resting (b : Buffer β ε) : Prop :=
  b.sendError = none → b.active = true ∨ b.held = []

/-- A section keeps the buffer closed, and a closed buffer at rest. -/
structure Buffer.Settles (b b' : Buffer β ε) : Prop where
  closed : b.closed = true → b'.closed = true
  resting : b.closed = true → b.Resting → b'.Resting

theorem Buffer.Settles.refl (b : Buffer β ε) : b.Settles b :=
  ⟨fun h => h, fun _ h => h⟩

theorem Buffer.settles_of_error {b b' : Buffer β ε} (hclosed : b.closed = true → b'.closed = true)
    (herr : b'.sendError.isSome = true) : b.Settles b' := by
  refine ⟨hclosed, ?_⟩
  intro _ _ hnone
  rw [hnone] at herr
  cases herr

theorem Buffer.settles_of_empty {b b' : Buffer β ε} (hclosed : b.closed = true → b'.closed = true)
    (hheld : b'.held = []) : b.Settles b' :=
  ⟨hclosed, fun _ _ _ => Or.inr hheld⟩

theorem Buffer.settles_reserveLeg (b : Buffer β ε) (force : Bool) :
    b.Settles (b.reserveLeg force).1 := by
  rcases b.reserveLeg_cases force with heq | ⟨-, -, heq⟩
  · rw [heq]
    exact .refl b
  · rw [heq]
    exact Buffer.settles_of_empty (fun h => h) b.held_lease

/-- `wait_closed` has closed the buffer before it steals, and leaves it at rest before it arms. -/
def Frame.Sound (b : Buffer β ε) : Frame β ε → Prop
  | .steal => b.closed = true
  | .arm => b.closed = true ∧ b.Resting
  | _ => True

theorem Frame.Sound.settle {b b' : Buffer β ε} {f : Frame β ε} (h : f.Sound b)
    (hb : b.Settles b') : f.Sound b' := by
  cases f with
  | steal => exact hb.closed h
  | arm => exact ⟨hb.closed h.1, hb.resting h.1 h.2⟩
  | _ => trivial

variable {b : Buffer β ε}

theorem Frame.sound_notify {f : Frame β ε} (h : f.Sound b) : f.notify.Sound b := by
  cases f <;> exact h

theorem Frame.sound_of_passive (b : Buffer β ε) {f : Frame β ε} (h : f.passive = true) :
    f.Sound b := by
  cases f <;> trivial

/-! ## Counts -/

@[simp]
theorem closeCount_cons (f : Frame β ε) (call : List (Frame β ε)) :
    closeCount (f :: call) = closeCount call + if f.closes then 1 else 0 :=
  countP_cons

@[simp]
theorem closeCount_append (call call' : List (Frame β ε)) :
    closeCount (call ++ call') = closeCount call + closeCount call' :=
  countP_append

theorem closeCount_notify (call : List (Frame β ε)) :
    closeCount (call.map Frame.notify) = closeCount call := by
  simp only [closeCount, countP_map]
  congr 1
  funext f
  cases f <;> rfl

theorem Passive.closeCount {call : List (Frame β ε)} (h : Passive call) : closeCount call = 0 := by
  simp only [SendBuffer.closeCount, countP_eq_zero]
  intro f hf
  have hpass := h f hf
  cases f <;> simp_all [Frame.closes, Frame.passive]

theorem Passive.closeCount_unwind {call : List (Frame β ε)} (h : Passive call) (e : ε) :
    SendBuffer.closeCount (SendBuffer.unwind e call) = 0 := by
  induction call with
  | nil => rfl
  | cons f rest ih =>
    have hrest : Passive rest := fun g hg => h g (mem_cons_of_mem f hg)
    cases f with
    | onDone => simp [SendBuffer.unwind, hrest.closeCount, Frame.closes]
    | _ => exact ih hrest

theorem Passive.sound_unwind {call : List (Frame β ε)} (h : Passive call) (b : Buffer β ε) (e : ε) :
    ∀ f ∈ SendBuffer.unwind e call, f.Sound b := by
  induction call with
  | nil => exact fun f hf => absurd hf not_mem_nil
  | cons g rest ih =>
    have hrest : Passive rest := fun f hf => h f (mem_cons_of_mem g hf)
    cases g with
    | onDone =>
      intro f hf
      rcases mem_cons.1 hf with rfl | hf
      · trivial
      · exact Frame.sound_of_passive b (hrest f hf)
    | _ => exact ih hrest

section Rules

variable {s : State β ε} {k : Nat} {f : Frame β ε} {rest stack : List (Frame β ε)}
  {sec : Section β ε}

theorem Section.closeCount_stack (sec : Section β ε) (hrest : Passive rest) :
    closeCount (sec.stack rest) = closeCount sec.frames := by
  unfold Section.stack Section.frames
  cases sec.next with
  | ok frames => exact (closeCount_append frames rest).trans (by rw [hrest.closeCount, Nat.add_zero])
  | error e => exact hrest.closeCount_unwind e

theorem Section.sound_stack (sec : Section β ε) (hrest : Passive rest)
    (hsec : ∀ g ∈ sec.frames, g.Sound b) : ∀ g ∈ sec.stack rest, g.Sound b := by
  unfold Section.stack
  unfold Section.frames at hsec
  split
  · rename_i frames hn
    rw [hn] at hsec
    intro g hg
    rcases mem_append.1 hg with hg | hg
    · exact hsec g hg
    · exact Frame.sound_of_passive b (hrest g hg)
  · rename_i e hn
    exact hrest.sound_unwind b e

theorem closers_goOn (hk : s.calls[k]? = some (f :: rest)) (stack : List (Frame β ε)) :
    (s.goOn k stack).closers + closeCount (f :: rest) = s.closers + closeCount stack :=
  Tally.tally_set hk stack

theorem legs_goOn (hk : s.calls[k]? = some (f :: rest)) (stack : List (Frame β ε)) :
    (s.goOn k stack).legs + legCount (f :: rest) = s.legs + legCount stack := by
  have hset := Tally.tally_set (f := legCount) hk stack
  simp only [State.legs, State.goOn]
  omega

theorem closers_enter (s : State β ε) (k : Nat) (rest : List (Frame β ε)) (sec : Section β ε) :
    (s.enter k rest sec).closers = (s.goOn k (sec.stack rest)).closers := by
  unfold State.enter State.goOn State.closers
  cases sec.notify with
  | false => rfl
  | true =>
    have hmap := Tally.tally_map (f := closeCount) (t := List.map Frame.notify)
      (fun call => closeCount_notify call) (s.calls.set k (sec.stack rest))
    simpa [notifyAll] using hmap

/-! ## The invariant -/

structure Armed (s : State β ε) : Prop where
  count : s.trace.closes = if s.sockOpen then 0 else 1
  flag : s.buf.closeWhenIdle = true → s.trace.armed = true
  owed : s.trace.armed = true → s.sockOpen = true →
    0 < s.closers ∨ (s.buf.closeWhenIdle = true ∧ s.legs = 1)
  sound : ∀ call ∈ s.calls, ∀ f ∈ call, f.Sound s.buf

theorem Armed.init (highWater lowWater : Int) (minWrite : Nat) :
    Armed (init highWater lowWater minWrite : State β ε) where
  count := rfl
  flag := fun h => by cases h
  owed := fun h => by cases h
  sound := fun call hcall => absurd hcall not_mem_nil

theorem Armed.closesOnce (h : Armed s) : ClosesOnce s := by
  have hcount := h.count
  refine ⟨?_, ?_⟩
  · split at hcount <;> omega
  · intro harmed hlegs _ hnone
    by_cases hopen : s.sockOpen = true
    · rcases h.owed harmed hopen with hpos | ⟨-, hone⟩
      · omega
      · omega
    · rw [hcount, if_neg hopen]

theorem sound_set {calls : List (List (Frame β ε))}
    (h : ∀ call ∈ calls, ∀ g ∈ call, g.Sound b) (hstack : ∀ g ∈ stack, g.Sound b) :
    ∀ call ∈ calls.set k stack, ∀ g ∈ call, g.Sound b := by
  intro call hcall
  rcases mem_or_eq_of_mem_set hcall with hcall | rfl
  · exact h call hcall
  · exact hstack

theorem sound_enter (h : ∀ call ∈ s.calls, ∀ g ∈ call, g.Sound s.buf)
    (hbuf : s.buf.Settles sec.buf) (hstack : ∀ g ∈ sec.stack rest, g.Sound sec.buf) :
    ∀ call ∈ (s.enter k rest sec).calls, ∀ g ∈ call, g.Sound sec.buf := by
  have hold : ∀ call ∈ s.calls, ∀ g ∈ call, g.Sound sec.buf :=
    fun call hcall g hg => (h call hcall g hg).settle hbuf
  have hset := sound_set (k := k) hold hstack
  unfold State.enter
  cases sec.notify with
  | false => exact hset
  | true =>
    intro call hcall g hg
    rcases mem_map.1 hcall with ⟨old, hmem, rfl⟩
    rcases mem_map.1 hg with ⟨g', hg', rfl⟩
    exact Frame.sound_notify (hset old hmem g' hg')

theorem trace_enter (s : State β ε) (k : Nat) (rest : List (Frame β ε)) (sec : Section β ε) :
    (s.enter k rest sec).trace.closes = s.trace.closes ∧
      (s.enter k rest sec).trace.armed = s.trace.armed := by
  unfold State.enter
  cases sec.shut <;> exact ⟨rfl, rfl⟩

theorem Armed.enter (h : Armed s) (hst : Stream s) (hk : s.calls[k]? = some (f :: rest))
    (hf : f.closes = false) (hbuf : s.buf.Settles sec.buf)
    (hframes : ∀ g ∈ sec.frames, g.Sound sec.buf) (hpass : Passive sec.frames.tail)
    (hflag : sec.buf.closeWhenIdle = true → s.buf.closeWhenIdle = true)
    (howed : s.owes = true → 0 < closeCount sec.frames ∨
      (sec.buf.closeWhenIdle = true ∧ legCount sec.frames = if f.isLeg then 1 else 0)) :
    Armed (s.enter k rest sec) := by
  have hrest := hst.rest_passive hk
  rcases trace_enter s k rest sec with ⟨hcloses, harmed⟩
  have hclosers := closers_goOn hk (sec.stack rest)
  have hlegs := legs_goOn hk (sec.stack rest)
  rw [Section.closeCount_stack sec hrest, closeCount_cons, hrest.closeCount] at hclosers
  rw [(sec.stack_spec hrest hpass).1, legCount_cons, hrest.legCount] at hlegs
  simp only [hf, false_eq_true, if_false, Nat.add_zero] at hclosers
  refine ⟨hcloses.trans h.count, fun hc => harmed.trans (h.flag (hflag hc)), ?_, ?_⟩
  · intro ha hopen
    rw [closers_enter, legs_enter]
    rcases h.owed (harmed ▸ ha) hopen with hpos | ⟨hidle, hone⟩
    · left
      omega
    · by_cases hzero : s.closers = 0
      · have howes : s.owes = true := by
          have hopen' : s.sockOpen = true := hopen
          simp [State.owes, hidle, hopen', hzero]
        rcases howed howes with hpos | ⟨hidle', hleg⟩
        · left
          omega
        · right
          refine ⟨hidle', ?_⟩
          omega
      · left
        omega
  · exact sound_enter h.sound hbuf (sec.sound_stack hrest hframes)

theorem Armed.congr {s' : State β ε} (h : Armed s) (hbuf : s'.buf = s.buf)
    (hcalls : s'.calls = s.calls) (hlegs : s'.legs = s.legs) (hopen : s'.sockOpen = s.sockOpen)
    (hcloses : s'.trace.closes = s.trace.closes) (harmed : s'.trace.armed = s.trace.armed) :
    Armed s' where
  count := by rw [hcloses, hopen, h.count]
  flag := by rw [hbuf, harmed]; exact h.flag
  owed := by
    have hclosers : s'.closers = s.closers := by rw [State.closers, hcalls, State.closers]
    rw [harmed, hopen, hclosers, hbuf, hlegs]
    exact h.owed
  sound := by rw [hbuf, hcalls]; exact h.sound

theorem Armed.move {s' : State β ε} (h : Armed s) (hk : s.calls[k]? = some (f :: rest))
    (hrest : Passive rest) (hf : f.closes = false) (hstack : ∀ g ∈ stack, g.Sound s.buf)
    (hcalls : s'.calls = s.calls.set k stack) (hlegs : s'.legs = s.legs) (hbuf : s'.buf = s.buf)
    (hopen : s'.sockOpen = s.sockOpen) (hcloses : s'.trace.closes = s.trace.closes)
    (harmed : s'.trace.armed = s.trace.armed) : Armed s' := by
  have hclosers := closers_goOn hk stack
  rw [closeCount_cons, hrest.closeCount] at hclosers
  simp only [hf, false_eq_true, if_false, Nat.add_zero] at hclosers
  have hclosers' : s'.closers = (s.goOn k stack).closers := congrArg (tally closeCount) hcalls
  refine ⟨?_, ?_, ?_, ?_⟩
  · rw [hcloses, hopen, h.count]
  · rw [hbuf, harmed]
    exact h.flag
  · rw [harmed, hopen, hbuf, hlegs]
    intro ha ho
    rcases h.owed ha ho with hpos | hidle
    · left
      omega
    · exact Or.inr hidle
  · rw [hbuf, hcalls]
    exact sound_set h.sound hstack

theorem Armed.closed (h : Armed s) {s' : State β ε} (hbuf : s'.buf = s.buf)
    (hopen : s'.sockOpen = false) (hcloses : s'.trace.closes = 1)
    (harmed : s'.trace.armed = s.trace.armed)
    (hcalls : ∀ call ∈ s'.calls, ∀ g ∈ call, g.Sound s.buf) : Armed s' where
  count := by rw [hcloses, hopen]; rfl
  flag := by rw [hbuf, harmed]; exact h.flag
  owed := by
    intro _ hopen'
    rw [hopen] at hopen'
    cases hopen'
  sound := by rw [hbuf]; exact hcalls

/-! ## The end of a leg -/

theorem Buffer.closed_maybeShutdown (b : Buffer β ε) (x : Errors ε) (fault : Option ε) :
    (b.maybeShutdown x fault).closed = b.closed ∧
      (b.maybeShutdown x fault).closeWhenIdle = b.closeWhenIdle := by
  unfold Buffer.maybeShutdown
  split <;> exact ⟨rfl, rfl⟩

theorem goIdle_closes (x : Errors ε) (b : Buffer β ε) (fault : Option ε) :
    (goIdle x b fault).buf.closed = b.closed ∧
      ((goIdle x b fault).buf.closeWhenIdle = true → b.closeWhenIdle = true) ∧
      (∀ b', ∀ g ∈ (goIdle x b fault).frames, g.Sound b') ∧
      (b.closeWhenIdle = true → ({ b with active := false } : Buffer β ε).shutdownError fault = none →
        0 < closeCount (goIdle x b fault).frames) := by
  have hfields := ({ b with active := false } : Buffer β ε).closed_maybeShutdown x fault
  unfold goIdle
  dsimp only
  split
  · rename_i e he
    refine ⟨hfields.1, fun hc => hfields.2 ▸ hc, fun b' g hg => absurd hg not_mem_nil, ?_⟩
    intro _ hnone
    rw [he] at hnone
    cases hnone
  · refine ⟨hfields.1, ?_, ?_, ?_⟩
    · intro hc
      cases hc
    · intro b' g hg
      unfold Section.frames at hg
      dsimp only at hg
      split at hg
      · have heq : g = .close false := by simpa using hg
        subst heq
        trivial
      · cases hg
    · intro hc _
      simp [Section.frames, hc, Frame.closes]

theorem shutdownError_eq_none {fault : Option ε}
    (h : (b.shuts && fault.isSome) = false) : b.shutdownError fault = none := by
  unfold Buffer.shutdownError
  split
  · rename_i hs
    rw [hs, Bool.true_and] at h
    simpa using h
  · rfl

theorem settles_goIdle (x : Errors ε) {b₀ b : Buffer β ε} (fault : Option ε)
    (hclosed : b.closed = b₀.closed) (hrest : b.sendError.isSome = true ∨ b.held = []) :
    b₀.Settles (goIdle x b fault).buf := by
  have hcl := (goIdle_closes x b fault).1
  rcases hrest with hsome | hnil
  · exact Buffer.settles_of_error (fun hc => hcl.trans (hclosed.trans hc))
      ((goIdle_fields x b fault).2.2.1 hsome)
  · exact Buffer.settles_of_empty (fun hc => hcl.trans (hclosed.trans hc))
      ((goIdle_spec x b fault).2.2.2.1.trans hnil)

theorem Armed.goIdle (h : Armed s) (hst : Stream s) (hk : s.calls[k]? = some (f :: rest))
    (hf : f.closes = false) (x : Errors ε) (fault : Option ε)
    (hclosed : b.closed = s.buf.closed) (hidle : b.closeWhenIdle = s.buf.closeWhenIdle)
    (hrest : b.sendError.isSome = true ∨ b.held = [])
    (hraise : s.owes = true →
      (({ b with active := false } : Buffer β ε).shuts && fault.isSome) = false) :
    Armed (s.enter k rest (goIdle x b fault)) := by
  rcases goIdle_closes x b fault with ⟨-, hflag, hsound, hclose⟩
  refine h.enter hst hk hf (settles_goIdle x fault hclosed hrest) (hsound _)
    (goIdle_spec x b fault).2.1 ?_ ?_
  · intro hc
    exact hidle ▸ hflag hc
  · intro howes
    have hset : b.closeWhenIdle = true := by
      rw [hidle]
      simp only [State.owes, and_eq_true] at howes
      exact howes.1.1
    exact Or.inl (hclose hset (shutdownError_eq_none (hraise howes)))

theorem Armed.endLeg (h : Armed s) (hst : Stream s) (hk : s.calls[k]? = some (f :: rest))
    (hf : f.isLeg = true) (hf' : f.closes = false) (x : Errors ε) (wait : Bool)
    (fault : Option ε) (hclosed : b.closed = s.buf.closed)
    (hidle : b.closeWhenIdle = s.buf.closeWhenIdle)
    (hraise : s.owes = true → b.held = [] →
      (({ b.empty with active := false } : Buffer β ε).shuts && fault.isSome) = false) :
    Armed (s.enter k rest (endLeg x b wait fault)) := by
  unfold SendBuffer.endLeg
  rcases b.takePending_cases with ⟨hnil, heq⟩ | ⟨-, heq⟩
  · rw [heq]
    exact h.goIdle hst hk hf' x fault hclosed hidle (Or.inr b.held_empty)
      (fun howes => hraise howes hnil)
  · rw [heq]
    refine h.enter hst hk hf' ?_ ?_ passive_nil (fun hc => hidle ▸ hc) ?_
    · exact Buffer.settles_of_empty (fun hc => hclosed.trans hc) rfl
    · intro g hg
      have hgs : g = .submit b.held wait := by simpa [Section.frames] using hg
      subst hgs
      trivial
    · intro howes
      right
      refine ⟨?_, by rw [if_pos hf]; rfl⟩
      show b.closeWhenIdle = true
      rw [hidle]
      simp only [State.owes, and_eq_true] at howes
      exact howes.1.1

theorem eofDue_of_held (hb : b.Counted) (hnil : b.held = []) :
    b.eofDue = (!b.writeEofDone && b.eofPending) := by
  have hzero : b.pendingBytes = 0 := by rw [hb, hnil]; rfl
  simp [Buffer.eofDue, hzero]

theorem Armed.finish (h : Armed s) (hst : Stream s) (hk : s.calls[k]? = some (.finish :: rest))
    (x : Errors ε) (fault : Option ε)
    (hc : ((s.buf.sendError.isSome || (s.buf.eofDue && fault.isSome)) && s.owes) = false) :
    Armed (s.enter k rest (finishSection x s.buf fault)) := by
  have hguard : s.owes = true → (s.buf.sendError.isSome = false ∧
      (s.buf.eofDue && fault.isSome) = false) := by
    intro howes
    rw [howes, Bool.and_true] at hc
    exact or_eq_false_iff.1 hc
  unfold finishSection
  split
  · rename_i e herr
    refine h.enter hst hk rfl ?_ (fun g hg => absurd hg not_mem_nil) passive_nil
      (fun hidle => hidle) ?_
    · exact Buffer.settles_of_error (fun hcl => hcl) (by simp [herr])
    · intro howes
      have hnone := (hguard howes).1
      rw [herr] at hnone
      cases hnone
  · refine h.endLeg hst hk rfl rfl x false fault rfl rfl ?_
    intro howes hnil
    have hdue := (hguard howes).2
    rw [eofDue_of_held hst.counted hnil] at hdue
    simpa [Buffer.shuts, Buffer.empty] using hdue

theorem Armed.fail (h : Armed s) (failed : Bool) : Armed (s.fail failed) :=
  h.congr rfl rfl rfl rfl rfl rfl

theorem Armed.complete {exception : Option ε} (h : Armed s) (hst : Stream s)
    (hk : s.calls[k]? = some (.complete exception :: rest)) (x : Errors ε) (fault : Option ε)
    (hc : ((s.buf.eofDue && fault.isSome) && s.owes) = false) :
    Armed (s.enter k rest (completeSection x s.buf exception fault)) := by
  have hguard : s.owes = true → (s.buf.eofDue && fault.isSome) = false := by
    intro howes
    rw [howes, Bool.and_true] at hc
    exact hc
  unfold completeSection
  dsimp only
  split
  · refine h.endLeg hst hk rfl rfl x true fault rfl rfl ?_
    intro howes hnil
    have hdue := hguard howes
    rw [eofDue_of_held hst.counted hnil] at hdue
    simpa [Buffer.shuts, Buffer.empty] using hdue
  · rename_i e herr
    refine h.goIdle hst hk rfl x fault rfl rfl (Or.inl ?_) ?_
    · show (exception.or s.buf.sendError).isSome = true
      rw [herr]
      rfl
    · intro howes
      have hdue := hguard howes
      simpa [Buffer.shuts, Buffer.eofDue] using hdue

end Rules

end Pytealet.Io.SendBuffer
