import Pytealet.Io.SendStreamRuns

/-!
# SendEof — the shutdown of the write side

`write_eof` marks the end of the stream; `sock_shutdown_nowait` is called once the buffer is idle.
It may be called by `write_eof` itself, after a leg of `sock_send_nowait`, or from the completion of
a leg of `sock_sendall_cb`.

`_maybe_shutdown` tests that the buffer is idle and holds no bytes.  It does not test `_send_error`:
the first two callers do, the completion of a leg does not.
-/

namespace Pytealet.Io.SendBuffer

open Lib Lib.Transition List

variable {β ε : Type*}

/-! ## The property and the guard -/

/-- The shutdown comes after `write_eof`, when no leg is reserved, no byte is pending and no leg is
known to have failed; and every byte that was accepted has been handed over. -/
structure Shot.Clean (shot : Shot β) : Prop where
  marked : shot.eofPending = true
  free : shot.reserved = 0
  empty : shot.pending = []
  sound : shot.legFailed = false
  sent : shot.handedOver = shot.accepted

instance [DecidableEq β] (shot : Shot β) : Decidable shot.Clean :=
  decidable_of_iff
    (shot.eofPending = true ∧ shot.reserved = 0 ∧ shot.pending = [] ∧ shot.legFailed = false ∧
      shot.handedOver = shot.accepted)
    ⟨fun h => ⟨h.1, h.2.1, h.2.2.1, h.2.2.2.1, h.2.2.2.2⟩,
      fun h => ⟨h.marked, h.free, h.empty, h.sound, h.sent⟩⟩

/-- There is at most one shutdown, and it is clean; nothing is accepted after `write_eof`. -/
def HalfCloses (s : State β ε) : Prop :=
  s.trace.shutdowns.length ≤ 1 ∧ (∀ shot ∈ s.trace.shutdowns, shot.Clean) ∧
    ∀ bytes ∈ s.trace.atEof, s.trace.accepted = bytes

instance [DecidableEq β] (s : State β ε) : Decidable (HalfCloses s) :=
  inferInstanceAs (Decidable (_ ∧ _ ∧ _))

/-- The shutdown is due once the leg under way has ended. -/
def Buffer.eofDue (b : Buffer β ε) : Bool :=
  !b.writeEofDone && b.eofPending && b.pendingBytes == 0

/-- No leg of `sock_sendall_cb` completes, with an error or after one, while the shutdown is due. -/
def CompletesSound (s : State β ε) : Act β ε → Prop
  | .run k _ =>
    match s.calls[k]? with
    | some (.complete exception :: _) =>
      ((s.trace.legFailed || exception.isSome) && s.buf.eofDue) = false
    | _ => True
  | _ => True

/-! ## The invariant -/

structure Eof (s : State β ε) : Prop where
  once : s.trace.shutdowns.length = if s.buf.writeEofDone then 1 else 0
  clean : ∀ shot ∈ s.trace.shutdowns, shot.Clean
  note : s.trace.atEof = if s.buf.eofPending then some s.trace.accepted else none
  known : s.trace.legFailed = true → s.buf.sendError.isSome = true

theorem Eof.init (highWater lowWater : Int) (minWrite : Nat) :
    Eof (init highWater lowWater minWrite : State β ε) where
  once := rfl
  clean := fun shot hshot => absurd hshot not_mem_nil
  note := rfl
  known := fun h => by cases h

theorem Eof.halfCloses {s : State β ε} (h : Eof s) : HalfCloses s := by
  refine ⟨?_, h.clean, ?_⟩
  · have honce := h.once
    split at honce <;> omega
  · intro bytes hbytes
    have hnote := h.note
    split at hnote
    · rw [hnote] at hbytes
      exact Option.some.inj hbytes
    · rw [hnote] at hbytes
      cases hbytes

/-- What is noted of a shutdown. -/
def State.shot (s : State β ε) (sec : Section β ε) : Shot β where
  eofPending := sec.buf.eofPending
  reserved := s.reservedLegs
  pending := sec.buf.held
  legFailed := s.trace.legFailed
  handedOver := s.trace.handedOver
  accepted := s.trace.accepted

/-- A section that leaves the flags of `write_eof` alone and keeps an error. -/
structure Buffer.Later (b b' : Buffer β ε) : Prop where
  eofPending : b'.eofPending = b.eofPending
  writeEofDone : b'.writeEofDone = b.writeEofDone
  sendError : b.sendError.isSome = true → b'.sendError.isSome = true

theorem Buffer.Later.refl (b : Buffer β ε) : b.Later b :=
  ⟨rfl, rfl, fun h => h⟩

theorem Buffer.later_appendPending (b : Buffer β ε) (data : List β) :
    b.Later (b.appendPending data) := by
  unfold Buffer.appendPending
  split <;> exact ⟨rfl, rfl, fun h => h⟩

theorem Buffer.later_reserveLeg (b : Buffer β ε) (force : Bool) : b.Later (b.reserveLeg force).1 := by
  rcases b.reserveLeg_cases force with heq | ⟨-, -, heq⟩
  · rw [heq]
    exact .refl b
  · rw [heq]
    exact ⟨rfl, rfl, fun h => h⟩

theorem Buffer.Later.trans {b b' b'' : Buffer β ε} (h : b.Later b') (h' : b'.Later b'') :
    b.Later b'' :=
  ⟨h'.eofPending.trans h.eofPending, h'.writeEofDone.trans h.writeEofDone,
    fun herr => h'.sendError (h.sendError herr)⟩

theorem isSome_or (o p : Option ε) (h : p.isSome = true) : (o.or p).isSome = true := by
  cases o with
  | none => exact h
  | some e => rfl

section Rules

variable {s : State β ε} {k : Nat} {f : Frame β ε} {rest : List (Frame β ε)} {sec : Section β ε}

theorem Eof.congr {s' : State β ε} (h : Eof s) (hbuf : s.buf.Later s'.buf)
    (hshut : s'.trace.shutdowns = s.trace.shutdowns) (hnote : s'.trace.atEof = s.trace.atEof)
    (hacc : s'.trace.accepted = s.trace.accepted) (hfail : s'.trace.legFailed = s.trace.legFailed) :
    Eof s' where
  once := by rw [hshut, hbuf.writeEofDone, h.once]
  clean := hshut ▸ h.clean
  note := by rw [hnote, hbuf.eofPending, hacc, h.note]
  known := fun hf => hbuf.sendError (h.known (hfail ▸ hf))

theorem Eof.enter (h : Eof s) (hbuf : s.buf.Later sec.buf) (hshut : sec.shut = false) :
    Eof (s.enter k rest sec) := by
  unfold State.enter
  rw [hshut]
  exact h.congr hbuf rfl rfl rfl rfl

theorem Eof.enter_failed (h : Eof s) (hbuf : s.buf.Later sec.buf) (hshut : sec.shut = false)
    (herr : sec.buf.sendError.isSome = true) : Eof ((s.fail true).enter k rest sec) := by
  unfold State.enter State.fail
  rw [hshut]
  exact ⟨by simpa [hbuf.writeEofDone] using h.once, h.clean,
    by simpa [hbuf.eofPending] using h.note, fun _ => herr⟩

theorem Eof.enter_shut (h : Eof s) (hmark : sec.buf.eofPending = s.buf.eofPending)
    (hdone : s.buf.writeEofDone = false) (hdone' : sec.buf.writeEofDone = true)
    (herr : s.trace.legFailed = true → sec.buf.sendError.isSome = true) (hclean : (s.shot sec).Clean)
    (hshut : sec.shut = true) : Eof (s.enter k rest sec) := by
  have honce := h.once
  rw [hdone] at honce
  unfold State.enter
  rw [hshut]
  refine ⟨?_, ?_, ?_, herr⟩
  · simp [hdone', eq_nil_of_length_eq_zero honce]
  · intro shot hmem
    rcases mem_cons.1 hmem with heq | hmem
    · exact heq ▸ hclean
    · exact h.clean shot hmem
  · simpa [hmark] using h.note

theorem Eof.goOn (h : Eof s) (stack : List (Frame β ε)) : Eof (s.goOn k stack) :=
  h.congr (.refl _) rfl rfl rfl rfl

theorem Eof.spawn (h : Eof s) (stack : List (Frame β ε)) : Eof (s.spawn stack) :=
  h.congr (.refl _) rfl rfl rfl rfl

theorem Eof.shut (h : Eof s) : Eof s.shut := by
  unfold State.shut
  split
  · exact h.congr (.refl _) rfl rfl rfl rfl
  · exact h

theorem Eof.begin (h : Eof s) (hbuf : s.buf.Later sec.buf) (hshut : sec.shut = false) :
    Eof (s.begin sec) :=
  (h.spawn []).enter hbuf hshut

theorem Eof.begin_pass (h : Eof s) (next : Except ε (List (Frame β ε))) :
    Eof (s.begin (.pass s.buf next)) :=
  h.begin (.refl _) rfl

/-! ## The shutdown -/

theorem countP_reserves_le (call : List (Frame β ε)) : call.countP Frame.reserves ≤ legCount call := by
  refine countP_mono_left ?_
  intro f _ hf
  cases f <;> first | rfl | cases hf

theorem reservedLegs_eq_zero (h : s.legs = 0) : s.reservedLegs = 0 := by
  have hle := Tally.tally_mono (countP_reserves_le (β := β) (ε := ε)) s.calls
  unfold State.legs at h
  unfold State.reservedLegs
  omega

theorem Stream.reservedLegs_eq_zero (h : Stream s) (hk : s.calls[k]? = some (f :: rest))
    (hf : f.isLeg = true) (hf' : f.reserves = false) : s.reservedLegs = 0 := by
  have hrest := h.rest_passive hk
  have hzero : (f :: rest).countP Frame.reserves = 0 := by
    have hle := countP_reserves_le rest
    rw [hrest.legCount] at hle
    simp only [countP_cons, hf', Bool.false_eq_true, if_false]
    omega
  -- without this call there is no leg
  have hnone : (s.goOn k []).legs = 0 := ((h.leg_alone hk hf).2.2.2 []).1
  have hres := SendBuffer.reservedLegs_eq_zero hnone
  have hset := Tally.tally_set (f := List.countP Frame.reserves) hk []
  simp only [State.reservedLegs, State.goOn, countP_nil] at hres hset ⊢
  omega

theorem Stream.clean_shot (h : Stream s) (hres : s.reserved = []) (hfree : s.reservedLegs = 0)
    (hempty : s.buf.held = []) (hheld : sec.buf.held = []) (hmark : sec.buf.eofPending = true)
    (hsound : s.trace.legFailed = false) : (s.shot sec).Clean where
  marked := hmark
  free := hfree
  empty := hheld
  sound := hsound
  sent := by
    have hbytes := h.bytes
    rw [hres, hempty] at hbytes
    simpa [State.shot] using hbytes

theorem Buffer.shuts_iff (b : Buffer β ε) :
    b.shuts = true ↔ b.writeEofDone = false ∧ b.eofPending = true ∧ b.active = false ∧
      b.pendingBytes = 0 ∧ b.inFlightBytes = 0 := by
  simp [Buffer.shuts, and_assoc]

theorem Buffer.Counted.held_eq_nil {b : Buffer β ε} (hb : b.Counted) (hzero : b.pendingBytes = 0) :
    b.held = [] := by
  have hlen : b.held.length = 0 := hb ▸ hzero
  exact eq_nil_of_length_eq_zero hlen

theorem maybeShutdown_fields (x : Errors ε) (b : Buffer β ε) (fault : Option ε) :
    (b.maybeShutdown x fault).eofPending = b.eofPending ∧
      (b.maybeShutdown x fault).writeEofDone = (b.writeEofDone || b.shuts) ∧
      (b.sendError.isSome = true → (b.maybeShutdown x fault).sendError.isSome = true) := by
  unfold Buffer.maybeShutdown
  split
  · rename_i hshuts
    refine ⟨rfl, by simp [hshuts], ?_⟩
    intro herr
    exact isSome_or _ _ herr
  · rename_i hshuts
    exact ⟨rfl, by simp [hshuts], fun herr => herr⟩

theorem goIdle_fields (x : Errors ε) (b : Buffer β ε) (fault : Option ε) :
    (goIdle x b fault).buf.eofPending = b.eofPending ∧
      (goIdle x b fault).buf.writeEofDone = (b.writeEofDone || (goIdle x b fault).shut) ∧
      (b.sendError.isSome = true → (goIdle x b fault).buf.sendError.isSome = true) ∧
      (goIdle x b fault).shut = ({ b with active := false } : Buffer β ε).shuts := by
  have hfields := maybeShutdown_fields x { b with active := false } fault
  unfold goIdle
  dsimp only
  split
  · exact ⟨hfields.1, hfields.2.1, hfields.2.2, rfl⟩
  · exact ⟨hfields.1, hfields.2.1, hfields.2.2, rfl⟩

theorem Eof.goIdle (h : Eof s) (hst : Stream s) (hk : s.calls[k]? = some (f :: rest))
    (hf : f.isLeg = true) (hf' : f.reserves = false) (hchunk : f.chunk = []) (x : Errors ε)
    {b : Buffer β ε} (fault : Option ε) (hb : b.Counted) (hbuf : s.buf.Later b)
    (hheld : b.held = s.buf.held)
    (hsound : s.trace.legFailed = false ∨ ({ b with active := false } : Buffer β ε).shuts = false) :
    Eof (s.enter k rest (goIdle x b fault)) := by
  rcases goIdle_fields x b fault with ⟨hmark, hdone, herr, hshut⟩
  by_cases hs : (SendBuffer.goIdle x b fault).shut = true
  · have hs' := hs
    rw [hshut, Buffer.shuts_iff] at hs'
    rcases hs' with ⟨hnot, hpend, -, hzero, -⟩
    have hempty : b.held = [] := hb.held_eq_nil hzero
    have hsafe : s.trace.legFailed = false := by
      rcases hsound with hsound | hsound
      · exact hsound
      · rw [← hshut, hs] at hsound
        cases hsound
    refine h.enter_shut (hmark.trans hbuf.eofPending) (hbuf.writeEofDone ▸ hnot) (by simp [hdone, hs])
      (fun hfail => herr (hbuf.sendError (h.known hfail))) ?_ hs
    have hres : s.reserved = [] := hchunk ▸ (hst.leg_alone hk hf).2.2.1
    refine hst.clean_shot hres (hst.reservedLegs_eq_zero hk hf hf') (hheld ▸ hempty) ?_ ?_ hsafe
    · rw [(goIdle_spec x b fault).2.2.2.1, hempty]
    · rw [hmark]
      exact hpend
  · have hs' : (SendBuffer.goIdle x b fault).shut = false := by simpa using hs
    refine h.enter (hbuf.trans ⟨hmark, ?_, herr⟩) hs'
    rw [hdone, hs', Bool.or_false]

theorem Eof.endLeg (h : Eof s) (hst : Stream s) (hk : s.calls[k]? = some (f :: rest))
    (hf : f.isLeg = true) (hf' : f.reserves = false) (hchunk : f.chunk = []) (x : Errors ε)
    {b : Buffer β ε} (wait : Bool) (fault : Option ε) (hbuf : s.buf.Later b)
    (hheld : b.held = s.buf.held) (hsound : s.trace.legFailed = false) :
    Eof (s.enter k rest (endLeg x b wait fault)) := by
  unfold SendBuffer.endLeg
  rcases b.takePending_cases with ⟨hnil, heq⟩ | ⟨-, heq⟩
  · rw [heq]
    have hlater : b.Later b.empty := ⟨rfl, rfl, fun herr => herr⟩
    exact h.goIdle hst hk hf hf' hchunk x fault rfl (hbuf.trans hlater)
      (by rw [Buffer.held_empty, ← hheld, hnil]) (Or.inl hsound)
  · rw [heq]
    exact h.enter (hbuf.trans ⟨rfl, rfl, fun herr => herr⟩) rfl

theorem Eof.finish (h : Eof s) (hst : Stream s) (hk : s.calls[k]? = some (.finish :: rest))
    (x : Errors ε) (fault : Option ε) : Eof (s.enter k rest (finishSection x s.buf fault)) := by
  unfold finishSection
  split
  · exact h.enter ⟨rfl, rfl, fun herr => herr⟩ rfl
  · rename_i hnone
    have hsound : s.trace.legFailed = false := by
      by_contra hfail
      have herr := h.known (by simpa using hfail)
      rw [hnone] at herr
      cases herr
    exact h.endLeg hst hk rfl rfl rfl x false fault ⟨rfl, rfl, fun herr => herr⟩ rfl hsound

theorem Eof.fail_later (h : Eof s) {b : Buffer β ε} (failed : Bool) (hbuf : s.buf.Later b)
    (herr : failed = true → b.sendError.isSome = true) : Eof { s.fail failed with buf := b } where
  once := by rw [hbuf.writeEofDone]; exact h.once
  clean := h.clean
  note := by rw [hbuf.eofPending]; exact h.note
  known := by
    intro hfail
    rcases Bool.or_eq_true_iff.1 hfail with hold | hnew
    · exact hbuf.sendError (h.known hold)
    · exact herr hnew

/-- The fields once the completion of a leg has been noted. -/
def Buffer.completed (b : Buffer β ε) (exception : Option ε) : Buffer β ε :=
  { b with inFlightBytes := 0, sendError := exception.or b.sendError }

theorem Buffer.later_completed (b : Buffer β ε) (exception : Option ε) :
    b.Later (b.completed exception) :=
  ⟨rfl, rfl, fun herr => isSome_or exception b.sendError herr⟩

theorem Stream.completed (h : Stream s) (failed : Bool) (exception : Option ε) :
    Stream { s.fail failed with buf := s.buf.completed exception } :=
  ⟨h.shape, h.legs, fun hnone => h.active (Option.or_eq_none_iff.1 hnone).2, h.bytes, h.counted⟩

theorem Eof.complete {exception : Option ε} (h : Eof s) (hst : Stream s)
    (hk : s.calls[k]? = some (.complete exception :: rest)) (x : Errors ε) (fault : Option ε)
    (hsound : ((s.trace.legFailed || exception.isSome) && s.buf.eofDue) = false) :
    Eof ((s.fail exception.isSome).enter k rest (completeSection x s.buf exception fault)) := by
  -- the section works on the fields with the completion noted
  have hnote := h.fail_later exception.isSome (s.buf.later_completed exception) (by
    intro hsome
    cases exception with
    | none => cases hsome
    | some e => rfl)
  have hst' := hst.completed exception.isSome exception
  show Eof (({ s.fail exception.isSome with buf := s.buf.completed exception } : State β ε).enter k
    rest (completeSection x s.buf exception fault))
  unfold completeSection
  dsimp only
  split
  · rename_i hnone
    have hfail : (s.trace.legFailed || exception.isSome) = false := by
      by_contra hfail
      have herr := hnote.known (Bool.not_eq_false _ ▸ hfail)
      have hnone' : (s.buf.completed exception).sendError = none := hnone
      simp [hnone'] at herr
    exact hnote.endLeg hst' hk rfl rfl rfl x true fault (.refl _) rfl hfail
  · refine hnote.goIdle hst' hk rfl rfl rfl x fault hst.counted (.refl _) rfl ?_
    rcases Bool.and_eq_false_iff.1 hsound with hsound | hdue
    · exact Or.inl hsound
    · refine Or.inr ?_
      simpa [Buffer.shuts, Buffer.eofDue, Buffer.completed] using hdue

theorem complete_shuts {exception : Option ε} (h : Eof s) (x : Errors ε) (fault : Option ε)
    (hfail : (s.trace.legFailed || exception.isSome) = true) (hdue : s.buf.eofDue = true) :
    ¬ HalfCloses ((s.fail exception.isSome).enter k rest
      (completeSection x s.buf exception fault)) := by
  have herr : (exception.or s.buf.sendError).isSome = true := by
    rcases Bool.or_eq_true_iff.1 hfail with hold | hnew
    · exact isSome_or _ _ (h.known hold)
    · cases exception with
      | none => cases hnew
      | some e => rfl
  have hsec : completeSection x s.buf exception fault =
      goIdle x (s.buf.completed exception) fault := by
    unfold completeSection
    dsimp only
    split
    · rename_i hnone
      rw [hnone] at herr
      cases herr
    · rfl
  have hshut : (goIdle x (s.buf.completed exception) fault).shut = true := by
    rw [(goIdle_fields x _ fault).2.2.2]
    simpa [Buffer.shuts, Buffer.eofDue, Buffer.completed] using hdue
  rw [hsec]
  intro hhalf
  have hmem : (s.fail exception.isSome).shot (goIdle x (s.buf.completed exception) fault) ∈
      ((s.fail exception.isSome).enter k rest
        (goIdle x (s.buf.completed exception) fault)).trace.shutdowns := by
    unfold State.enter
    rw [hshut]
    exact mem_cons_self
  have hclean := (hhalf.2.1 _ hmem).sound
  have hfail' : (s.trace.legFailed || exception.isSome) = false := hclean
  rw [hfail] at hfail'
  cases hfail'

/-! ## The calls -/

theorem Eof.write (h : Eof s) (x : Errors ε) (data : List β) : Eof (call x s (.write data)) := by
  cases data with
  | nil => exact h
  | cons d data =>
    have hbegin : Eof (s.begin (writeSection x s.buf (d :: data))) := by
      unfold writeSection
      split
      · exact h.begin_pass _
      · split
        · exact h.begin_pass _
        · split
          · exact h.begin_pass _
          · exact h.begin ((s.buf.later_appendPending (d :: data)).trans
              (Buffer.later_reserveLeg _ false)) rfl
    simp only [SendBuffer.call]
    split
    · rename_i hopen
      -- the write is accepted before the end of the stream
      have hmark : (s.begin (writeSection x s.buf (d :: data))).buf.eofPending = false := by
        have hsec : writeSection x s.buf (d :: data) =
            .pass ((s.buf.appendPending (d :: data)).reserveLeg false).1
              (.ok (submitFrames true ((s.buf.appendPending (d :: data)).reserveLeg false).2)) := by
          simp [writeSection, hopen.1, hopen.2.1, hopen.2.2]
        rw [hsec]
        show ((s.buf.appendPending (d :: data)).reserveLeg false).1.eofPending = false
        rw [(Buffer.later_reserveLeg _ false).eofPending,
          (s.buf.later_appendPending (d :: data)).eofPending, hopen.2.2]
      refine ⟨hbegin.once, hbegin.clean, ?_, hbegin.known⟩
      have hnote := hbegin.note
      rw [hmark] at hnote
      show (s.begin (writeSection x s.buf (d :: data))).trace.atEof = _
      rw [hnote]
      show none = if (s.begin (writeSection x s.buf (d :: data))).buf.eofPending then _ else none
      rw [hmark]
      rfl
    · exact hbegin

theorem Eof.mark (h : Eof s) :
    Eof ({ s with
      buf := s.buf.markEof
      trace := { s.trace with atEof := some s.trace.accepted } } : State β ε) :=
  ⟨h.once, h.clean, rfl, h.known⟩

theorem Eof.begin_shutdown (h : Eof s) (hst : Stream s) (herr : s.buf.sendError = none)
    (hmark : s.buf.eofPending = true) (x : Errors ε) (fault : Option ε) :
    Eof (s.begin (shutdownSection x s.buf fault)) := by
  rcases maybeShutdown_fields x s.buf fault with ⟨hpend, hdone, hkeep⟩
  have hsound : s.trace.legFailed = false := by
    by_contra hfail
    have hsome := h.known (by simpa using hfail)
    rw [herr] at hsome
    cases hsome
  by_cases hs : s.buf.shuts = true
  · rcases s.buf.shuts_iff.1 hs with ⟨hnot, -, hidle, hzero, -⟩
    have hempty := hst.counted.held_eq_nil hzero
    rcases hst.idle herr hidle with ⟨hlegs, hres⟩
    refine (h.spawn []).enter_shut hpend hnot ?_ ?_ ?_ hs
    · show (s.buf.maybeShutdown x fault).writeEofDone = true
      rw [hdone, hs, Bool.or_true]
    · intro hfail
      have hfail' : s.trace.legFailed = true := hfail
      rw [hsound] at hfail'
      cases hfail'
    · have hst' : Stream (s.spawn []) := 
        hst.spawn (n := s.awaiting) (m := s.silent) passive_nil rfl rfl
      have hlegs' : (s.spawn []).legs = 0 := by
        rw [← hlegs]
        simp [State.legs, State.spawn]
      refine hst'.clean_shot ?_ (SendBuffer.reservedLegs_eq_zero hlegs') hempty ?_ ?_ hsound
      · rw [← hres]
        simp [State.reserved, State.spawn]
      · show (s.buf.maybeShutdown x fault).held = []
        rw [Buffer.held_maybeShutdown, hempty]
      · show (s.buf.maybeShutdown x fault).eofPending = true
        rw [hpend, hmark]
  · refine h.begin ⟨hpend, ?_, hkeep⟩ (by simpa [shutdownSection] using hs)
    show (s.buf.maybeShutdown x fault).writeEofDone = s.buf.writeEofDone
    simp [hdone, hs]

theorem Eof.writeEof (h : Eof s) (hst : Stream s) (x : Errors ε) (fault : Option ε) :
    Eof (call x s (.writeEof fault)) := by
  simp only [SendBuffer.call]
  rcases writeEofSection_cases x s.buf fault with
    ⟨next, -, heq⟩ | ⟨-, herr, hopen, heq | ⟨-, heq⟩⟩
  · rw [heq, if_neg (by rintro ⟨hf, ht⟩; exact absurd (hf.symm.trans ht) (by simp))]
    exact h.begin_pass next
  · have hst' : Stream ({ s with
        buf := s.buf.markEof
        trace := { s.trace with atEof := some s.trace.accepted } } : State β ε) :=
      ⟨hst.shape, hst.legs, hst.active, hst.bytes, hst.counted⟩
    have hbegin := h.mark.begin_shutdown hst' herr rfl x fault
    have hpend := (maybeShutdown_fields x s.buf.markEof fault).1
    rw [heq, if_pos ⟨hopen, hpend⟩]
    -- the order of the two notes does not matter
    unfold State.begin State.enter State.spawn at hbegin ⊢
    dsimp only at hbegin ⊢
    cases hs : (shutdownSection x s.buf.markEof fault).shut with
    | true =>
      have hs' : (shutdownSection x ({ s with
        buf := s.buf.markEof
        trace := { s.trace with atEof := some s.trace.accepted } } : State β ε).buf fault).shut =
          true := hs
      rw [hs'] at hbegin
      exact hbegin
    | false =>
      have hs' : (shutdownSection x ({ s with
        buf := s.buf.markEof
        trace := { s.trace with atEof := some s.trace.accepted } } : State β ε).buf fault).shut =
          false := hs
      rw [hs'] at hbegin
      exact hbegin
  · rw [heq, if_pos ⟨hopen, rfl⟩]
    have hlater : s.buf.markEof.Later s.buf.markEof.lease := ⟨rfl, rfl, fun herr => herr⟩
    let sec : Section β ε := ⟨s.buf.markEof.lease, true, false, .ok [.submit s.buf.held false]⟩
    have hshut : sec.shut = false := rfl
    exact h.mark.begin hlater hshut

theorem later_close (b : Buffer β ε) : b.Later (closeSection b).buf := by
  rw [closeSection_buf]
  exact ⟨rfl, rfl, fun herr => herr⟩

theorem Eof.call (h : Eof s) (hst : Stream s) (x : Errors ε) (op : Op β ε) : Eof (call x s op) := by
  cases op with
  | write data => exact h.write x data
  | drain =>
    simp only [SendBuffer.call]
    unfold drainSection
    split
    · exact h.begin_pass _
    · exact h.begin (s.buf.later_reserveLeg true) rfl
  | flush =>
    simp only [SendBuffer.call]
    unfold flushSection
    split
    · exact h.begin_pass _
    · exact h.begin (s.buf.later_reserveLeg true) rfl
  | writeEof fault => exact h.writeEof hst x fault
  | close =>
    refine h.begin (later_close s.buf) ?_
    unfold closeSection
    split <;> rfl
  | setLimits high low =>
    simp only [SendBuffer.call]
    unfold limitsSection
    dsimp only
    split
    · exact h.begin_pass _
    · exact h.begin ⟨rfl, rfl, fun herr => herr⟩ rfl
  | stealPending =>
    refine h.congr ?_ rfl rfl rfl rfl
    simp only [SendBuffer.call]
    split
    · exact .refl _
    · exact ⟨rfl, rfl, fun herr => herr⟩
  | waitClosed =>
    simp only [SendBuffer.call]
    split
    · exact h
    · refine h.begin (later_close s.buf) ?_
      simp only [closeSection]
      split <;> rfl

/-! ## The steps -/

theorem later_handler (b : Buffer β ε) (e : ε) : b.Later (handlerSection b e).buf := by
  refine ⟨rfl, rfl, ?_⟩
  intro herr
  simp only [handlerSection]
  cases hb : b.sendError with
  | none => rfl
  | some e' => rfl

theorem Eof.check (h : Eof s) (w : Wait) : Eof (s.enter k rest (checkSection s.buf w)) := by
  unfold checkSection
  split
  · exact h.enter (.refl _) rfl
  · exact h.enter (.refl _) rfl

theorem Eof.run {x : Errors ε} {reply : Reply ε} {s' : State β ε} (h : Eof s) (hst : Stream s)
    (hk : s.calls[k]? = some (f :: rest)) (hc : CompletesSound s (.run k reply))
    (hs : run x s k rest reply f = some s') : Eof s' := by
  have hsteal : Eof (s.enter k rest (stealSection s.buf)) := by
    unfold stealSection
    split
    · exact h.enter (.refl _) rfl
    · split
      · exact h.enter (.refl _) rfl
      · exact h.enter ⟨rfl, rfl, fun herr => herr⟩ rfl
  have harm : Eof (s.enter k rest (armSection s.buf)) := by
    unfold armSection
    split
    · exact h.enter (.refl _) rfl
    · split
      · exact h.enter (.refl _) rfl
      · exact h.enter ⟨rfl, rfl, fun herr => herr⟩ rfl
  simp only [CompletesSound, hk] at hc
  cases ran_of_run hs with
  | sent | submitted | eager | refused => exact h.congr (.refl _) rfl rfl rfl rfl
  | failed chunk e =>
    refine h.enter_failed ?_ rfl rfl
    simp only [failedSection, Buffer.prependPending]
    split <;> exact ⟨rfl, rfl, fun _ => rfl⟩
  | finish => exact h.finish hst hk x reply.fault
  | returned | raised | done | sendRaises => exact h.goOn _
  | complete exception => exact h.complete hst hk x reply.fault hc
  | handled e next hnext => exact h.enter (later_handler s.buf e) rfl
  | reported e => exact h.enter (later_handler s.buf e) rfl
  | fireForget e =>
    have herr : (s.buf.sendError.or (some e)).isSome = true := isSome_or _ _ rfl
    exact h.enter_failed ⟨rfl, rfl, fun _ => herr⟩ rfl herr
  | closeRaises writer e => exact h.shut.goOn _
  | closes writer => exact h.shut.congr (.refl _) rfl rfl rfl rfl
  | closeQuiet => exact h.shut.goOn _
  | check w => exact h.check w
  | woken w => exact h.check w
  | steal => exact hsteal.congr (.refl _) rfl rfl rfl rfl
  | armed hnone => exact harm.congr (.refl _) rfl rfl rfl rfl
  | armFails herr => exact harm
  | sendCloses chunk => exact h.shut.congr (.refl _) rfl rfl rfl rfl

theorem Eof.step {x : Errors ε} {a : Act β ε} {s' : State β ε} (h : Eof s) (hst : Stream s)
    (hc : CompletesSound s a) (hs : step x s a = some s') : Eof s' := by
  cases a with
  | call op =>
    cases hs
    exact h.call hst x op
  | completed exception =>
    simp only [SendBuffer.step] at hs
    split at hs
    · cases hs
      exact h.congr (.refl _) rfl rfl rfl rfl
    · cases hs
  | sendFailed e =>
    simp only [SendBuffer.step] at hs
    split at hs
    · cases hs
      exact h.congr (.refl _) rfl rfl rfl rfl
    · cases hs
  | run k reply =>
    simp only [SendBuffer.step] at hs
    split at hs
    · rename_i f rest hk
      exact h.run hst hk hc hs
    · cases hs
  | throw k =>
    simp only [SendBuffer.step] at hs
    split at hs
    · cases hs
      exact h.goOn _
    · cases hs

end Rules

/-- In every run: the write side is shut down at most once, after `write_eof`, when no leg is
reserved, no byte is pending, every accepted byte has been handed over and no leg is known to have
failed, and nothing is accepted after `write_eof`; if and only if no leg completes with an error, or
after one, while the shutdown is due. -/
theorem half_closes_iff_completes_sound (x : Errors ε) (highWater lowWater : Int) (minWrite : Nat)
    (acts : List (Act β ε)) :
    Always (step x) HalfCloses (init highWater lowWater minWrite) acts ↔
      Along (step x) CompletesSound (init highWater lowWater minWrite) acts := by
  refine always_iff_along (I := fun s => Stream s ∧ Eof s) ?_ ?_ ?_ acts _
    ⟨Stream.init highWater lowWater minWrite, Eof.init highWater lowWater minWrite⟩
  · intro s h
    exact h.2.halfCloses
  · intro s a s' h hc hs
    exact ⟨h.1.step hs, h.2.step h.1 hc hs⟩
  · intro s a s' h hc hs
    unfold CompletesSound at hc
    split at hc
    · rename_i k reply
      simp only [step] at hs
      split at hc
      · rename_i exception rest hk
        rw [hk] at hs
        cases hs
        have hbad : (s.trace.legFailed || exception.isSome) = true ∧ s.buf.eofDue = true := by
          simpa using hc
        exact complete_shuts h.2 x reply.fault hbad.1 hbad.2
      · exact absurd trivial hc
    · exact absurd trivial hc

/-- The leg under way fails after `write_eof`: its completion records the error and shuts down the
write side all the same. -/
theorem failed_leg_ends_stream :
    ¬ ∀ acts : List (Act Nat Nat),
      Always (step ⟨0, 1, 2, fun _ => true, fun _ => false⟩) HalfCloses (init 10 2 1) acts := by
  intro hall
  have hrun := hall
    [.call (.write [1, 2]), .run 0 .ok, .call (.writeEof none), .completed (some 7), .run 2 .ok]
  revert hrun
  decide

end Pytealet.Io.SendBuffer
