import Pytealet.Io.SendStream

/-!
# SendStreamRuns — every step of a send buffer keeps the stream

Each call, each critical section and each step between them keeps the invariant `Stream`, and so
does every run.
-/

namespace Pytealet.Io.SendBuffer

open Lib Lib.Transition List

variable {β ε : Type*}

section Rules

variable {s : State β ε} {k : Nat} {f : Frame β ε} {rest stack : List (Frame β ε)}
  {sec : Section β ε}

/-! ## The sections -/

theorem reserve_frames {b : Buffer β ε} (hb : b.Counted) (force wait : Bool)
    (tl : List (Frame β ε)) (htl : legCount tl = 0) :
    ((legCount (submitFrames wait (b.reserveLeg force).2 ++ tl) = 0 ∧
          (b.reserveLeg force).1 = b) ∨
        (legCount (submitFrames wait (b.reserveLeg force).2 ++ tl) = 1 ∧ b.sendError = none ∧
          b.active = false ∧ (b.reserveLeg force).1.active = true)) ∧
      chunkOf (submitFrames wait (b.reserveLeg force).2 ++ tl) ++ (b.reserveLeg force).1.held =
        b.held ∧
      (b.reserveLeg force).1.Counted := by
  -- no leg, or the whole backlog in one
  rcases b.reserveLeg_cases force with heq | ⟨hact, herr, heq⟩
  · rw [heq]
    exact ⟨.inl ⟨by simp [submitFrames, htl], rfl⟩,
      by simp [submitFrames, chunkOf_eq_nil htl], hb⟩
  · rw [heq]
    refine ⟨.inr ⟨by simp [submitFrames, htl, Frame.isLeg], herr, hact, rfl⟩, ?_, rfl⟩
    simp [submitFrames, chunkOf_eq_nil htl, Frame.chunk]

theorem Stream.begin_pass (h : Stream s) {next : Except ε (List (Frame β ε))}
    (hsec : Passive (Section.pass s.buf next).frames.tail)
    (hle : legCount (Section.pass s.buf next).frames = 0) :
    Stream (s.begin (Section.pass s.buf next)) :=
  h.begin_quiet hsec hle (fun hnone => ⟨hnone, rfl⟩) rfl h.counted

theorem Stream.begin_error (h : Stream s) (e : ε) :
    Stream (s.begin (Section.pass s.buf (.error e))) :=
  h.begin_pass passive_nil rfl

theorem passive_submit (wait : Bool) (r : Option (List β)) {tl : List (Frame β ε)}
    (htl : Passive tl) : Passive (submitFrames wait r ++ tl).tail := by
  cases r with
  | none =>
    intro f hf
    exact htl f (mem_of_mem_tail hf)
  | some chunk => exact htl

theorem Stream.write (h : Stream s) (x : Errors ε) (data : List β) :
    Stream (call x s (.write data)) := by
  cases data with
  | nil => exact h
  | cons d data =>
    unfold call
    dsimp only
    cases herr : s.buf.sendError with
    | some e =>
      simpa [writeSection, herr] using h.begin_error e
    | none =>
      cases hcl : s.buf.closed with
      | true =>
        simpa [writeSection, herr, hcl] using h.begin_error x.closed
      | false =>
        cases heof : s.buf.eofPending with
        | true =>
          simpa [writeSection, herr, hcl, heof] using h.begin_error x.afterEof
        | false =>
          simp only [and_self, if_true]
          -- the bytes join the backlog, which may then become a leg
          have hb : (s.buf.appendPending (d :: data)).Counted :=
            Buffer.counted_appendPending _ _
          have hfields : (s.buf.appendPending (d :: data)).sendError = s.buf.sendError ∧
              (s.buf.appendPending (d :: data)).active = s.buf.active := by
            unfold Buffer.appendPending
            cases s.buf.pending <;> exact ⟨rfl, rfl⟩
          have hframes := reserve_frames hb false true [] rfl
          rw [append_nil] at hframes
          rcases hframes with ⟨hleg, hbytes, hcount⟩
          have hsec : writeSection x s.buf (d :: data) =
              .pass ((s.buf.appendPending (d :: data)).reserveLeg false).1
                (.ok (submitFrames true
                  ((s.buf.appendPending (d :: data)).reserveLeg false).2)) := by
            simp [writeSection, herr, hcl, heof]
          rw [hsec]
          refine h.begin _ ?_ ?_ ?_ hcount
          · have hp := passive_submit (ε := ε) true
              ((s.buf.appendPending (d :: data)).reserveLeg false).2 passive_nil
            rwa [append_nil] at hp
          · rcases hleg with ⟨hzero, heq⟩ | ⟨hone, herr', hact, hact'⟩
            · refine .inl ⟨hzero, ?_⟩
              intro _
              refine ⟨herr, ?_⟩
              show ((s.buf.appendPending (d :: data)).reserveLeg false).1.active = _
              rw [heq, hfields.2]
            · exact .inr ⟨hone, herr, hfields.2 ▸ hact, hact'⟩
          · exact hbytes.trans (Buffer.held_appendPending _ _)

theorem Stream.reserve (h : Stream s) (herr : s.buf.sendError = none) {tl : List (Frame β ε)}
    (htl : Passive tl) :
    Stream (s.begin (.pass (s.buf.reserveLeg true).1
      (.ok (submitFrames false (s.buf.reserveLeg true).2 ++ tl)))) := by
  rcases reserve_frames h.counted true false tl htl.legCount with ⟨hleg, hbytes, hcount⟩
  have hb : Stream ((s.begin (.pass (s.buf.reserveLeg true).1
      (.ok (submitFrames false (s.buf.reserveLeg true).2 ++ tl)))).accept []) := by
    refine h.begin [] (passive_submit _ _ htl) ?_
      (by simpa [Section.pass, Section.frames] using hbytes) hcount
    rcases hleg with ⟨hzero, heq⟩ | ⟨hone, -, hact, hact'⟩
    · refine .inl ⟨hzero, ?_⟩
      intro _
      refine ⟨herr, ?_⟩
      show (s.buf.reserveLeg true).1.active = _
      rw [heq]
    · exact .inr ⟨hone, herr, hact, hact'⟩
  rwa [accept_nil] at hb

theorem Stream.drain (h : Stream s) (x : Errors ε) : Stream (call x s .drain) := by
  unfold call drainSection
  cases herr : s.buf.sendError with
  | some e => exact h.begin_error e
  | none =>
    refine h.reserve herr ?_
    intro f hf
    split at hf
    · have heq : f = .check .drain := by simpa using hf
      subst heq
      rfl
    · cases hf

theorem Stream.flush (h : Stream s) (x : Errors ε) : Stream (call x s .flush) := by
  unfold call flushSection
  cases herr : s.buf.sendError with
  | some e => exact h.begin_error e
  | none =>
    refine h.reserve herr ?_
    intro f hf
    have heq : f = .check .flush := by simpa using hf
    subst heq
    rfl

theorem Stream.note (h : Stream s) (bytes : Option (List β)) :
    Stream { s with trace := { s.trace with atEof := bytes } } :=
  ⟨h.shape, h.legs, h.active, h.bytes, h.counted⟩

theorem writeEofSection_cases (x : Errors ε) (b : Buffer β ε) (fault : Option ε) :
    (∃ next, (next = .ok [] ∨ ∃ e, next = .error e) ∧ writeEofSection x b fault = .pass b next) ∨
      (b.closed = false ∧ b.sendError = none ∧ b.eofPending = false ∧
        (writeEofSection x b fault = shutdownSection x b.markEof fault ∨
          (b.active = false ∧ writeEofSection x b fault =
            { buf := b.markEof.lease
              notify := true
              shut := false
              next := .ok [.submit b.held false] }))) := by
  unfold writeEofSection
  split
  · exact .inl ⟨_, .inr ⟨_, rfl⟩, rfl⟩
  · rename_i hcl
    split
    · exact .inl ⟨_, .inr ⟨_, rfl⟩, rfl⟩
    · rename_i herr
      split
      · exact .inl ⟨_, .inl rfl, rfl⟩
      · rename_i heof
        refine .inr ⟨by simpa using hcl, herr, by simpa using heof, ?_⟩
        rcases b.markEof.reserveLeg_cases true with heq | ⟨hact, -, heq⟩
        · rw [heq]
          exact .inl rfl
        · rw [heq]
          exact .inr ⟨hact, rfl⟩

theorem shutdownSection_frames (x : Errors ε) (b : Buffer β ε) (fault : Option ε) :
    (shutdownSection x b fault).frames = [] := by
  unfold shutdownSection Section.frames
  cases b.shutdownError fault <;> rfl

theorem Stream.writeEof (h : Stream s) (x : Errors ε) (fault : Option ε) :
    Stream (call x s (.writeEof fault)) := by
  have hbegin : Stream (s.begin (writeEofSection x s.buf fault)) := by
    rcases writeEofSection_cases x s.buf fault with
      ⟨next, rfl | ⟨e, rfl⟩, heq⟩ | ⟨-, herr, -, heq | ⟨hact, heq⟩⟩
    · rw [heq]
      exact h.begin_pass passive_nil rfl
    · rw [heq]
      exact h.begin_error e
    · rw [heq]
      have hframes := shutdownSection_frames x s.buf.markEof fault
      refine h.begin_quiet (by rw [hframes]; exact passive_nil) (by rw [hframes]; rfl) ?_ ?_ ?_
      · intro _
        exact ⟨herr, Buffer.active_maybeShutdown _ _ _⟩
      · exact Buffer.held_maybeShutdown _ _ _
      · exact Buffer.counted_maybeShutdown h.counted
    · rw [heq]
      have hb : Stream ((s.begin
          { buf := s.buf.markEof.lease
            notify := true
            shut := false
            next := .ok [.submit s.buf.held false] }).accept []) :=
        h.begin [] passive_nil (.inr ⟨rfl, herr, hact, rfl⟩)
          (by simp [Section.frames, Frame.chunk]) rfl
      rw [accept_nil] at hb
      exact hb
  unfold call
  dsimp only
  split
  · exact hbegin.note _
  · exact hbegin

theorem closeSection_buf (b : Buffer β ε) :
    (closeSection b).buf = { b with closed := true } := by
  unfold closeSection
  split
  · rename_i hcl
    cases b
    simp_all [Section.pass]
  · rfl

theorem Stream.close (h : Stream s) (x : Errors ε) : Stream (call x s .close) := by
  have hframes : (closeSection s.buf).frames = [] := by
    unfold closeSection
    split <;> rfl
  refine h.begin_quiet (by rw [hframes]; exact passive_nil) (by rw [hframes]; rfl) ?_ ?_ ?_
  · rw [closeSection_buf]
    exact fun hnone => ⟨hnone, rfl⟩
  · rw [closeSection_buf]
    rfl
  · rw [closeSection_buf]
    exact h.counted

theorem Stream.waitClosed (h : Stream s) (x : Errors ε) : Stream (call x s .waitClosed) := by
  simp only [SendBuffer.call]
  split
  · exact h
  · refine h.begin_quiet passive_nil rfl ?_ ?_ ?_
    · rw [closeSection_buf]
      exact fun hnone => ⟨hnone, rfl⟩
    · rw [closeSection_buf]
      rfl
    · rw [closeSection_buf]
      exact h.counted

theorem Stream.setLimits (h : Stream s) (x : Errors ε) (high low : Option Int) :
    Stream (call x s (.setLimits high low)) := by
  unfold call limitsSection
  dsimp only
  split
  · exact h.begin_error _
  · exact h.begin_quiet passive_nil rfl (fun hnone => ⟨hnone, rfl⟩) rfl h.counted

theorem Stream.steal (h : Stream s) {b : Buffer β ε}
    (hb : b = if s.buf.sendError.isSome = true ∨ s.buf.active = true then s.buf else s.buf.empty) :
    Stream { s.handOver (stolen s.buf) with buf := b } := by
  subst hb
  unfold stolen
  split
  · have hnil : s.handOver [] = s := by simp [State.handOver]
    rw [hnil]
    exact h
  · rename_i hidle
    rw [not_or] at hidle
    have herr : s.buf.sendError = none := by simpa using hidle.1
    have hact : s.buf.active = false := by simpa using hidle.2
    have hres := (h.idle herr hact).2
    refine ⟨h.shape, h.legs, h.active, ?_, rfl⟩
    show (s.trace.handedOver ++ s.buf.held) ++ s.reserved ++ [] = s.trace.accepted
    rw [← h.bytes, hres]
    simp

theorem Stream.call (h : Stream s) (x : Errors ε) (op : Op β ε) : Stream (call x s op) := by
  cases op with
  | write data => exact h.write x data
  | drain => exact h.drain x
  | flush => exact h.flush x
  | writeEof fault => exact h.writeEof x fault
  | close => exact h.close x
  | setLimits high low => exact h.setLimits x high low
  | stealPending => exact h.steal rfl
  | waitClosed => exact h.waitClosed x

/-! ## The steps of a call -/

theorem Stream.fail (h : Stream s) (failed : Bool) : Stream (s.fail failed) :=
  ⟨h.shape, h.legs, h.active, h.bytes, h.counted⟩

theorem Stream.shut (h : Stream s) : Stream s.shut := by
  unfold State.shut
  split
  · exact ⟨h.shape, h.legs, h.active, h.bytes, h.counted⟩
  · exact h

theorem shut_calls (s : State β ε) : s.shut.calls = s.calls := by
  unfold State.shut
  split <;> rfl

theorem Stream.submitted {chunk : List β} {wait : Bool} (h : Stream s)
    (hk : s.calls[k]? = some (.submit chunk wait :: rest)) (hstack : legCount stack = 1)
    (hshape : Passive stack.tail) (hchunk : chunkOf stack = []) :
    Stream ((s.goOn k stack).handOver chunk) := by
  rcases h.leg_alone hk rfl with ⟨-, hone, hres, hgo⟩
  have hlegs : (s.goOn k stack).legs = s.legs := by rw [(hgo stack).1, hstack, hone]
  refine ⟨shape_set h.shape hshape, hlegs ▸ h.legs, ?_, ?_, h.counted⟩
  · show s.buf.sendError = none → (s.buf.active = true ↔ (s.goOn k stack).legs = 1)
    rw [hlegs]
    exact h.active
  · show (s.trace.handedOver ++ chunk) ++ (s.goOn k stack).reserved ++ s.buf.held = s.trace.accepted
    rw [(hgo stack).2, hchunk, ← h.bytes, hres]
    simp [Frame.chunk]

theorem Stream.submitted_later {chunk : List β} {wait : Bool} {n : Nat} (h : Stream s)
    (hk : s.calls[k]? = some (.submit chunk wait :: rest)) (hn : n = s.awaiting + 1) :
    Stream { (s.goOn k rest).handOver chunk with awaiting := n } := by
  have hrest := h.rest_passive hk
  rcases h.leg_alone hk rfl with ⟨hawait, hone, hres, hgo⟩
  -- the leg is off the stack, and awaits its completion
  have hlegs : ({ (s.goOn k rest).handOver chunk with awaiting := n } : State β ε).legs = s.legs := by
    have h0 := (hgo rest).1
    simp only [State.legs, State.goOn, State.handOver, hrest.legCount] at h0 hone ⊢
    omega
  have hshape : Passive rest.tail := fun f hf => hrest f (mem_of_mem_tail hf)
  refine ⟨shape_set h.shape hshape, hlegs ▸ h.legs, ?_, ?_, h.counted⟩
  · rw [hlegs]
    exact h.active
  · show (s.trace.handedOver ++ chunk) ++ (s.goOn k rest).reserved ++ s.buf.held = s.trace.accepted
    rw [(hgo rest).2, chunkOf_eq_nil hrest.legCount, ← h.bytes, hres]
    simp [Frame.chunk]

theorem goIdle_spec (x : Errors ε) (b : Buffer β ε) (fault : Option ε) :
    legCount (goIdle x b fault).frames = 0 ∧ Passive (goIdle x b fault).frames.tail ∧
      (goIdle x b fault).buf.active = false ∧ (goIdle x b fault).buf.held = b.held ∧
      (b.Counted → (goIdle x b fault).buf.Counted) := by
  unfold goIdle
  dsimp only
  split
  · exact ⟨rfl, passive_nil, Buffer.active_maybeShutdown _ _ _, Buffer.held_maybeShutdown _ _ _,
      fun hb => Buffer.counted_maybeShutdown hb⟩
  · refine ⟨?_, ?_, Buffer.active_maybeShutdown _ _ _, Buffer.held_maybeShutdown _ _ _,
      fun hb => Buffer.counted_maybeShutdown (b := { b with active := false }) hb⟩
    · unfold Section.frames
      dsimp only
      split <;> rfl
    · unfold Section.frames
      dsimp only
      split <;> exact passive_nil

theorem Stream.goIdle (h : Stream s) (hk : s.calls[k]? = some (f :: rest)) (hf : f.isLeg = true)
    (hchunk : f.chunk = []) (x : Errors ε) {b : Buffer β ε} (fault : Option ε) (hb : b.Counted)
    (hheld : b.held = s.buf.held) : Stream (s.enter k rest (goIdle x b fault)) := by
  rcases goIdle_spec x b fault with ⟨hlegs, hpass, hact, hheld', hcount⟩
  refine h.enter_leg hk hf hpass (hlegs ▸ Nat.zero_le 1) ?_ ?_ (hcount hb)
  · intro _
    rw [hact, hlegs]
    simp
  · rw [chunkOf_eq_nil hlegs, hheld', hheld, hchunk]

theorem Stream.endLeg (h : Stream s) (hk : s.calls[k]? = some (f :: rest)) (hf : f.isLeg = true)
    (hchunk : f.chunk = []) (x : Errors ε) {b : Buffer β ε} (wait : Bool) (fault : Option ε)
    (hheld : b.held = s.buf.held)
    (hact : b.sendError = none → b.active = true) :
    Stream (s.enter k rest (endLeg x b wait fault)) := by
  unfold SendBuffer.endLeg
  rcases b.takePending_cases with ⟨hnil, heq⟩ | ⟨-, heq⟩
  · rw [heq]
    exact h.goIdle hk hf hchunk x fault rfl (by rw [Buffer.held_empty, ← hheld, hnil])
  · rw [heq]
    refine h.enter_leg hk hf passive_nil ?_ ?_ ?_ rfl
    · simp [Section.frames, Frame.isLeg]
    · intro hnone
      have hactive : b.active = true := hact hnone
      simp [Section.frames, Frame.isLeg, Buffer.empty, hactive]
    · have hbytes : chunkOf ([.submit b.held wait] : List (Frame β ε)) ++ [] =
          f.chunk ++ s.buf.held := by
        rw [hchunk, ← hheld]
        simp [Frame.chunk]
      exact hbytes

theorem Stream.active_of_leg (h : Stream s) (hk : s.calls[k]? = some (f :: rest))
    (hf : f.isLeg = true) (herr : s.buf.sendError = none) : s.buf.active = true :=
  (h.active herr).2 (h.leg_alone hk hf).2.1

theorem Stream.finish (h : Stream s) (hk : s.calls[k]? = some (.finish :: rest)) (x : Errors ε)
    (fault : Option ε) : Stream (s.enter k rest (finishSection x s.buf fault)) := by
  unfold finishSection
  split
  · rename_i e herr
    refine h.enter_leg hk rfl passive_nil (Nat.zero_le 1) ?_ rfl h.counted
    intro hnone
    exact absurd (herr.symm.trans hnone) (by simp)
  · rename_i herr
    exact h.endLeg hk rfl rfl x false fault rfl (fun _ => h.active_of_leg hk rfl herr)

theorem Stream.complete {exception : Option ε} (h : Stream s)
    (hk : s.calls[k]? = some (.complete exception :: rest)) (x : Errors ε) (fault : Option ε) :
    Stream (s.enter k rest (completeSection x s.buf exception fault)) := by
  unfold completeSection
  dsimp only
  split
  · rename_i hnone
    have herr : s.buf.sendError = none := (Option.or_eq_none_iff.1 hnone).2
    exact h.endLeg hk rfl rfl x true fault rfl (fun _ => h.active_of_leg hk rfl herr)
  · exact h.goIdle hk rfl rfl x fault h.counted rfl

theorem Stream.failed {chunk : List β} {e : ε} (h : Stream s)
    (hk : s.calls[k]? = some (.failed chunk e :: rest)) :
    Stream (s.enter k rest (failedSection s.buf chunk e)) := by
  refine h.enter_leg hk rfl passive_nil (Nat.zero_le 1) ?_ ?_ ?_
  · intro hnone
    cases hnone
  · have hheld := Buffer.held_prependPending s.buf chunk
    exact hheld
  · exact Buffer.counted_prependPending s.buf chunk

theorem Stream.known {e : ε} (h : Stream s) (hk : s.calls[k]? = some (f :: rest))
    (hf : f.isLeg = false) (hsec : Passive sec.frames.tail) (hle : legCount sec.frames = 0)
    (herr : sec.buf.sendError = some e) (hbytes : sec.buf.held = s.buf.held)
    (hcount : sec.buf.Counted) : Stream (s.enter k rest sec) := by
  refine h.enter_other hk hf hsec hle ?_ hbytes hcount
  intro hnone
  rw [herr] at hnone
  cases hnone

theorem Stream.check (h : Stream s) (hk : s.calls[k]? = some (f :: rest)) (hf : f.isLeg = false)
    (w : Wait) : Stream (s.enter k rest (checkSection s.buf w)) := by
  unfold checkSection
  split
  · exact h.enter_other hk hf passive_nil rfl (fun hnone => ⟨hnone, rfl⟩) rfl h.counted
  · refine h.enter_other hk hf ?_ ?_ (fun hnone => ⟨hnone, rfl⟩) rfl h.counted
    · unfold Section.frames Section.pass
      dsimp only
      split <;> exact passive_nil
    · unfold Section.frames Section.pass
      dsimp only
      split <;> rfl

theorem Stream.arm (h : Stream s) (hk : s.calls[k]? = some (.arm :: rest)) :
    Stream (s.enter k rest (armSection s.buf)) := by
  unfold armSection
  split
  · exact h.enter_other hk rfl passive_nil rfl (fun hnone => ⟨hnone, rfl⟩) rfl h.counted
  · split
    · exact h.enter_other hk rfl passive_nil rfl (fun hnone => ⟨hnone, rfl⟩) rfl h.counted
    · exact h.enter_other hk rfl passive_nil rfl (fun hnone => ⟨hnone, rfl⟩) rfl h.counted

theorem Stream.stealFrame (h : Stream s) (hk : s.calls[k]? = some (.steal :: rest)) :
    Stream ((s.enter k rest (stealSection s.buf)).handOver (stolen s.buf)) := by
  unfold stealSection
  split
  · rename_i e herr
    have hstolen : stolen s.buf = [] := by simp [stolen, herr]
    have hnil : ∀ s' : State β ε, s'.handOver [] = s' := fun s' => by simp [State.handOver]
    rw [hstolen, hnil]
    exact h.enter_other hk rfl passive_nil rfl (fun hnone => ⟨hnone, rfl⟩) rfl h.counted
  · rename_i herr
    by_cases hact : s.buf.active = true
    · have hstolen : stolen s.buf = [] := by simp [stolen, hact]
      have hnil : ∀ s' : State β ε, s'.handOver [] = s' := fun s' => by simp [State.handOver]
      rw [if_pos hact, hstolen, hnil]
      exact h.enter_other hk rfl passive_nil rfl (fun hnone => ⟨hnone, rfl⟩) rfl h.counted
    · -- the theft first, and then the call goes on
      have hsteal := h.steal (b := s.buf.empty) (by simp [herr, hact])
      rw [if_neg hact]
      refine hsteal.enter_other hk rfl ?_ ?_ (fun hnone => ⟨hnone, rfl⟩) rfl rfl
      · unfold Section.frames Section.pass
        dsimp only
        split <;> exact passive_nil
      · unfold Section.frames Section.pass
        dsimp only
        split <;> rfl

theorem or_eq_some (error : Option ε) (e : ε) : ∃ e', error.or (some e) = some e' := by
  cases error with
  | none => exact ⟨e, rfl⟩
  | some e' => exact ⟨e', rfl⟩

theorem enter_goOn (s : State β ε) (k : Nat) (stack rest : List (Frame β ε)) {sec : Section β ε}
    (hshut : sec.shut = false) : (s.goOn k stack).enter k rest sec = s.enter k rest sec := by
  simp [State.enter, State.goOn, hshut]

theorem goOn_getElem? (hk : s.calls[k]? = some (f :: rest)) (stack : List (Frame β ε)) :
    (s.goOn k stack).calls[k]? = some stack := by
  have hlen : k < s.calls.length := (List.getElem?_eq_some_iff.1 hk).1
  simp [State.goOn, hlen]

theorem Stream.handler {e : ε} {x : Errors ε} {reply : Reply ε} {s' : State β ε} (h : Stream s)
    (hk : s.calls[k]? = some (.handler e :: rest))
    (hs : Ran x s k rest reply (.handler e) s') : Stream s' := by
  have hrest := h.rest_passive hk
  rcases or_eq_some s.buf.sendError e with ⟨e', herr⟩
  cases hs with
  | handled e next hnext =>
    -- the error is known, whether the exception leaves the callback or not
    have hframes : ({ handlerSection s.buf e with next := next } : Section β ε).frames = [] := by
      rcases hnext with rfl | rfl <;> rfl
    refine h.known hk rfl ?_ ?_ herr rfl h.counted
    · rw [hframes]
      exact passive_nil
    · rw [hframes]
      rfl
  | reported e =>
    -- the stack below is the same but for the error that `on_done` leaves there
    have hgo : Stream (s.goOn k (.handler e :: leaveError e rest)) :=
      h.goOn_other hk rfl (by simp [(hrest.leaveError e).legCount, Frame.isLeg])
        (hrest.leaveError e)
    rw [← enter_goOn s k (.handler e :: leaveError e rest) _ rfl]
    exact hgo.known (goOn_getElem? hk _) rfl passive_nil rfl herr rfl h.counted

theorem Stream.goOn_rest (h : Stream s) (hk : s.calls[k]? = some (f :: rest))
    (hf : f.isLeg = false) : Stream (s.goOn k rest) := by
  have hrest := h.rest_passive hk
  exact h.goOn_other hk hf hrest.legCount (fun g hg => hrest g (mem_of_mem_tail hg))

theorem Stream.goOn_unwind (h : Stream s) (hk : s.calls[k]? = some (f :: rest))
    (hf : f.isLeg = false) (e : ε) : Stream (s.goOn k (unwind e rest)) := by
  have hun := (h.rest_passive hk).unwind e
  exact h.goOn_other hk hf hun.1 hun.2

theorem Stream.flags (h : Stream s) (silent : Nat) (sockOpen writerClosed : Bool) :
    Stream { s with silent := silent, sockOpen := sockOpen, writerClosed := writerClosed } :=
  ⟨h.shape, h.legs, h.active, h.bytes, h.counted⟩

theorem Stream.armed (h : Stream s) (armed : Bool) :
    Stream { s with trace := { s.trace with armed := armed } } :=
  ⟨h.shape, h.legs, h.active, h.bytes, h.counted⟩

theorem Stream.submit {x : Errors ε} {chunk : List β} {wait : Bool} {reply : Reply ε}
    {s' : State β ε} (h : Stream s) (hk : s.calls[k]? = some (.submit chunk wait :: rest))
    (hs : Ran x s k rest reply (.submit chunk wait) s') : Stream s' := by
  have hrest := h.rest_passive hk
  cases hs with
  | sent =>
    have hsub : Stream ((s.goOn k (.finish :: rest)).handOver chunk) :=
      h.submitted hk (by simp [hrest.legCount, Frame.isLeg]) hrest
        (by simp [chunkOf_eq_nil hrest.legCount, Frame.chunk])
    exact hsub.flags (s.silent + 1) s.sockOpen s.writerClosed
  | submitted => exact h.submitted_later hk rfl
  | eager _ exception =>
    refine h.submitted hk ?_ ?_ ?_
    · simp [hrest.legCount, Frame.isLeg]
    · intro f hf
      simp only [tail_cons, mem_cons] at hf
      rcases hf with rfl | rfl | hf
      · rfl
      · rfl
      · exact hrest f hf
    · simp [chunkOf_eq_nil hrest.legCount, Frame.chunk]
  | refused _ _ e =>
    refine h.goOn_leg hk rfl ?_ hrest ?_
    · simp [hrest.legCount, Frame.isLeg]
    · simp [chunkOf_eq_nil hrest.legCount, Frame.chunk]

theorem Stream.shut_rest (h : Stream s) (hk : s.calls[k]? = some (f :: rest)) (hf : f.isLeg = false) :
    Stream (s.shut.goOn k rest) ∧ ∀ e, Stream (s.shut.goOn k (unwind e rest)) := by
  have hk' : s.shut.calls[k]? = some (f :: rest) := by rw [shut_calls, hk]
  exact ⟨h.shut.goOn_rest hk' hf, fun e => h.shut.goOn_unwind hk' hf e⟩

theorem Stream.run {x : Errors ε} {reply : Reply ε} {s' : State β ε} (h : Stream s)
    (hk : s.calls[k]? = some (f :: rest)) (hs : run x s k rest reply f = some s') : Stream s' := by
  cases ran_of_run hs with
  | sent | submitted | eager | refused => exact h.submit hk (ran_of_run hs)
  | failed chunk e => exact (h.fail true).failed hk
  | finish => exact h.finish hk x reply.fault
  | returned callbackError => exact h.goOn_rest hk rfl
  | raised callbackError e => exact h.goOn_unwind hk rfl e
  | complete exception => exact (h.fail exception.isSome).complete hk x reply.fault
  | done => exact h.goOn_rest hk rfl
  | handled | reported => exact h.handler hk (ran_of_run hs)
  | fireForget e =>
    rcases or_eq_some s.buf.sendError e with ⟨e', herr⟩
    exact (h.fail true).known hk rfl passive_nil rfl herr rfl h.counted
  | closeRaises writer e => exact (h.shut_rest hk rfl).2 e
  | closes writer => exact (h.shut_rest hk rfl).1.flags _ _ (s.writerClosed || writer)
  | closeQuiet => exact (h.shut_rest hk rfl).1
  | check w => exact h.check hk rfl w
  | woken w => exact h.check hk rfl w
  | steal => exact h.stealFrame hk
  | armed hnone =>
    exact ((h.arm hk).flags (s.enter k rest (armSection s.buf)).silent
      (s.enter k rest (armSection s.buf)).sockOpen
      (s.writerClosed || (s.enter k rest (armSection s.buf)).buf.closeWhenIdle)).armed true
  | armFails herr => exact h.arm hk
  | sendRaises chunk e => exact h.goOn_unwind hk rfl e
  | sendCloses chunk => exact (h.shut_rest hk rfl).1.flags _ _ true

theorem Stream.spawn (h : Stream s) {n m : Nat} {call : List (Frame β ε)} (hcall : Passive call.tail)
    (hlegs : n + legCount call = s.awaiting) (hchunk : chunkOf call = []) :
    Stream { s.spawn call with awaiting := n, silent := m } := by
  have hlegs' : ({ s.spawn call with awaiting := n, silent := m } : State β ε).legs = s.legs := by
    simp only [State.legs, State.spawn, Tally.tally_append]
    omega
  refine ⟨?_, hlegs' ▸ h.legs, ?_, ?_, h.counted⟩
  · intro c hc
    rcases mem_append.1 hc with hc | hc
    · exact h.shape c hc
    · have heq : c = call := by simpa using hc
      exact heq ▸ hcall
  · rw [hlegs']
    exact h.active
  · have hres : ({ s.spawn call with awaiting := n, silent := m } : State β ε).reserved =
        s.reserved := by
      simp [State.reserved, State.spawn, hchunk]
    rw [hres]
    exact h.bytes

/-- Bytes go from the buffer to the chunk in flight, and from there to the socket, in order. -/
theorem Stream.step {x : Errors ε} {a : Act β ε} {s' : State β ε} (h : Stream s)
    (hs : step x s a = some s') : Stream s' := by
  cases a with
  | call op =>
    cases hs
    exact h.call x op
  | completed exception =>
    simp only [SendBuffer.step] at hs
    split at hs
    · rename_i hpos
      cases hs
      refine h.spawn (m := s.silent) ?_ ?_ rfl
      · intro f hf
        have heq : f = .onDone := by simpa using hf
        subst heq
        rfl
      · simp [Frame.isLeg]
        omega
    · cases hs
  | sendFailed e =>
    simp only [SendBuffer.step] at hs
    split at hs
    · cases hs
      exact h.spawn (n := s.awaiting) passive_nil rfl rfl
    · cases hs
  | run k reply =>
    simp only [SendBuffer.step] at hs
    split at hs
    · rename_i f rest hk
      exact h.run hk hs
    · cases hs
  | throw k =>
    simp only [SendBuffer.step] at hs
    split at hs
    · rename_i w n rest hk
      cases hs
      exact h.goOn_other hk rfl rfl passive_nil
    · cases hs

end Rules

/-- In every reachable state the bytes handed over, the reserved bytes and the backlog are the bytes
of the accepted writes; at most one leg is reserved or awaits completion, so no other is reserved
meanwhile; and `_pending_bytes` is the length of the backlog. -/
theorem send_buffer_stream_law (x : Errors ε) (highWater lowWater : Int) (minWrite : Nat)
    (acts : List (Act β ε)) :
    Always (step x)
      (fun s => s.trace.handedOver ++ s.reserved ++ s.buf.held = s.trace.accepted ∧ s.legs ≤ 1 ∧
        s.buf.pendingBytes = s.buf.held.length)
      (init highWater lowWater minWrite) acts := by
  refine always_of_invariant (I := Stream) ?_ ?_ acts _ (Stream.init highWater lowWater minWrite)
  · intro s h
    exact ⟨h.bytes, h.legs, h.counted⟩
  · intro s a s' h hs
    exact h.step hs

end Pytealet.Io.SendBuffer
