import Pytealet.Io.SendClose

/-!
# SendCloseRuns — an armed buffer closes its socket once

Every call and every step of a call keeps the invariant `Armed`: while the socket is open, an armed
buffer has a leg under way that will close it, or a call that is about to.
-/

namespace Pytealet.Io.SendBuffer

open Lib Lib.Transition List

variable {β ε : Type*}

section Rules

variable {s : State β ε} {k : Nat} {f : Frame β ε} {rest stack : List (Frame β ε)}
  {sec : Section β ε}

/-! ## The calls -/

theorem closers_begin (s : State β ε) (sec : Section β ε) :
    (s.begin sec).closers = s.closers + closeCount sec.frames := by
  unfold State.begin
  rw [closers_enter]
  simp only [State.closers, State.goOn, begin_calls, Tally.tally_append,
    Section.closeCount_stack sec passive_nil]

theorem Armed.begin (h : Armed s) (hle : (s.begin sec).legs ≤ 1) (hbuf : s.buf.Settles sec.buf)
    (hframes : ∀ g ∈ sec.frames, g.Sound sec.buf) (hpass : Passive sec.frames.tail)
    (hflag : sec.buf.closeWhenIdle = s.buf.closeWhenIdle) : Armed (s.begin sec) := by
  rcases trace_enter (s.spawn []) s.calls.length [] sec with ⟨hcloses, harmed⟩
  have hlegs := legs_begin s sec hpass
  have hclosers := closers_begin s sec
  have hsound : ∀ call ∈ (s.spawn []).calls, ∀ g ∈ call, g.Sound (s.spawn []).buf := by
    intro call hcall g hg
    rcases mem_append.1 hcall with hcall | hcall
    · exact h.sound call hcall g hg
    · have heq : call = [] := by simpa using hcall
      subst heq
      exact absurd hg not_mem_nil
  refine ⟨hcloses.trans h.count, ?_, ?_, ?_⟩
  · intro hc
    exact harmed.trans (h.flag (hflag ▸ hc))
  · intro ha hopen
    have ha' : s.trace.armed = true := harmed ▸ ha
    rcases h.owed ha' hopen with hpos | ⟨hidle, hone⟩
    · left
      omega
    · right
      refine ⟨hflag.trans hidle, ?_⟩
      omega
  · exact sound_enter hsound hbuf (sec.sound_stack passive_nil hframes)

theorem sound_submit (wait : Bool) (r : Option (List β)) (b : Buffer β ε) {tl : List (Frame β ε)}
    (htl : Passive tl) : ∀ g ∈ submitFrames wait r ++ tl, g.Sound b := by
  intro g hg
  rcases mem_append.1 hg with hg | hg
  · cases r with
    | none => cases hg
    | some chunk =>
      have heq : g = .submit chunk wait := by simpa [submitFrames] using hg
      subst heq
      trivial
  · exact Frame.sound_of_passive b (htl g hg)

theorem closeWhenIdle_reserveLeg (b : Buffer β ε) (force : Bool) :
    (b.reserveLeg force).1.closeWhenIdle = b.closeWhenIdle := by
  rcases b.reserveLeg_cases force with heq | ⟨-, -, heq⟩
  · rw [heq]
  · rw [heq]
    rfl

theorem Armed.begin_pass (h : Armed s) (hst : Stream s) {next : Except ε (List (Frame β ε))}
    (hnext : (Section.pass s.buf next).frames = []) : Armed (s.begin (.pass s.buf next)) := by
  refine h.begin ?_ (.refl _) ?_ ?_ rfl
  · rw [legs_begin s _ (by rw [hnext]; exact passive_nil), hnext]
    exact hst.legs
  · rw [hnext]
    exact fun g hg => absurd hg not_mem_nil
  · rw [hnext]
    exact passive_nil

theorem Armed.write (h : Armed s) (hst : Stream s) (x : Errors ε) (d : β) (data : List β) :
    Armed (s.begin (writeSection x s.buf (d :: data))) := by
  have hle : (s.begin (writeSection x s.buf (d :: data))).legs ≤ 1 := by
    have hlegs := (hst.write x (d :: data)).legs
    simp only [SendBuffer.call] at hlegs
    split at hlegs
    · exact hlegs
    · exact hlegs
  revert hle
  unfold writeSection
  split
  · exact fun _ => h.begin_pass hst rfl
  · split
    · exact fun _ => h.begin_pass hst rfl
    · rename_i hopen
      split
      · exact fun _ => h.begin_pass hst rfl
      · intro hle
        -- the write is accepted, so the buffer is not closed yet
        have hfields : (s.buf.appendPending (d :: data)).closeWhenIdle = s.buf.closeWhenIdle := by
          unfold Buffer.appendPending
          split <;> rfl
        have hframes : ∀ b : Buffer β ε, ∀ g ∈ submitFrames true
            ((s.buf.appendPending (d :: data)).reserveLeg false).2, g.Sound b := by
          intro b g hg
          refine sound_submit true ((s.buf.appendPending (d :: data)).reserveLeg false).2 b
            passive_nil g ?_
          rw [append_nil]
          exact hg
        refine h.begin hle ⟨fun hc => absurd hc hopen, fun hc => absurd hc hopen⟩ (hframes _) ?_ ?_
        · have hp := passive_submit (ε := ε) true
            ((s.buf.appendPending (d :: data)).reserveLeg false).2 passive_nil
          rwa [append_nil] at hp
        · exact (closeWhenIdle_reserveLeg _ false).trans hfields

theorem Armed.reserve (h : Armed s) (hst : Stream s) (herr : s.buf.sendError = none)
    {tl : List (Frame β ε)} (htl : Passive tl) :
    Armed (s.begin (.pass (s.buf.reserveLeg true).1
      (.ok (submitFrames false (s.buf.reserveLeg true).2 ++ tl)))) :=
  h.begin (hst.reserve herr htl).legs (s.buf.settles_reserveLeg true) (sound_submit _ _ _ htl)
    (passive_submit _ _ htl) (closeWhenIdle_reserveLeg s.buf true)

theorem Armed.writeEof (h : Armed s) (hst : Stream s) (x : Errors ε) (fault : Option ε) :
    Armed (s.begin (writeEofSection x s.buf fault)) := by
  have hle : (s.begin (writeEofSection x s.buf fault)).legs ≤ 1 := by
    have hlegs := (hst.writeEof x fault).legs
    simp only [SendBuffer.call] at hlegs
    split at hlegs
    · exact hlegs
    · exact hlegs
  rcases writeEofSection_cases x s.buf fault with
    ⟨next, rfl | ⟨e, rfl⟩, heq⟩ | ⟨hopen, -, -, heq | ⟨-, heq⟩⟩
  · rw [heq]
    exact h.begin_pass hst rfl
  · rw [heq]
    exact h.begin_pass hst rfl
  · rw [heq] at hle ⊢
    have hframes := shutdownSection_frames x s.buf.markEof fault
    refine h.begin hle ?_ ?_ ?_ (Buffer.closed_maybeShutdown _ x fault).2
    · exact ⟨fun hc => absurd (hopen.symm.trans hc) (by simp),
        fun hc => absurd (hopen.symm.trans hc) (by simp)⟩
    · rw [hframes]
      exact fun g hg => absurd hg not_mem_nil
    · rw [hframes]
      exact passive_nil
  · rw [heq] at hle ⊢
    refine h.begin hle ?_ ?_ passive_nil rfl
    · exact Buffer.settles_of_empty (fun hc => hc) rfl
    · intro g hg
      have hgs : g = .submit s.buf.held false := by simpa [Section.frames] using hg
      subst hgs
      trivial

theorem settles_close (b : Buffer β ε) : b.Settles (closeSection b).buf := by
  rw [closeSection_buf]
  exact ⟨fun _ => rfl, fun _ hrest => hrest⟩

theorem Armed.call (h : Armed s) (hst : Stream s) (x : Errors ε) (op : Op β ε) :
    Armed (call x s op) := by
  have hst' := (hst.call x op).legs
  cases op with
  | write data =>
    cases data with
    | nil => exact h
    | cons d data =>
      simp only [SendBuffer.call]
      split
      · exact (h.write hst x d data).congr rfl rfl rfl rfl rfl rfl
      · exact h.write hst x d data
  | drain =>
    simp only [SendBuffer.call]
    unfold drainSection
    split
    · exact h.begin_pass hst rfl
    · rename_i herr
      refine h.reserve hst herr ?_
      intro g hg
      split at hg
      · have heq : g = .check .drain := by simpa using hg
        subst heq
        rfl
      · cases hg
  | flush =>
    simp only [SendBuffer.call]
    unfold flushSection
    split
    · exact h.begin_pass hst rfl
    · rename_i herr
      refine h.reserve hst herr ?_
      intro g hg
      have heq : g = .check .flush := by simpa using hg
      subst heq
      rfl
  | writeEof fault =>
    simp only [SendBuffer.call]
    split
    · exact (h.writeEof hst x fault).congr rfl rfl rfl rfl rfl rfl
    · exact h.writeEof hst x fault
  | close =>
    have hframes : (closeSection s.buf).frames = [] := by
      unfold closeSection
      split <;> rfl
    refine h.begin hst' (settles_close s.buf) ?_ ?_ ?_
    · rw [hframes]
      exact fun g hg => absurd hg not_mem_nil
    · rw [hframes]
      exact passive_nil
    · rw [closeSection_buf]
  | setLimits high low =>
    simp only [SendBuffer.call] at hst' ⊢
    revert hst'
    unfold limitsSection
    dsimp only
    split
    · exact fun _ => h.begin_pass hst rfl
    · exact fun hle => h.begin hle ⟨fun hc => hc, fun _ hrest => hrest⟩
        (fun g hg => absurd hg not_mem_nil) passive_nil rfl
  | stealPending =>
    have hbuf : s.buf.Settles (SendBuffer.call x s .stealPending).buf := by
      simp only [SendBuffer.call]
      split
      · exact .refl _
      · exact Buffer.settles_of_empty (fun hc => hc) rfl
    have hflag : (SendBuffer.call x s .stealPending).buf.closeWhenIdle = s.buf.closeWhenIdle := by
      simp only [SendBuffer.call]
      split <;> rfl
    refine ⟨h.count, fun hc => h.flag (hflag ▸ hc), ?_, ?_⟩
    · rw [hflag]
      exact h.owed
    · exact fun call hcall g hg => (h.sound call hcall g hg).settle hbuf
  | waitClosed =>
    simp only [SendBuffer.call] at hst' ⊢
    split
    · exact h
    · rename_i hopen
      rw [if_neg hopen] at hst'
      refine h.begin hst' (settles_close s.buf) ?_ passive_nil ?_
      · intro g hg
        have heq : g = .steal := by simpa [Section.frames] using hg
        subst heq
        show (closeSection s.buf).buf.closed = true
        rw [closeSection_buf]
      · show (closeSection s.buf).buf.closeWhenIdle = _
        rw [closeSection_buf]

/-! ## The steps -/

theorem Passive.sound {call : List (Frame β ε)} (h : Passive call) (b : Buffer β ε) :
    ∀ g ∈ call, g.Sound b :=
  fun g hg => Frame.sound_of_passive b (h g hg)

theorem sound_cons {b : Buffer β ε} (hf : f.Sound b) (hrest : ∀ g ∈ rest, g.Sound b) :
    ∀ g ∈ f :: rest, g.Sound b := by
  intro g hg
  rcases mem_cons.1 hg with rfl | hg
  · exact hf
  · exact hrest g hg

variable {s' : State β ε} {x : Errors ε}

theorem Armed.submit {chunk : List β} {wait : Bool} {reply : Reply ε} (h : Armed s) (hst : Stream s)
    (hk : s.calls[k]? = some (.submit chunk wait :: rest))
    (hs : Ran x s k rest reply (.submit chunk wait) s') : Armed s' := by
  have hrest := hst.rest_passive hk
  have hsound := hrest.sound s.buf
  -- the leg goes on in another frame
  have hlegs : ∀ g : Frame β ε, ∀ call, Passive call → g.isLeg = true →
      (s.goOn k (g :: call)).legs = s.legs := by
    intro g call hcall hg
    have hset := legs_goOn hk (g :: call)
    have hone : legCount (.submit chunk wait :: rest) = 1 := by simp [hrest.legCount, Frame.isLeg]
    have hone' : legCount (g :: call) = 1 := by simp [hcall.legCount, hg]
    omega
  cases hs with
  | sent =>
    exact h.move hk hrest rfl (sound_cons (f := .finish) trivial hsound) rfl
      (hlegs .finish rest hrest rfl) rfl rfl rfl rfl
  | submitted =>
    refine h.move hk hrest rfl hsound rfl ?_ rfl rfl rfl rfl
    have hset := legs_goOn hk rest
    simp only [legCount_cons, hrest.legCount, Frame.isLeg, if_true] at hset
    simp only [State.legs, State.goOn, State.handOver] at hset ⊢
    omega
  | eager _ exception =>
    have hpass : Passive (.onDone :: .inCall none :: rest) := by
      intro g hg
      simp only [mem_cons] at hg
      rcases hg with rfl | rfl | hg
      · rfl
      · rfl
      · exact hrest g hg
    exact h.move hk hrest rfl
      (sound_cons (f := .complete exception) trivial (hpass.sound s.buf)) rfl
      (hlegs (.complete exception) _ hpass rfl) rfl rfl rfl rfl
  | refused _ _ e =>
    exact h.move hk hrest rfl (sound_cons (f := .failed chunk e) trivial hsound) rfl
      (hlegs _ rest hrest rfl) rfl rfl rfl rfl

theorem settles_handler (b : Buffer β ε) (e : ε) :
    b.Settles (handlerSection b e).buf ∧ b.Settles (fireForgetSection b e).buf :=
  ⟨Buffer.settles_of_error (fun hc => hc) (isSome_or b.sendError (some e) rfl),
    Buffer.settles_of_error (fun _ => rfl) (isSome_or b.sendError (some e) rfl)⟩

theorem Armed.enter_other (h : Armed s) (hst : Stream s) (hk : s.calls[k]? = some (f :: rest))
    (hf : f.closes = false) (hf' : f.isLeg = false) (hbuf : s.buf.Settles sec.buf)
    (hframes : ∀ g ∈ sec.frames, g.Sound sec.buf) (hpass : Passive sec.frames.tail)
    (hlegs : legCount sec.frames = 0) (hflag : sec.buf.closeWhenIdle = s.buf.closeWhenIdle) :
    Armed (s.enter k rest sec) := by
  refine h.enter hst hk hf hbuf hframes hpass (fun hc => hflag ▸ hc) ?_
  intro howes
  right
  rw [hflag, hlegs, hf']
  simp only [State.owes, Bool.and_eq_true] at howes
  exact ⟨howes.1.1, rfl⟩

theorem Armed.handler {e : ε} {reply : Reply ε} (h : Armed s)
    (hst : Stream s) (hk : s.calls[k]? = some (.handler e :: rest))
    (hs : Ran x s k rest reply (.handler e) s') : Armed s' := by
  have hnil : ∀ b : Buffer β ε, ∀ g ∈ ([] : List (Frame β ε)), g.Sound b :=
    fun b g hg => absurd hg not_mem_nil
  cases hs with
  | handled e next hnext =>
    -- the error is known, whether the exception leaves the callback or not
    have hframes : ({ handlerSection s.buf e with next := next } : Section β ε).frames = [] := by
      rcases hnext with rfl | rfl <;> rfl
    refine h.enter_other hst hk rfl rfl (settles_handler s.buf e).1 ?_ ?_ ?_ ?_
    · rw [hframes]
      exact hnil _
    · rw [hframes]
      exact passive_nil
    · rw [hframes]
      rfl
    · rfl
  | reported e =>
    -- the stack below is the same but for the error that `on_done` leaves there
    have hrest := hst.rest_passive hk
    have hleave := hrest.leaveError e
    have hgo : Armed (s.goOn k (.handler e :: leaveError e rest)) := by
      refine h.move hk hrest rfl (sound_cons (f := .handler e) trivial (hleave.sound s.buf)) rfl ?_
        rfl rfl rfl rfl
      have hset := legs_goOn hk (.handler e :: leaveError e rest)
      simp only [legCount_cons, hrest.legCount, hleave.legCount] at hset
      omega
    have hst' : Stream (s.goOn k (.handler e :: leaveError e rest)) :=
      hst.goOn_other hk rfl (by simp [hleave.legCount, Frame.isLeg]) hleave
    rw [← enter_goOn s k (.handler e :: leaveError e rest) _ rfl]
    exact hgo.enter_other hst' (goOn_getElem? hk _) rfl rfl (settles_handler s.buf e).1 (hnil _)
      passive_nil rfl rfl

theorem Armed.check (h : Armed s) (hst : Stream s) (hk : s.calls[k]? = some (f :: rest))
    (hf : f.closes = false) (hf' : f.isLeg = false) (w : Wait) :
    Armed (s.enter k rest (checkSection s.buf w)) := by
  unfold checkSection
  split
  · exact h.enter_other hst hk hf hf' (.refl _) (fun g hg => absurd hg not_mem_nil)
      passive_nil rfl rfl
  · refine h.enter_other hst hk hf hf' (.refl _) ?_ ?_ ?_ rfl
    all_goals
      unfold Section.frames Section.pass
      dsimp only
      split
    · exact fun g hg => absurd hg not_mem_nil
    · exact sound_cons trivial (fun g hg => absurd hg not_mem_nil)
    · exact passive_nil
    · exact passive_nil
    · rfl
    · rfl

theorem Armed.steal (h : Armed s) (hst : Stream s) (hk : s.calls[k]? = some (.steal :: rest)) :
    Armed (s.enter k rest (stealSection s.buf)) := by
  have hclosed : s.buf.closed = true :=
    h.sound _ (mem_of_getElem? hk) .steal mem_cons_self
  unfold stealSection
  split
  · exact h.enter_other hst hk rfl rfl (.refl _) (fun g hg => absurd hg not_mem_nil)
      passive_nil rfl rfl
  · split
    · rename_i hact
      refine h.enter_other hst hk rfl rfl (.refl _) ?_ passive_nil rfl rfl
      exact sound_cons ⟨hclosed, fun _ => .inl hact⟩ (fun g hg => absurd hg not_mem_nil)
    · have hempty : s.buf.Settles s.buf.empty := Buffer.settles_of_empty (fun hc => hc) rfl
      refine h.enter_other hst hk rfl rfl hempty ?_ ?_ ?_ rfl
      all_goals
        unfold Section.frames Section.pass
        dsimp only
        split
      · exact sound_cons ⟨hclosed, fun _ => .inr rfl⟩ (fun g hg => absurd hg not_mem_nil)
      · exact sound_cons trivial (fun g hg => absurd hg not_mem_nil)
      · exact passive_nil
      · exact passive_nil
      · rfl
      · rfl

theorem Armed.arm (h : Armed s) (hst : Stream s) (hk : s.calls[k]? = some (.arm :: rest))
    (herr : s.buf.sendError = none) (writerClosed : Bool) :
    Armed { s.enter k rest (armSection s.buf) with
      writerClosed := writerClosed
      trace := { (s.enter k rest (armSection s.buf)).trace with armed := true } } := by
  have hrest := hst.rest_passive hk
  have hsound := h.sound _ (mem_of_getElem? hk) .arm mem_cons_self
  rcases trace_enter s k rest (armSection s.buf) with ⟨hcloses, -⟩
  by_cases hidle : s.buf.active = false ∧ s.buf.held = []
  · have hsec : armSection s.buf = .pass s.buf (.ok [.close true]) := by
      simp [armSection, herr, hidle]
    rw [hsec] at hcloses ⊢
    have hclosers := closers_goOn hk ((Section.pass s.buf (.ok [.close true])).stack rest)
    have hone : closeCount ((Section.pass s.buf (.ok [.close true])).stack rest) = 1 := by
      rw [Section.closeCount_stack _ hrest]
      rfl
    have hzero : closeCount (.arm :: rest) = 0 := by simp [hrest.closeCount, Frame.closes]
    have hframes : ∀ g ∈ (Section.pass s.buf (.ok [.close true])).frames, g.Sound s.buf :=
      sound_cons trivial (fun g hg => absurd hg not_mem_nil)
    refine ⟨hcloses.trans h.count, fun _ => rfl, ?_, ?_⟩
    · intro _ _
      left
      show 0 < (s.enter k rest (.pass s.buf (.ok [.close true]))).closers
      rw [closers_enter]
      omega
    · exact sound_enter h.sound (.refl _) (Section.sound_stack _ hrest hframes)
  · have hsec : armSection s.buf = .pass { s.buf with closeWhenIdle := true } (.ok []) := by
      simp [armSection, herr, hidle]
    -- the buffer is at rest: there is a leg
    have hact : s.buf.active = true := by
      rcases hsound.2 herr with hact | hnil
      · exact hact
      · by_contra hact
        exact hidle ⟨by simpa using hact, hnil⟩
    have hone := (hst.active herr).1 hact
    rw [hsec] at hcloses ⊢
    have hlegs := (hst.leg_elsewhere hk rfl hrest.legCount).1
    have hframes : ∀ g ∈ (Section.pass { s.buf with closeWhenIdle := true }
        (.ok ([] : List (Frame β ε)))).frames, g.Sound { s.buf with closeWhenIdle := true } :=
      fun g hg => absurd hg not_mem_nil
    refine ⟨hcloses.trans h.count, fun _ => rfl, ?_, ?_⟩
    · intro _ _
      right
      refine ⟨rfl, ?_⟩
      show (s.enter k rest (.pass { s.buf with closeWhenIdle := true } (.ok []))).legs = 1
      rw [legs_enter]
      exact hlegs.trans hone
    · exact sound_enter h.sound ⟨fun hc => hc, fun _ hr => hr⟩ (Section.sound_stack _ hrest hframes)

theorem shut_fields (s : State β ε) :
    s.shut.sockOpen = false ∧ s.shut.buf = s.buf ∧ s.shut.trace.armed = s.trace.armed := by
  unfold State.shut
  split
  · exact ⟨rfl, rfl, rfl⟩
  · rename_i hopen
    exact ⟨by simpa using hopen, rfl, rfl⟩

theorem Armed.shut (h : Armed s) (hstack : ∀ g ∈ stack, g.Sound s.buf)
    (hbuf : s'.buf = s.shut.buf) (hcalls : s'.calls = s.shut.calls.set k stack)
    (hopen : s'.sockOpen = s.shut.sockOpen) (htrace : s'.trace = s.shut.trace) : Armed s' := by
  rcases shut_fields s with ⟨hshut, hb, ha⟩
  have hone : s.shut.trace.closes = 1 := by
    have hcount := h.count
    unfold State.shut
    split
    · rename_i ho
      rw [if_pos ho] at hcount
      show s.trace.closes + 1 = 1
      omega
    · rename_i ho
      rw [if_neg ho] at hcount
      exact hcount
  refine h.closed (hbuf.trans hb) (hopen.trans hshut) (by rw [htrace, hone]) (by rw [htrace, ha]) ?_
  rw [hcalls, shut_calls]
  exact sound_set h.sound hstack

theorem Armed.run {reply : Reply ε} (h : Armed s) (hst : Stream s)
    (hk : s.calls[k]? = some (f :: rest)) (hc : EndsIdle s (.run k reply))
    (hs : run x s k rest reply f = some s') : Armed s' := by
  have hrest := hst.rest_passive hk
  have hsound := hrest.sound s.buf
  have hnil : ∀ b : Buffer β ε, ∀ g ∈ ([] : List (Frame β ε)), g.Sound b :=
    fun b g hg => absurd hg not_mem_nil
  -- a frame that is no leg and does not close goes on below
  have hgo : f.closes = false → f.isLeg = false → Armed (s.goOn k rest) := fun hf hf' =>
    h.move hk hrest hf hsound rfl (hst.leg_elsewhere hk hf' hrest.legCount).1 rfl rfl rfl rfl
  have hun : f.closes = false → f.isLeg = false → ∀ e, Armed (s.goOn k (unwind e rest)) :=
    fun hf hf' e => h.move hk hrest hf (hrest.sound_unwind s.buf e) rfl
      (hst.leg_elsewhere hk hf' (hrest.unwind e).1).1 rfl rfl rfl rfl
  simp only [EndsIdle, hk] at hc
  cases ran_of_run hs with
  | sent | submitted | eager | refused => exact h.submit hst hk (ran_of_run hs)
  | failed chunk e =>
    refine (h.fail true).enter (hst.fail true) hk rfl ?_ (hnil _) passive_nil ?_ ?_
    · refine Buffer.settles_of_error ?_ rfl
      intro hcl
      have hfields : (s.buf.prependPending chunk).closed = s.buf.closed := by
        unfold Buffer.prependPending
        split <;> rfl
      exact hfields.trans hcl
    · intro hidle
      have hfields : (s.buf.prependPending chunk).closeWhenIdle = s.buf.closeWhenIdle := by
        unfold Buffer.prependPending
        split <;> rfl
      exact hfields.symm.trans hidle
    · intro howes
      exact absurd (hc.symm.trans howes) (by simp)
  | finish => exact h.finish hst hk x reply.fault hc
  | returned callbackError => exact hgo rfl rfl
  | raised callbackError e => exact hun rfl rfl e
  | complete exception =>
    exact (h.fail exception.isSome).complete (hst.fail exception.isSome) hk x reply.fault hc
  | done => exact hgo rfl rfl
  | handled | reported => exact h.handler hst hk (ran_of_run hs)
  | fireForget e =>
    refine (h.fail true).enter_other (hst.fail true) hk rfl rfl (settles_handler s.buf e).2 ?_
      passive_nil rfl rfl
    exact sound_cons trivial (hnil _)
  | closeRaises writer e => exact h.shut (hrest.sound_unwind s.buf e) rfl rfl rfl rfl
  | closes writer => exact h.shut hsound rfl rfl rfl rfl
  | closeQuiet => exact h.shut hsound rfl rfl rfl rfl
  | check w => exact h.check hst hk rfl rfl w
  | woken w => exact h.check hst hk rfl rfl w
  | steal => exact (h.steal hst hk).congr rfl rfl rfl rfl rfl rfl
  | armed hnone => exact h.arm hst hk hnone _
  | armFails herr =>
    have hsec : ∃ e, armSection s.buf = .pass s.buf (.error e) := by
      unfold armSection
      split
      · exact ⟨_, rfl⟩
      · rename_i hnone
        exact absurd hnone herr
    rcases hsec with ⟨e, hsec⟩
    rw [hsec]
    exact h.enter_other hst hk rfl rfl (.refl _) (hnil _) passive_nil rfl rfl
  | sendRaises chunk e => exact hun rfl rfl e
  | sendCloses chunk => exact h.shut hsound rfl rfl rfl rfl

theorem Armed.spawn {call : List (Frame β ε)} {n m : Nat} (h : Armed s)
    (hsound : ∀ b : Buffer β ε, ∀ g ∈ call, g.Sound b) (hclose : closeCount call = 0)
    (hlegs : n + legCount call = s.awaiting) :
    Armed { s.spawn call with awaiting := n, silent := m } := by
  have hlegs' : ({ s.spawn call with awaiting := n, silent := m } : State β ε).legs = s.legs := by
    simp only [State.legs, State.spawn, Tally.tally_append]
    omega
  have hclosers : ({ s.spawn call with awaiting := n, silent := m } : State β ε).closers =
      s.closers := by
    simp only [State.closers, State.spawn, Tally.tally_append]
    omega
  refine ⟨h.count, h.flag, ?_, ?_⟩
  · rw [hlegs', hclosers]
    exact h.owed
  · intro c hc g hg
    rcases mem_append.1 hc with hc | hc
    · exact h.sound c hc g hg
    · have heq : c = call := by simpa using hc
      exact hsound _ g (heq ▸ hg)

theorem Armed.step {a : Act β ε} (h : Armed s) (hst : Stream s)
    (hc : EndsIdle s a) (hs : step x s a = some s') : Armed s' := by
  cases a with
  | call op =>
    cases hs
    exact h.call hst x op
  | completed exception =>
    simp only [SendBuffer.step] at hs
    split at hs
    · rename_i hpos
      cases hs
      refine h.spawn (m := s.silent) ?_ rfl ?_
      · intro b g hg
        simp only [mem_cons, not_mem_nil, or_false] at hg
        rcases hg with rfl | rfl
        · trivial
        · trivial
      · simp [Frame.isLeg]
        omega
    · cases hs
  | sendFailed e =>
    simp only [SendBuffer.step] at hs
    split at hs
    · cases hs
      refine h.spawn (n := s.awaiting) ?_ rfl rfl
      intro b g hg
      have heq : g = .fireForget e := by simpa using hg
      subst heq
      trivial
    · cases hs
  | run k reply =>
    simp only [SendBuffer.step] at hs
    split at hs
    · rename_i f rest hk
      exact h.run hst hk hc hs
    · cases hs
  | throw k =>
    simp only [SendBuffer.step] at hs
    split at hs
    · rename_i w n rest hk
      cases hs
      exact h.move hk (hst.rest_passive hk) rfl (fun g hg => absurd hg not_mem_nil) rfl
        (hst.leg_elsewhere hk rfl rfl).1 rfl rfl rfl rfl
    · cases hs

/-! ## Every step settles the buffer -/

theorem settles_endLeg (x : Errors ε) {b₀ b : Buffer β ε} (wait : Bool) (fault : Option ε)
    (hclosed : b.closed = b₀.closed) : b₀.Settles (endLeg x b wait fault).buf := by
  unfold endLeg
  rcases b.takePending_cases with ⟨-, heq⟩ | ⟨-, heq⟩
  · rw [heq]
    exact settles_goIdle x fault hclosed (.inr b.held_empty)
  · rw [heq]
    exact Buffer.settles_of_empty (fun hc => hclosed.trans hc) rfl

theorem settles_finish (x : Errors ε) (b : Buffer β ε) (fault : Option ε) :
    b.Settles (finishSection x b fault).buf := by
  unfold finishSection
  split
  · rename_i e herr
    exact Buffer.settles_of_error (fun hc => hc) (by simp [herr])
  · exact settles_endLeg x false fault rfl

theorem settles_complete (x : Errors ε) (b : Buffer β ε) (exception fault : Option ε) :
    b.Settles (completeSection x b exception fault).buf := by
  unfold completeSection
  dsimp only
  split
  · exact settles_endLeg x true fault rfl
  · rename_i e herr
    refine settles_goIdle x fault rfl (.inl ?_)
    show (exception.or b.sendError).isSome = true
    rw [herr]
    rfl

theorem settles_failed (b : Buffer β ε) (chunk : List β) (e : ε) :
    b.Settles (failedSection b chunk e).buf := by
  refine Buffer.settles_of_error (fun hc => ?_) rfl
  have hfields : (b.prependPending chunk).closed = b.closed := by
    unfold Buffer.prependPending
    split <;> rfl
  exact hfields.trans hc

theorem settles_steal (b : Buffer β ε) : b.Settles (stealSection b).buf := by
  unfold stealSection
  split
  · exact .refl b
  · split
    · exact .refl b
    · exact Buffer.settles_of_empty (fun hc => hc) rfl

theorem settles_arm (b : Buffer β ε) : b.Settles (armSection b).buf := by
  unfold armSection
  split
  · exact .refl b
  · split
    · exact .refl b
    · exact ⟨fun hc => hc, fun _ hrest => hrest⟩

theorem settles_check (b : Buffer β ε) (w : Wait) : b.Settles (checkSection b w).buf := by
  unfold checkSection
  split <;> exact .refl b

theorem settles_write (x : Errors ε) (b : Buffer β ε) (data : List β) :
    b.Settles (writeSection x b data).buf := by
  unfold writeSection
  split
  · exact .refl b
  · split
    · exact .refl b
    · rename_i hopen
      split
      · exact .refl b
      -- only an open buffer accepts bytes
      · exact ⟨fun hc => absurd hc hopen, fun hc => absurd hc hopen⟩

theorem settles_writeEof (x : Errors ε) (b : Buffer β ε) (fault : Option ε) :
    b.Settles (writeEofSection x b fault).buf := by
  rcases writeEofSection_cases x b fault with ⟨next, -, heq⟩ | ⟨hopen, -, -, -⟩
  · rw [heq]
    exact .refl b
  · exact ⟨fun hc => absurd (hopen.symm.trans hc) (by simp),
      fun hc => absurd (hopen.symm.trans hc) (by simp)⟩

theorem settles_limits (x : Errors ε) (b : Buffer β ε) (high low : Option Int) :
    b.Settles (limitsSection x b high low).buf := by
  unfold limitsSection
  dsimp only
  split
  · exact .refl b
  · exact ⟨fun hc => hc, fun _ hrest => hrest⟩

theorem settles_drain (b : Buffer β ε) : b.Settles (drainSection b).buf := by
  unfold drainSection
  split
  · exact .refl b
  · exact b.settles_reserveLeg true

theorem settles_flush (b : Buffer β ε) : b.Settles (flushSection b).buf := by
  unfold flushSection
  split
  · exact .refl b
  · exact b.settles_reserveLeg true

theorem settles_call (x : Errors ε) (s : State β ε) (op : Op β ε) :
    s.buf.Settles (call x s op).buf := by
  cases op with
  | write data =>
    cases data with
    | nil => exact .refl s.buf
    | cons d data =>
      have hw := settles_write x s.buf (d :: data)
      simp only [SendBuffer.call]
      split <;> exact hw
  | drain => exact settles_drain s.buf
  | flush => exact settles_flush s.buf
  | writeEof fault =>
    have hw := settles_writeEof x s.buf fault
    simp only [SendBuffer.call]
    split <;> exact hw
  | close => exact settles_close s.buf
  | setLimits high low => exact settles_limits x s.buf high low
  | stealPending =>
    simp only [SendBuffer.call]
    split
    · exact .refl s.buf
    · exact Buffer.settles_of_empty (fun hc => hc) rfl
  | waitClosed =>
    simp only [SendBuffer.call]
    split
    · exact .refl s.buf
    · exact settles_close s.buf

theorem settles_run {reply : Reply ε} (hs : Ran x s k rest reply f s') : s.buf.Settles s'.buf := by
  have hshut : s.shut.buf = s.buf := (shut_fields s).2.1
  cases hs with
  | failed chunk e => exact settles_failed s.buf chunk e
  | finish => exact settles_finish x s.buf reply.fault
  | complete exception => exact settles_complete x s.buf exception reply.fault
  | handled e | reported e => exact (settles_handler s.buf e).1
  | fireForget e => exact (settles_handler s.buf e).2
  | closeRaises | closes | closeQuiet | sendCloses =>
    show s.buf.Settles s.shut.buf
    rw [hshut]
    exact .refl s.buf
  | check w | woken w => exact settles_check s.buf w
  | steal => exact settles_steal s.buf
  | armed | armFails => exact settles_arm s.buf
  | sent | submitted | eager | refused | returned | raised | done | sendRaises => exact .refl s.buf

theorem settles_step {a : Act β ε} (hs : step x s a = some s') : s.buf.Settles s'.buf := by
  cases a with
  | call op =>
    cases hs
    exact settles_call x s op
  | completed exception | sendFailed e =>
    simp only [SendBuffer.step] at hs
    split at hs
    · cases hs
      exact .refl s.buf
    · cases hs
  | run k reply =>
    simp only [SendBuffer.step] at hs
    split at hs
    · exact settles_run (ran_of_run hs)
    · cases hs
  | throw k =>
    simp only [SendBuffer.step] at hs
    split at hs
    · cases hs
      exact .refl s.buf
    · cases hs

/-! ## Runs -/

theorem Armed.unserved (h : Armed s) (hst : Stream s) (hk : s.calls[k]? = some (f :: rest))
    (hf : f.isLeg = true) (howes : s.owes = true) (hlegs : legCount sec.frames = 0)
    (hpass : Passive sec.frames.tail) (hclose : closeCount sec.frames = 0)
    (hend : sec.buf.sendError.isSome = true ∨ sec.buf.held = []) :
    ¬ ClosesOnce (s.enter k rest sec) := by
  have hrest := hst.rest_passive hk
  simp only [State.owes, Bool.and_eq_true, beq_iff_eq] at howes
  rcases howes with ⟨⟨hidle, hopen⟩, hzero⟩
  rcases trace_enter s k rest sec with ⟨hcloses, harmed⟩
  have hlegs' : (s.enter k rest sec).legs = 0 := by
    rw [legs_enter, ((hst.leg_alone hk hf).2.2.2 _).1, (sec.stack_spec hrest hpass).1, hlegs]
  have hclosers : (s.enter k rest sec).closers = 0 := by
    have hset := closers_goOn hk (sec.stack rest)
    rw [Section.closeCount_stack sec hrest] at hset
    rw [closers_enter]
    omega
  have hnone : (s.enter k rest sec).trace.closes = 0 := by
    rw [hcloses, h.count, if_pos hopen]
  intro hall
  have hone := hall.2 (harmed.trans (h.flag hidle)) hlegs' hend hclosers
  omega

theorem goIdle_raises (x : Errors ε) (b : Buffer β ε) (fault : Option ε)
    (hraise : (({ b with active := false } : Buffer β ε).shuts && fault.isSome) = true) :
    closeCount (goIdle x b fault).frames = 0 := by
  rcases Bool.and_eq_true_iff.1 hraise with ⟨hs, hfault⟩
  rcases Option.isSome_iff_exists.1 hfault with ⟨e, rfl⟩
  have he : ({ b with active := false } : Buffer β ε).shutdownError (some e) = some e := by
    simp [Buffer.shutdownError, hs]
  unfold goIdle
  dsimp only
  rw [he]
  rfl

theorem endLeg_raises (x : Errors ε) {b : Buffer β ε} (hb : b.Counted) (wait : Bool)
    (fault : Option ε) (hfly : b.inFlightBytes = 0) (hraise : (b.eofDue && fault.isSome) = true) :
    endLeg x b wait fault = goIdle x b.empty fault ∧
      (({ b.empty with active := false } : Buffer β ε).shuts && fault.isSome) = true := by
  rcases Bool.and_eq_true_iff.1 hraise with ⟨hdue, hfault⟩
  simp only [Buffer.eofDue, Bool.and_eq_true, Bool.not_eq_true', beq_iff_eq] at hdue
  have hnil := hb.held_eq_nil hdue.2
  refine ⟨?_, ?_⟩
  · unfold endLeg
    rcases b.takePending_cases with ⟨-, heq⟩ | ⟨hne, -⟩
    · rw [heq]
    · exact absurd hnil hne
  · simp [Buffer.shuts, Buffer.empty, hdue.1, hfly, hfault]

theorem Armed.finish_unserved (h : Armed s) (hst : Stream s)
    (hk : s.calls[k]? = some (.finish :: rest)) (x : Errors ε) (fault : Option ε)
    (hc : ((s.buf.sendError.isSome || (s.buf.eofDue && fault.isSome)) && s.owes) = true) :
    ¬ ClosesOnce (s.enter k rest (finishSection x s.buf fault)) := by
  rcases Bool.and_eq_true_iff.1 hc with ⟨hend, howes⟩
  unfold finishSection
  split
  · rename_i e herr
    exact h.unserved hst hk rfl howes rfl passive_nil rfl (.inl (by simp [herr]))
  · rename_i hnone
    rw [hnone, Option.isSome_none, Bool.false_or] at hend
    rcases endLeg_raises x (b := { s.buf with inFlightBytes := 0 }) hst.counted false fault rfl hend
      with ⟨heq, hraise⟩
    have hspec := goIdle_spec x (({ s.buf with inFlightBytes := 0 } : Buffer β ε).empty) fault
    rw [heq]
    exact h.unserved hst hk rfl howes hspec.1 hspec.2.1 (goIdle_raises x _ fault hraise)
      (.inr hspec.2.2.2.1)

theorem Armed.complete_unserved {exception : Option ε} (h : Armed s) (hst : Stream s)
    (hk : s.calls[k]? = some (.complete exception :: rest)) (x : Errors ε) (fault : Option ε)
    (hc : ((s.buf.eofDue && fault.isSome) && s.owes) = true) :
    ¬ ClosesOnce (s.enter k rest (completeSection x s.buf exception fault)) := by
  rcases Bool.and_eq_true_iff.1 hc with ⟨hend, howes⟩
  unfold completeSection
  dsimp only
  split
  · rcases endLeg_raises x (b := s.buf.completed exception) hst.counted true fault rfl hend
      with ⟨heq, hraise⟩
    have hspec := goIdle_spec x (s.buf.completed exception).empty fault
    have heq' : SendBuffer.endLeg x { s.buf with
        inFlightBytes := 0
        sendError := exception.or s.buf.sendError } true fault =
          SendBuffer.goIdle x (s.buf.completed exception).empty fault := heq
    rw [heq']
    exact h.unserved hst hk rfl howes hspec.1 hspec.2.1 (goIdle_raises x _ fault hraise)
      (.inr hspec.2.2.2.1)
  · rename_i e herr
    have hspec := goIdle_spec x (s.buf.completed exception) fault
    refine h.unserved hst hk rfl howes hspec.1 hspec.2.1 (goIdle_raises x _ fault ?_) (.inl ?_)
    · simpa [Buffer.shuts, Buffer.eofDue] using hend
    · refine (goIdle_fields x (s.buf.completed exception) fault).2.2.1 ?_
      show (exception.or s.buf.sendError).isSome = true
      rw [herr]
      rfl

end Rules

/-- In every run: the socket is closed at most once, and an armed buffer that has no leg under way
and can submit none any more has been closed (unless a call is about to do it); if and only if no
leg ends, while the close is owed, with a submit that raises, with an error found after
`sock_send_nowait`, or with a shutdown that raises. -/
theorem closes_once_iff_ends_idle (x : Errors ε) (highWater lowWater : Int) (minWrite : Nat)
    (acts : List (Act β ε)) :
    Always (step x) ClosesOnce (init highWater lowWater minWrite) acts ↔
      Along (step x) EndsIdle (init highWater lowWater minWrite) acts := by
  refine always_iff_along (I := fun s => Stream s ∧ Armed s) ?_ ?_ ?_ acts _
    ⟨Stream.init highWater lowWater minWrite, Armed.init highWater lowWater minWrite⟩
  · intro s h
    exact h.2.closesOnce
  · intro s a s' h hc hs
    exact ⟨h.1.step hs, h.2.step h.1 hc hs⟩
  · intro s a s' h hc hs
    unfold EndsIdle at hc
    split at hc
    · rename_i k reply
      simp only [step] at hs
      split at hc
      · rename_i chunk e rest hk
        rw [hk] at hs
        cases hs
        have howes : s.owes = true := by simpa using hc
        exact (h.2.fail true).unserved (h.1.fail true) hk rfl howes rfl passive_nil rfl (.inl rfl)
      · rename_i rest hk
        rw [hk] at hs
        cases hs
        exact h.2.finish_unserved h.1 hk x reply.fault (by simpa using hc)
      · rename_i exception rest hk
        rw [hk] at hs
        cases hs
        have hbad : ((s.buf.eofDue && reply.fault.isSome) && s.owes) = true := by
          simpa [and_assoc] using hc
        exact (h.2.fail exception.isSome).complete_unserved (h.1.fail exception.isSome) hk x
          reply.fault hbad
      · exact absurd trivial hc
    · exact absurd trivial hc

/-- The buffer is armed behind a leg, with bytes in the backlog.  The leg completes and the chained
submit raises: the error is recorded, and the socket is never closed. -/
theorem failed_chain_leaves_socket_open :
    ¬ ∀ acts : List (Act Nat Nat),
      Always (step ⟨0, 1, 2, fun _ => true, fun _ => false⟩) ClosesOnce (init 10 2 1) acts := by
  intro hall
  have hrun := hall
    [.call (.write [1, 2]), .run 0 .ok, .call (.write [3]), .call .waitClosed, .run 2 .ok,
      .run 2 .ok, .completed none, .run 3 .ok, .run 3 (.raises 9), .run 3 .ok, .run 3 .ok]
  revert hrun
  decide

end Pytealet.Io.SendBuffer
