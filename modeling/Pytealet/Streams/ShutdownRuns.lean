import Pytealet.Streams.Shutdown

/-!
# ShutdownRuns — the calls that close a stream release it

The work of each frame brings its call nearer to the reader and to the socket; an exception that
comes too early ends the call before it has been there.
-/

namespace Pytealet.Streams.Shutdown

open Io Lib Lib.Transition List

variable {β ε : Type*}

/-! ## The work of a frame -/

section Work

variable {x : Kinds ε} {s s' : State β ε} {caller : Caller} {f : Frame β} {rest frames : List (Frame β)}

/-- What the work of a frame leaves, with the frames it goes on with. -/
structure Worked (s s' : State β ε) (caller : Caller) (frames : List (Frame β)) : Prop where
  base : Base s'
  moves : Moves s s'
  calls : s'.calls = s.calls
  good : Good s' caller frames

theorem Good.leave (h : Good s caller (f :: rest)) (hm : Moves s s')
    (hreader : caller.closes = true → f.toReader = true → s'.readerDone = true)
    (hsocket : f.toSocket = true → s'.socketDone = true)
    (hcloses : f.closesBuffer = true → s'.out.buf.closed = true) : Good s' caller rest := by
  have hnil : Good s' caller ([] ++ rest) :=
    h.next hm (fun hc hf => .inl (hreader hc hf)) (fun hf => .inl (hsocket hf))
      (fun g hg => absurd hg not_mem_nil) List.Pairwise.nil trivial hcloses
      (fun g hg => absurd hg not_mem_nil)
  exact hnil

theorem Base.shut (h : Base s) : Base { s with out := s.out.shut } ∧ Moves s { s with out := s.out.shut } ∧
    ({ s with out := s.out.shut } : State β ε).socketDone = true := by
  rcases SendBuffer.shut_fields s.out with ⟨hopen, hbuf, -⟩
  have hdone : ({ s with out := s.out.shut } : State β ε).socketDone = true := by
    simp [State.socketDone, hopen]
  refine ⟨⟨h.stream.shut, fun hc => ?_, fun _ => hdone, fun _ _ _ => hdone⟩,
    ⟨fun hr => hr, fun _ => hdone, ?_⟩, hdone⟩
  · show s.out.shut.buf.closed = true
    rw [hbuf]
    exact h.closing hc
  · show s.out.buf.Settles s.out.shut.buf
    rw [hbuf]
    exact .refl _

theorem Base.level (h : Base s) {i : Nat} (hcl : (s.level i).closed = true) : s.socketDone = true := by
  unfold State.level at hcl
  rw [getD_eq_getElem?_getD] at hcl
  cases hi : s.tls[i]? with
  | none =>
    rw [hi] at hcl
    cases hcl
  | some t =>
    rw [hi] at hcl
    exact h.tls t (mem_of_getElem? hi) hcl

theorem Base.setLevel (h : Base s) (i : Nat) (t : Tls)
    (ht : t.closed = true → (s.level i).closed = true ∨ s.socketDone = true) :
    Base (s.setLevel i t) ∧ Moves s (s.setLevel i t) := by
  refine ⟨⟨h.stream, h.closing, h.core, fun t' ht' hcl => ?_⟩, .of_eq rfl rfl rfl rfl⟩
  rcases mem_or_eq_of_mem_set ht' with hmem | rfl
  · exact h.tls t' hmem hcl
  · exact (ht hcl).elim h.level id

theorem closeFrames_spec (paired : Bool) (i : Nat) :
    (∀ f ∈ (closeFrames paired i : List (Frame β)), f.ofWait = false ∧ f.needsClosed = false ∧ f ≠ .arm) ∧
      (paired = true → ∃ f ∈ (closeFrames paired i : List (Frame β)), f.toReader = true) := by
  cases i with
  | zero =>
    cases paired with
    | false =>
      refine ⟨fun f hf => ?_, fun h => by cases h⟩
      obtain rfl := mem_singleton.1 hf
      exact ⟨rfl, rfl, nofun⟩
    | true =>
      refine ⟨fun f hf => ?_, fun _ => ⟨.recvClose, mem_cons_self, rfl⟩⟩
      rcases mem_cons.1 hf with rfl | hf
      · exact ⟨rfl, rfl, nofun⟩
      · obtain rfl := mem_singleton.1 hf
        exact ⟨rfl, rfl, nofun⟩
  | succ i =>
    refine ⟨fun f hf => ?_, fun _ => ⟨.tlsClose i, mem_cons_self, rfl⟩⟩
    obtain rfl := mem_singleton.1 hf
    exact ⟨rfl, rfl, nofun⟩

theorem readerFrames_spec (i : Nat) :
    (∀ f ∈ (readerFrames i : List (Frame β)), f.ofWait = false ∧ f.needsClosed = false ∧ f ≠ .arm) ∧
      ∃ f ∈ (readerFrames i : List (Frame β)), f.toReader = true := by
  cases i with
  | zero =>
    refine ⟨fun f hf => ?_, .recvClose, mem_cons_self, rfl⟩
    obtain rfl := mem_singleton.1 hf
    exact ⟨rfl, rfl, nofun⟩
  | succ i =>
    refine ⟨fun f hf => ?_, .tlsClose i, mem_cons_self, rfl⟩
    obtain rfl := mem_singleton.1 hf
    exact ⟨rfl, rfl, nofun⟩

theorem waitFrames_spec (i : Nat) : ∃ f : Frame β, waitFrames i = [f] ∧ f.toSocket = true ∧
    f.needsClosed = false ∧ f ≠ .arm := by
  cases i with
  | zero => exact ⟨.coreWait, rfl, rfl, rfl, nofun⟩
  | succ i => exact ⟨.tlsWait i, rfl, rfl, rfl, nofun⟩

theorem guarded_of_free {p : Prop} (h : ∀ f ∈ frames, f.needsClosed = false) : Guarded p frames := by
  induction frames generalizing p with
  | nil => trivial
  | cons f rest ih =>
    refine ⟨fun hf => ?_, ih fun g hg => h g (mem_cons_of_mem f hg)⟩
    rw [h f mem_cons_self] at hf
    cases hf

theorem Good.close (h : Good s caller (f :: rest)) (hm : Moves s s')
    (hframes : ∀ g ∈ frames, g.ofWait = false ∧ g.needsClosed = false ∧ g ≠ .arm)
    (hreader : f.toReader = true → s'.readerDone = true ∨ ∃ g ∈ frames, g.toReader = true)
    (hf : f.toSocket = false) (hf' : f.closesBuffer = false) : Good s' caller (frames ++ rest) := by
  refine h.next hm (fun _ => hreader) (fun hto => ?_) (fun g hg hw => ?_) ?_
    (guarded_of_free fun g hg => (hframes g hg).2.1) (fun hb => ?_)
    fun g hg hga => absurd hga (hframes g hg).2.2
  · rw [hf] at hto
    cases hto
  · rw [(hframes g hg).1] at hw
    cases hw
  · refine pairwise_of_forall_mem_list fun g hg _ _ hw => ?_
    rw [(hframes g hg).1] at hw
    cases hw
  · rw [hf'] at hb
    cases hb

theorem Good.wait (h : Good s caller (f :: rest)) (hm : Moves s s') (hf : f.ofWait = true)
    (hf' : f.toReader = false) (hf'' : f.closesBuffer = false)
    (hsocket : s'.socketDone = true ∨ ∃ g ∈ frames, g.toSocket = true)
    (horder : frames.Pairwise fun g g' => g.ofWait = true → g'.waited = true)
    (hguarded : Guarded (s'.out.buf.closed = true) frames)
    (harm : ∀ g ∈ frames, g = .arm → s'.out.buf.closed = true ∧ s'.out.buf.Resting) :
    Good s' caller (frames ++ rest) := by
  refine h.next hm (fun _ hto => ?_) (fun _ => hsocket) (fun _ _ _ => hf) horder hguarded
    (fun hb => ?_) harm
  · rw [hf'] at hto
    cases hto
  · rw [hf''] at hb
    cases hb

theorem Base.coreClose (h : Base s) (x : Kinds ε) :
    Base { s with closing := true, out := SendBuffer.call x.toErrors s.out .close } ∧
      Moves s { s with closing := true, out := SendBuffer.call x.toErrors s.out .close } ∧
      (SendBuffer.call x.toErrors s.out .close).buf.closed = true := by
  have hclosed : (SendBuffer.call x.toErrors s.out .close).buf.closed = true := by
    show (SendBuffer.closeSection s.out.buf).buf.closed = true
    rw [SendBuffer.closeSection_buf]
  exact ⟨⟨h.stream.call x.toErrors .close, fun _ => hclosed, h.core, h.tls⟩,
    ⟨fun hr => hr, fun hs => hs, SendBuffer.settles_call x.toErrors s.out .close⟩, hclosed⟩

theorem Base.steal (h : Base s) (x : Kinds ε) (hnone : s.out.buf.sendError = none) :
    Base { s with out := SendBuffer.call x.toErrors s.out .stealPending } ∧
      Moves s { s with out := SendBuffer.call x.toErrors s.out .stealPending } ∧
      (SendBuffer.call x.toErrors s.out .stealPending).buf.Resting := by
  have hsettles := SendBuffer.settles_call x.toErrors s.out .stealPending
  refine ⟨⟨h.stream.call x.toErrors .stealPending, fun hc => hsettles.closed (h.closing hc), h.core, h.tls⟩,
    ⟨fun hr => hr, fun hs => hs, hsettles⟩, ?_⟩
  simp only [SendBuffer.call, hnone, Option.isSome_none, Bool.false_eq_true, false_or]
  split
  · rename_i hactive
    exact fun _ => .inl hactive
  · exact fun _ => .inr rfl

theorem Base.arm (h : Base s) (hnone : s.out.buf.sendError = none) (hrest : s.out.buf.Resting)
    (hbusy : ¬ (s.out.buf.active = false ∧ s.out.buf.held = [])) (hs : s' = { s with
      out :=
        { s.out with
          buf := (SendBuffer.armSection s.out.buf).buf
          trace := { s.out.trace with armed := true } }
      armed := some s.out.legs }) :
    Base s' ∧ Moves s s' ∧ s'.socketDone = true := by
  have hactive : s.out.buf.active = true := by
    rcases hrest hnone with hactive | hnil
    · exact hactive
    · by_contra hidle
      exact hbusy ⟨by simpa using hidle, hnil⟩
  have hone := (h.stream.active hnone).1 hactive
  have harm : (SendBuffer.armSection s.out.buf).buf = { s.out.buf with closeWhenIdle := true } := by
    simp [SendBuffer.armSection, hnone, hbusy, SendBuffer.Section.pass]
  have hsettles := SendBuffer.settles_arm s.out.buf
  subst hs
  have hdone : ({ s with
      out :=
        { s.out with
          buf := (SendBuffer.armSection s.out.buf).buf
          trace := { s.out.trace with armed := true } }
      armed := some s.out.legs } : State β ε).socketDone = true := by
    simp [State.socketDone, hone]
  refine ⟨⟨⟨h.stream.shape, h.stream.legs, ?_, ?_, ?_⟩, fun hc => hsettles.closed (h.closing hc),
    fun _ => hdone,
    fun _ _ _ => hdone⟩, ⟨fun hr => hr, fun _ => hdone, hsettles⟩, hdone⟩
  · rw [harm]
    exact h.stream.active
  · rw [harm]
    exact h.stream.bytes
  · rw [harm]
    exact h.stream.counted

theorem Base.work (h : Base s) (hgood : Good s caller (f :: rest))
    (hbusy : caller.closes = true → s.busy f = false) (hw : s.work x f = .ok (s', frames)) :
    Worked s s' caller (frames ++ rest) := by
  have hsame : Moves s s := .of_eq rfl rfl rfl rfl
  have hno : ∀ {P : Prop}, false = true → P := fun h => by cases h
  -- what the frame needs
  have hclosed := hgood.guarded.1
  cases f with
  | recvClose =>
    cases hw
    have hm : Moves s { s with readerClosed := true } :=
      ⟨fun _ => by simp [State.readerDone], fun hs => hs, .refl _⟩
    exact ⟨⟨h.stream, h.closing, h.core, h.tls⟩, hm, rfl,
      hgood.leave hm (fun _ _ => by simp [State.readerDone]) hno hno⟩
  | coreClose =>
    simp only [State.work] at hw
    split at hw
    · rename_i hflag
      cases hw
      exact ⟨h, hsame, rfl, hgood.leave hsame (fun _ => hno) hno fun _ => h.closing (by simpa using hflag)⟩
    · cases hw
      rcases h.coreClose x with ⟨hbase, hm, hcl⟩
      exact ⟨hbase, hm, rfl, hgood.leave hm (fun _ => hno) hno fun _ => hcl⟩
  | tlsClose i =>
    simp only [State.work] at hw
    split at hw
    · rename_i hflag
      cases hw
      refine ⟨h, hsame, rfl, hgood.leave hsame (fun hc _ => ?_) hno hno⟩
      have hopen := hbusy hc
      simp only [State.busy, hflag, Bool.true_and, Bool.not_eq_false'] at hopen
      exact hopen
    · cases hw
      rcases h.setLevel i { s.level i with closing := true } .inl with ⟨hbase, hm⟩
      refine ⟨hbase, hm, rfl, hgood.close hm (fun g hg => ?_) (fun _ => .inr ?_) rfl rfl⟩
      · rcases mem_append.1 hg with hg | hg
        · rcases mem_append.1 hg with hg | hg
          · split at hg
            · cases hg
            · rcases mem_cons.1 hg with rfl | hg
              · exact ⟨rfl, rfl, by rintro ⟨⟩⟩
              · obtain rfl := mem_singleton.1 hg
                exact ⟨rfl, rfl, by rintro ⟨⟩⟩
          · exact (readerFrames_spec i).1 g hg
        · exact (closeFrames_spec s.paired i).1 g hg
      · rcases (readerFrames_spec (β := β) i).2 with ⟨g, hg, hto⟩
        exact ⟨g, mem_append_left _ (mem_append_right _ hg), hto⟩
  | tlsUnwrap i | tlsFlush i =>
    cases hw
    exact ⟨h, hsame, rfl, hgood.leave hsame (fun _ => hno) hno hno⟩
  | tlsWait i =>
    simp only [State.work] at hw
    split at hw
    · rename_i hflag
      cases hw
      exact ⟨h, hsame, rfl, hgood.leave hsame (fun _ => hno) (fun _ => h.level hflag) hno⟩
    · cases hw
      refine ⟨h, hsame, rfl, hgood.wait hsame rfl rfl rfl (.inr ⟨.tlsTry i, by simp, rfl⟩) ?_ ?_ ?_⟩
      · split <;> simp [Frame.ofWait, Frame.toSocket, Frame.marks]
      · split <;> simp [Guarded, Frame.needsClosed]
      · split <;> simp
  | tlsTry i =>
    cases hw
    rcases waitFrames_spec (β := β) i with ⟨g, heq, hto, hneeds, hne⟩
    rw [heq]
    refine ⟨h, hsame, rfl, hgood.wait hsame rfl rfl rfl (.inr ⟨g, by simp, hto⟩) ?_ ?_ ?_⟩
    · simp [Frame.waited]
    · have hfree : Guarded (s.out.buf.closed = true) [g] := guarded_of_free (by simpa using hneeds)
      exact hfree.append ⟨hno, trivial⟩
    · simp only [singleton_append, mem_cons, not_mem_nil, or_false, forall_eq_or_imp, forall_eq]
      exact ⟨fun hga => absurd hga hne, fun harm => by cases harm⟩
  | tlsWaited i =>
    cases hw
    have hdone := hgood.marked rfl
    rcases h.setLevel i { s.level i with closed := true } fun _ => .inr hdone with ⟨hbase, hm⟩
    exact ⟨hbase, hm, rfl, hgood.leave hm (fun _ => hno) hno hno⟩
  | coreWait =>
    simp only [State.work] at hw
    split at hw
    · rename_i hflag
      cases hw
      exact ⟨h, hsame, rfl, hgood.leave hsame (fun _ => hno) (fun _ => h.core hflag) hno⟩
    · cases hw
      refine ⟨h, hsame, rfl, hgood.wait hsame rfl rfl rfl (.inr ⟨.steal, by simp, rfl⟩) ?_ ?_ ?_⟩
      · split <;> simp [Frame.ofWait, Frame.toSocket, Frame.marks]
      · split
        · rename_i hclosing
          simp [Guarded, h.closing (.inl hclosing)]
        · simp [Guarded, Frame.needsClosed, Frame.closesBuffer]
      · split <;> simp
  | steal =>
    have hcl := hclosed rfl
    simp only [State.work] at hw
    split at hw
    · cases hw
    · rename_i hnone
      cases hw
      rcases h.steal x hnone with ⟨hbase, hm, hrest⟩
      have hcl' := hm.buf.closed hcl
      refine ⟨hbase, hm, rfl, hgood.wait hm rfl rfl rfl (.inr ?_) ?_ ?_ ?_⟩
      · split
        · exact ⟨.arm, by simp, rfl⟩
        · exact ⟨_, mem_singleton_self _, rfl⟩
      · split <;> exact pairwise_singleton _ _
      · split <;> exact ⟨fun _ => hcl', trivial⟩
      · exact fun _ _ _ => ⟨hcl', hrest⟩
  | sendClose data | sockClose =>
    cases hw
    rcases h.shut with ⟨hbase, hm, hdone⟩
    exact ⟨hbase, hm, rfl, hgood.wait hm rfl rfl rfl (.inl hdone) (pairwise_singleton _ _)
      ⟨fun _ => hm.buf.closed (hclosed rfl), trivial⟩ (by simp)⟩
  | arm =>
    rcases hgood.arm .arm mem_cons_self rfl with ⟨hcl, hrest⟩
    simp only [State.work] at hw
    split at hw
    · cases hw
    · rename_i hnone
      split at hw
      · cases hw
        exact ⟨h, hsame, rfl, hgood.wait hsame rfl rfl rfl (.inr ⟨.sockClose, by simp, rfl⟩)
          (pairwise_singleton _ _) ⟨fun _ => hcl, trivial⟩ (by simp)⟩
      · rename_i hnot
        cases hw
        rcases h.arm hnone hrest hnot rfl with ⟨hbase, hm, hdone⟩
        exact ⟨hbase, hm, rfl, hgood.wait hm rfl rfl rfl (.inl hdone) (pairwise_singleton _ _)
          ⟨fun _ => hm.buf.closed hcl, trivial⟩ (by simp)⟩
  | coreClosed =>
    cases hw
    have hdone := hgood.marked rfl
    have hm : Moves s { s with closed := true } := .of_eq rfl rfl rfl rfl
    exact ⟨⟨h.stream, fun _ => hclosed rfl, fun _ => hdone, h.tls⟩, hm, rfl,
      hgood.leave hm (fun _ => hno) hno hno⟩

end Work

/-! ## Runs -/

section Rules

variable {x : Kinds ε} {s s' : State β ε} {caller : Caller} {f : Frame β}
    {rest frames : List (Frame β)} {e : ε}

theorem work_done (h : Base s) (hgood : Good s caller (f :: rest)) (hw : s.work x f = .ok (s', frames)) :
    (f.closesReader (.late e) = true → s'.readerDone = true) ∧
      (s.closesSocket f (.late e) = true → s'.socketDone = true) := by
  have hno : ∀ {P : Prop}, false = true → P := fun h => by cases h
  cases f with
  | recvClose =>
    cases hw
    exact ⟨fun _ => by simp [State.readerDone], hno⟩
  | sendClose data | sockClose =>
    cases hw
    exact ⟨hno, fun _ => h.shut.2.2⟩
  | arm =>
    refine ⟨hno, fun hc => ?_⟩
    have hrest := (hgood.arm .arm mem_cons_self rfl).2
    simp only [State.work] at hw
    split at hw
    · cases hw
    · rename_i hnone
      split at hw
      · rename_i hidle
        simp [State.closesSocket, hidle] at hc
      · rename_i hnot
        cases hw
        exact (h.arm hnone hrest hnot rfl).2.2
  | _ => exact ⟨hno, hno⟩

theorem error_of_work (hw : s.work x f = .error e) :
    s.escapes x f .ok = true ∧ f.catches x e = false := by
  cases f with
  | steal | arm =>
    simp only [State.work] at hw
    split at hw
    · rename_i e' herr
      exact ⟨by simp [State.escapes, herr], rfl⟩
    · first
        | cases hw
        | (split at hw <;> cases hw)
  | coreClose | tlsClose | tlsWait | coreWait =>
    simp only [State.work] at hw
    split at hw <;> cases hw
  | _ => cases hw

theorem done_work (hw : s.work x f = .ok (s', frames)) :
    (s'.readerDone = true → s.readerDone = true ∨ f.closesReader (.late e) = true) ∧
      (s'.socketDone = true → s.socketDone = true ∨ s.closesSocket f (.late e) = true) := by
  cases f with
  | recvClose =>
    cases hw
    exact ⟨fun _ => .inr rfl, .inl⟩
  | sendClose data | sockClose =>
    cases hw
    exact ⟨.inl, fun _ => .inr rfl⟩
  | arm =>
    simp only [State.work] at hw
    split at hw
    · cases hw
    · split at hw
      · cases hw
        exact ⟨.inl, .inl⟩
      · rename_i hnot
        cases hw
        refine ⟨.inl, fun _ => .inr ?_⟩
        show (s.out.buf.active || !s.out.buf.held.isEmpty) = true
        by_contra hno
        simp only [Bool.or_eq_true, Bool.not_eq_true', not_or, Bool.not_eq_true, Bool.not_eq_false,
          List.isEmpty_iff] at hno
        exact hnot hno
  | steal =>
    simp only [State.work] at hw
    split at hw
    · cases hw
    · cases hw
      exact ⟨.inl, .inl⟩
  | coreClose | tlsClose | tlsWait | coreWait =>
    simp only [State.work] at hw
    split at hw <;> (cases hw; exact ⟨.inl, .inl⟩)
  | tlsUnwrap | tlsFlush | tlsTry | tlsWaited | coreClosed =>
    cases hw
    exact ⟨.inl, .inl⟩

theorem unwind_spec (x : Kinds ε) (e : ε)
    (horder : rest.Pairwise fun f g : Frame β => f.ofWait = true → g.waited = true) :
    ∀ g ∈ unwind x e rest, g.waited = true ∧ g ∈ rest := by
  induction rest with
  | nil => exact fun g hg => absurd hg not_mem_nil
  | cons f rest ih =>
    rcases pairwise_cons.1 horder with ⟨hfirst, hrest⟩
    have htail : ∀ g ∈ unwind x e rest, g.waited = true ∧ g ∈ f :: rest :=
      fun g hg => (ih hrest g hg).imp_right (mem_cons_of_mem f)
    cases f with
    | tlsWaited i =>
      intro g hg
      simp only [unwind] at hg
      split at hg
      · refine ⟨?_, hg⟩
        rcases mem_cons.1 hg with rfl | hg
        · rfl
        · exact hfirst g hg rfl
      · exact htail g hg
    | _ => exact htail

theorem Base.setCall {k : Nat} {c : Call β ε} (h : Base s)
    (hcalls : ∀ c ∈ s.calls, Good s c.caller c.frames)
    (hc : Good s c.caller c.frames) : Inv (s.setCall k c) := by
  have hm : Moves s (s.setCall k c) := .of_eq rfl rfl rfl rfl
  refine ⟨⟨h.stream, h.closing, h.core, h.tls⟩, fun c' hc' => ?_⟩
  rcases mem_or_eq_of_mem_set hc' with hmem | rfl
  · exact (hcalls c' hmem).move hm
  · exact hc.move hm

theorem Base.raise {k : Nat} (h : Base s') (hcalls : ∀ c ∈ s'.calls, Good s' c.caller c.frames)
    (hm : Moves s s') (hgood : Good s caller (f :: rest))
    (hdone : f.catches x e = false →
      (caller.closes = true → s'.readerDone = true) ∧ (caller.waits = true → s'.socketDone = true)) :
    Inv (s'.raise x k caller f rest e) := by
  unfold State.raise
  split
  · rename_i hcatch
    refine h.setCall hcalls (hgood.leave hm (fun _ hto => ?_) (fun hto => ?_) fun hto => ?_)
    all_goals cases f <;> simp_all [Frame.catches, Frame.toReader, Frame.toSocket, Frame.closesBuffer]
  · rename_i hcatch
    rcases hdone (by simpa using hcatch) with ⟨hreader, hsocket⟩
    have hspec := unwind_spec x e (pairwise_cons.1 hgood.order).2
    split
    · exact h.setCall hcalls (good_of_waited hreader hsocket (by simp) (by simp))
    · rename_i g tail heq
      rw [heq] at hspec
      refine h.setCall hcalls (good_of_waited hreader hsocket (fun g' hg' => (hspec g' hg').1) fun _ => ?_)
      rcases hspec g mem_cons_self with ⟨hwaited, hmem⟩
      refine hgood.waits g (mem_cons_of_mem f hmem) ?_
      cases g <;> simp_all [Frame.waited, Frame.ofWait, Frame.marks]

theorem sockOpen_step {y : SendBuffer.Errors ε} {b b' : SendBuffer.State β ε} {a : SendBuffer.Act β ε}
    (hs : SendBuffer.step y b a = some b') (hclosed : b.sockOpen = false) : b'.sockOpen = false := by
  have hshut := (SendBuffer.shut_fields b).1
  cases a with
  | call op =>
    cases hs
    cases op with
    | write data =>
      cases data with
      | nil => exact hclosed
      | cons d data =>
        simp only [SendBuffer.call]
        split <;> exact hclosed
    | writeEof | waitClosed =>
      simp only [SendBuffer.call]
      split <;> exact hclosed
    | _ => exact hclosed
  | completed | sendFailed | throw =>
    simp only [SendBuffer.step] at hs
    split at hs
    · cases hs
      exact hclosed
    · cases hs
  | run k reply =>
    simp only [SendBuffer.step] at hs
    split at hs
    · cases SendBuffer.ran_of_run hs with
      | closeRaises | closes | closeQuiet | sendCloses => exact hshut
      | _ => exact hclosed
    · cases hs

theorem Inv.other {a : SendBuffer.Act β ε} {out : SendBuffer.State β ε} (h : Inv s)
    (hs : SendBuffer.step x.toErrors s.out a = some out) : Inv { s with out } := by
  have hsettles := SendBuffer.settles_step hs
  have hm : Moves s { s with out } := by
    refine ⟨fun hr => hr, fun hdone => ?_, hsettles⟩
    simp only [State.socketDone, Bool.or_eq_true, Bool.not_eq_true'] at hdone ⊢
    exact hdone.imp_left (sockOpen_step hs)
  exact ⟨⟨h.stream.step hs, fun hc => hsettles.closed (h.closing hc), fun hc => hm.socket (h.core hc),
    fun t ht hc => hm.socket (h.tls t ht hc)⟩, fun c hc => (h.calls c hc).move hm⟩

theorem good_callFrames (s : State β ε) (caller : Caller) (i : Nat) :
    Good s caller (callFrames s.paired i caller) := by
  rcases waitFrames_spec (β := β) i with ⟨g, heq, hto, hneeds, hne⟩
  rcases closeFrames_spec (β := β) s.paired i with ⟨hclose, hreader⟩
  have hdone : s.readerDone = true ∨ ∃ f ∈ (closeFrames s.paired i : List (Frame β)),
      f.toReader = true := by
    cases hp : s.paired with
    | false => exact .inl (by simp [State.readerDone, hp])
    | true => exact .inr (hp ▸ hreader hp)
  have horder : (closeFrames s.paired i : List (Frame β)).Pairwise
      fun f g => f.ofWait = true → g.waited = true := by
    refine pairwise_of_forall_mem_list fun f hf _ _ hw => ?_
    rw [(hclose f hf).1] at hw
    cases hw
  have hwait : ∀ f ∈ (closeFrames s.paired i : List (Frame β)), f.ofWait = true → caller.waits = true := by
    intro f hf hw
    rw [(hclose f hf).1] at hw
    cases hw
  cases caller with
  | close =>
    exact ⟨fun _ => hdone, (fun hc => by cases hc), hwait, horder,
      guarded_of_free fun f hf => (hclose f hf).2.1,
      fun f hf hfa => absurd hfa (hclose f hf).2.2⟩
  | waitClosed =>
    simp only [callFrames, heq]
    refine ⟨(fun hc => by cases hc), fun _ => .inr ⟨g, by simp, hto⟩, fun _ _ _ =>
      rfl, pairwise_singleton _ _,
      guarded_of_free (by simpa using hneeds), fun f hf hfa => ?_⟩
    obtain rfl := mem_singleton.1 hf
    exact absurd hfa hne
  | shutdown bestEffort =>
    simp only [callFrames, heq]
    refine ⟨fun _ => hdone.imp_right (Exists.imp fun _ => And.imp_left (mem_append_left _)),
      fun _ => .inr ⟨g, by simp, hto⟩, fun _ _ _ => rfl, ?_, guarded_of_free fun f hf => ?_,
      fun f hf hfa => ?_⟩
    · refine pairwise_append.2 ⟨horder, pairwise_singleton _ _, fun f hf _ _ hw => ?_⟩
      rw [(hclose f hf).1] at hw
      cases hw
    · rcases mem_append.1 hf with hf | hf
      · exact (hclose f hf).2.1
      · obtain rfl := mem_singleton.1 hf
        exact hneeds
    · rcases mem_append.1 hf with hf | hf
      · exact absurd hfa (hclose f hf).2.2
      · obtain rfl := mem_singleton.1 hf
        exact absurd hfa hne

theorem Inv.go {k : Nat} {reply : Reply ε} (h : Inv s) (hgood : Good s caller (f :: rest))
    (hbusy : caller.closes = true → s.busy f = false)
    (hclear : s.escapes x f reply = true →
      (caller.closes = true → s.readerDone = true ∨ f.closesReader reply = true) ∧
        (caller.waits = true → s.socketDone = true ∨ s.closesSocket f reply = true))
    (hs : s.go x k caller f rest reply = some s') : Inv s' := by
  cases reply with
  | ok =>
    simp only [State.go] at hs
    split at hs
    · rename_i s₁ frames hw
      cases hs
      rcases h.toBase.work hgood hbusy hw with ⟨hbase, hm, hcalls, hnew⟩
      refine hbase.setCall (fun c hc => ?_) hnew
      rw [hcalls] at hc
      exact (h.calls c hc).move hm
    · rename_i e hw
      cases hs
      rcases error_of_work hw with ⟨hesc, -⟩
      rcases hclear hesc with ⟨hreader, hsocket⟩
      exact h.toBase.raise h.calls (.of_eq rfl rfl rfl rfl) hgood fun _ =>
        ⟨fun hc => (hreader hc).resolve_right nofun, fun hc => (hsocket hc).resolve_right nofun⟩
  | raises e =>
    cases hs
    refine h.toBase.raise h.calls (.of_eq rfl rfl rfl rfl) hgood fun hcatch => ?_
    rcases hclear (by simp [State.escapes, hcatch]) with ⟨hreader, hsocket⟩
    exact ⟨fun hc => (hreader hc).resolve_right nofun, fun hc => (hsocket hc).resolve_right nofun⟩
  | late e =>
    simp only [State.go] at hs
    split at hs
    · rename_i s₁ frames hw
      cases hs
      rcases h.toBase.work hgood hbusy hw with ⟨hbase, hm, hcalls, -⟩
      refine hbase.raise (fun c hc => ?_) hm hgood fun hcatch => ?_
      · rw [hcalls] at hc
        exact (h.calls c hc).move hm
      · rcases hclear (by simp [State.escapes, hcatch]) with ⟨hreader, hsocket⟩
        have hdone := work_done (e := e) h.toBase hgood hw
        exact ⟨fun hc => (hreader hc).elim hm.reader hdone.1, fun hc => (hsocket hc).elim hm.socket hdone.2⟩
    · cases hs

theorem Inv.step {a : Action β ε} (h : Inv s) (hc : s.Clear x a) (hs : step x s a = some s') : Inv s' := by
  cases a with
  | call caller i =>
    simp only [Shutdown.step] at hs
    split at hs
    · cases hs
      have hm :
          Moves s { s with calls := s.calls ++
            [{ caller, frames := callFrames s.paired i caller }] } :=
        .of_eq rfl rfl rfl rfl
      refine ⟨⟨h.stream, h.closing, h.core, h.tls⟩, fun c hc' => ?_⟩
      rcases mem_append.1 hc' with hmem | hnew
      · exact (h.calls c hmem).move hm
      · obtain rfl := mem_singleton.1 hnew
        exact good_callFrames _ caller i
    · cases hs
  | go k reply =>
    simp only [Shutdown.step] at hs
    split at hs
    · rename_i caller f rest raised hk
      simp only [State.Clear, hk] at hc
      rcases hc with ⟨hbusy, hclear⟩
      have hgood : Good s caller (f :: rest) := h.calls _ (mem_of_getElem? hk)
      exact h.go hgood hbusy hclear hs
    · cases hs
  | other a =>
    simp only [Shutdown.step] at hs
    split at hs
    · rcases Option.map_eq_some_iff.1 hs with ⟨out, hout, rfl⟩
      exact h.other hout
    · cases hs
  | unwrap i =>
    cases hs
    rcases h.setLevel i { s.level i with unwrapped := true } .inl with ⟨hbase, hm⟩
    exact ⟨hbase, fun c hc' => (h.calls c hc').move hm⟩

/-! ## Streams without TLS -/

/-- The frames of a stream without TLS. -/
def Frame.isPlain : Frame β → Bool
  | .tlsClose _ | .tlsUnwrap _ | .tlsFlush _ | .tlsWait _ | .tlsTry _ | .tlsWaited _ => false
  | _ => true

/-- There is no TLS, and no call comes to it. -/
structure Plain (s : State β ε) : Prop where
  tls : s.tls = []
  calls : ∀ c ∈ s.calls, ∀ f ∈ c.frames, f.isPlain = true

theorem unwind_plain (h : ∀ g ∈ rest, g.isPlain = true) : unwind x e rest = [] := by
  induction rest with
  | nil => rfl
  | cons f rest ih =>
    have hrest := ih fun g hg => h g (mem_cons_of_mem f hg)
    have hf := h f mem_cons_self
    cases f with
    | tlsWaited i => cases hf
    | _ => exact hrest

theorem work_plain (hf : f.isPlain = true) (hw : s.work x f = .ok (s', frames)) :
    s'.tls = s.tls ∧ s'.calls = s.calls ∧ ∀ g ∈ frames, g.isPlain = true := by
  cases f with
  | tlsClose | tlsUnwrap | tlsFlush | tlsWait | tlsTry | tlsWaited => cases hf
  | coreClose =>
    simp only [State.work] at hw
    split at hw <;> (cases hw; exact ⟨rfl, rfl, by simp⟩)
  | coreWait =>
    simp only [State.work] at hw
    split at hw <;> cases hw
    · exact ⟨rfl, rfl, by simp⟩
    · refine ⟨rfl, rfl, ?_⟩
      split <;> simp [Frame.isPlain]
  | steal =>
    simp only [State.work] at hw
    split at hw <;> cases hw
    refine ⟨rfl, rfl, ?_⟩
    split <;> simp [Frame.isPlain]
  | arm =>
    simp only [State.work] at hw
    split at hw
    · cases hw
    · split at hw <;> cases hw
      · exact ⟨rfl, rfl, by simp [Frame.isPlain]⟩
      · exact ⟨rfl, rfl, by simp [Frame.isPlain]⟩
  | recvClose | coreClosed | sendClose | sockClose =>
    cases hw
    exact ⟨rfl, rfl, by simp [Frame.isPlain]⟩

theorem raise_plain {k : Nat} (hf : f.isPlain = true) (hrest : ∀ g ∈ rest, g.isPlain = true) :
    s.raise x k caller f rest e = s.setCall k { caller, frames := [], raised := caller.raises x e } := by
  have hcatch : f.catches x e = false := by cases f <;> simp_all [Frame.isPlain, Frame.catches]
  simp [State.raise, hcatch, unwind_plain hrest]

theorem Plain.setCall {k : Nat} {c : Call β ε} (htls : s.tls = [])
    (hcalls : ∀ c ∈ s.calls, ∀ f ∈ c.frames, f.isPlain = true) (hc : ∀ f ∈ c.frames, f.isPlain = true) :
    Plain (s.setCall k c) := by
  refine ⟨htls, fun c' hc' => ?_⟩
  rcases mem_or_eq_of_mem_set hc' with hmem | rfl
  · exact hcalls c' hmem
  · exact hc

theorem go_plain {k : Nat} {reply : Reply ε} (hf : f.isPlain = true) (hrest : ∀ g ∈ rest, g.isPlain = true)
    (hs : s.go x k caller f rest reply = some s') :
    (s.escapes x f reply = false ∧ ∃ s₁ frames, s.work x f = .ok (s₁, frames) ∧
        s' = s₁.setCall k { caller, frames := frames ++ rest }) ∨
      ∃ (s₁ : State β ε) (raised : Option ε), s₁.tls = s.tls ∧ s₁.calls = s.calls ∧
        s' = s₁.setCall k { caller, frames := [], raised } ∧
        (s₁.readerDone = true → s.readerDone = true ∨ f.closesReader reply = true) ∧
        (s₁.socketDone = true → s.socketDone = true ∨ s.closesSocket f reply = true) := by
  cases reply with
  | ok =>
    simp only [State.go] at hs
    split at hs
    · rename_i s₁ frames hw
      cases hs
      refine .inl ⟨?_, s₁, frames, hw, rfl⟩
      cases f with
      | steal | arm =>
        simp only [State.work] at hw
        split at hw
        · cases hw
        · rename_i hnone
          simp [State.escapes, hnone]
      | _ => rfl
    · cases hs
      rw [raise_plain hf hrest]
      exact .inr ⟨s, _, rfl, rfl, rfl, .inl, .inl⟩
  | raises e =>
    cases hs
    rw [raise_plain hf hrest]
    exact .inr ⟨s, _, rfl, rfl, rfl, .inl, .inl⟩
  | late e =>
    simp only [State.go] at hs
    split at hs
    · rename_i s₁ frames hw
      cases hs
      rw [raise_plain hf hrest]
      rcases work_plain hf hw with ⟨htls, hcalls, -⟩
      exact .inr ⟨s₁, _, htls, hcalls, rfl, done_work hw⟩
    · cases hs

theorem Plain.step {a : Action β ε} (h : Plain s) (hs : Shutdown.step x s a = some s') : Plain s' := by
  cases a with
  | call caller i =>
    simp only [Shutdown.step] at hs
    split at hs
    · rename_i hi
      cases hs
      have hzero : i = 0 := by simpa [h.tls] using hi
      subst hzero
      refine ⟨h.tls, fun c hc => ?_⟩
      rcases mem_append.1 hc with hmem | hnew
      · exact h.calls c hmem
      · obtain rfl := mem_singleton.1 hnew
        cases caller <;> cases s.paired <;> simp [callFrames, closeFrames, waitFrames, Frame.isPlain]
    · cases hs
  | go k reply =>
    simp only [Shutdown.step] at hs
    split at hs
    · rename_i caller f rest raised hk
      have hcall := h.calls _ (mem_of_getElem? hk)
      have hf := hcall f mem_cons_self
      have hrest : ∀ g ∈ rest, g.isPlain = true := fun g hg => hcall g (mem_cons_of_mem f hg)
      rcases go_plain hf hrest hs with ⟨-, s₁, frames, hw, rfl⟩ | ⟨s₁, raised, htls, hcalls, rfl, -, -⟩
      · rcases work_plain hf hw with ⟨htls, hcalls, hframes⟩
        refine .setCall (htls.trans h.tls) (hcalls ▸ h.calls) fun g hg => ?_
        exact (mem_append.1 hg).elim (hframes g) (hrest g)
      · exact .setCall (htls.trans h.tls) (hcalls ▸ h.calls) (by simp)
    · cases hs
  | other a =>
    simp only [Shutdown.step] at hs
    split at hs
    · rcases Option.map_eq_some_iff.1 hs with ⟨out, -, rfl⟩
      exact ⟨h.tls, h.calls⟩
    · cases hs
  | unwrap i =>
    cases hs
    exact ⟨by simp [State.setLevel, h.tls], h.calls⟩

theorem Plain.breaks {a : Action β ε} (h : Plain s) (hc : ¬ s.Clear x a)
    (hs : Shutdown.step x s a = some s') :
    ¬ Released s' := by
  cases a with
  | go k reply =>
    simp only [Shutdown.step] at hs
    split at hs
    · rename_i caller f rest raised hk
      have hcall := h.calls _ (mem_of_getElem? hk)
      have hf := hcall f mem_cons_self
      have hrest : ∀ g ∈ rest, g.isPlain = true := fun g hg => hcall g (mem_cons_of_mem f hg)
      have hbusy : s.busy f = false := by cases f <;> simp_all [Frame.isPlain, State.busy]
      simp only [State.Clear, hk] at hc
      rcases go_plain hf hrest hs with ⟨hesc, -⟩ | ⟨s₁, raised, -, hcalls, rfl, hreader, hsocket⟩
      · exact absurd ⟨fun _ => hbusy, fun he => by simp [hesc] at he⟩ hc
      · intro hall
        have hmem : ({ caller, frames := [], raised } : Call β ε) ∈
            (s₁.setCall k { caller, frames := [], raised }).calls := by
          have hlt := (List.getElem?_eq_some_iff.1 hk).1
          refine mem_of_getElem? (i := k) ?_
          exact List.getElem?_set_self (by rw [hcalls]; exact hlt)
        rcases hall _ hmem rfl with ⟨hr, hw⟩
        exact hc ⟨fun _ => hbusy, fun _ => ⟨fun hcl => hreader (hr hcl), fun hwt => hsocket (hw hwt)⟩⟩
    · cases hs
  | _ => exact absurd trivial hc

end Rules

/-- Over any run, from a fresh stream with any number of TLS levels: if no exception leaves a frame
of `close`, `wait_closed` or `shutdown_stream_writer` before the reader is closed and the socket
seen to, and no TLS `close` finds another one under way, then every such call that has returned or
raised has released the stream.  Without TLS the condition is exact. -/
theorem shutdown_releases (x : Kinds ε) (highWater lowWater : Int) (minWrite : Nat) (paired : Bool)
    (levels : Nat) (as : List (Action β ε)) :
    (Along (step x) (State.Clear x) (init highWater lowWater minWrite paired levels) as →
        Always (step x) Released (init highWater lowWater minWrite paired levels) as) ∧
      (levels = 0 →
        (Always (step x) Released (init highWater lowWater minWrite paired levels) as →
          Along (step x) (State.Clear x) (init highWater lowWater minWrite paired levels) as)) := by
  refine ⟨always_of_along (fun _ h => h.released) (fun _ _ _ h hc hs => h.step hc hs) as _
    (Inv.init highWater lowWater minWrite paired levels), fun hzero => ?_⟩
  subst hzero
  refine (always_iff_along (I := fun s => Inv s ∧ Plain s) (fun s h => h.1.released)
    (fun s a s' h hc hs => ⟨h.1.step hc hs, h.2.step hs⟩) (fun s a s' h hc hs => h.2.breaks hc hs) as _
    ⟨Inv.init highWater lowWater minWrite paired 0, rfl, fun c hc => absurd hc not_mem_nil⟩).1

/-- The errors of the two runs below: 7 is an SSL error (and an `OSError`), 9 an `OSError`. -/
def sampleKinds : Kinds Nat where
  closed := 0
  afterEof := 1
  limits := 2
  isOSError := fun e => e == 7 || e == 9
  isInterrupt := fun _ => false
  isSSLError := fun e => e == 7
  isException := fun _ => true

/-- A TLS stream is shut down before its handshake is done, with a leg under way and bytes behind
it: the `unwrap` fails, and the buffer is armed. -/
def busyRun : List (Action Nat Nat) :=
  [.other (.call (.write [1, 2])), .other (.run 0 .ok), .other (.call (.write [3])),
    .call (.shutdown false) 1,
    .go 0 .ok, .go 0 (.raises 7), .go 0 .ok, .go 0 .ok, .go 0 .ok, .go 0 .ok,
    .go 0 .ok, .go 0 .ok, .go 0 .ok,
    .go 0 .ok, .go 0 .ok, .go 0 .ok, .go 0 .ok]

theorem shutdown_releases_busy :
    Along (step sampleKinds) (State.Clear sampleKinds) (init 10 2 1 true 1) busyRun ∧
      Always (step sampleKinds) Released (init 10 2 1 true 1) busyRun ∧
      ∃ s, exec (step sampleKinds) (init 10 2 1 true 1) busyRun = some s ∧ s.armed = some 1 ∧
        s.calls.map Call.frames = [[]] := by
  have hclear : Along (step sampleKinds) (State.Clear sampleKinds) (init 10 2 1 true 1) busyRun := by decide
  exact ⟨hclear, (shutdown_releases sampleKinds 10 2 1 true 1 busyRun).1 hclear, _,
    rfl, by decide, by decide⟩

/-- A leg has failed, and its error is sticky: `shutdown_stream_writer` closes the reader, and
swallows the `OSError` that `steal_pending` raises again.  The socket stays open. -/
theorem sticky_error_leaks_socket :
    ∃ s, exec (step sampleKinds) (init 10 2 1 true 0)
        [.other (.call (.write [1, 2])), .other (.run 0 .ok), .other (.completed (some 9)),
          .other (.run 1 .ok),
          .other (.run 1 .ok), .call (.shutdown false) 0, .go 0 .ok, .go 0 .ok,
          .go 0 .ok, .go 0 .ok] = some s ∧
      s.calls = [⟨.shutdown false, [], none⟩] ∧ s.out.sockOpen = true ∧ s.out.legs = 0 ∧ ¬ Released s := by
  exact ⟨_, rfl, by decide, by decide, by decide, by decide⟩

end Pytealet.Streams.Shutdown
