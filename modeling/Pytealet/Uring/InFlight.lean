import Pytealet.Uring.Ledger

/-!
# InFlight — the in-flight reference of a request is dropped once

`Life.Counted` says that a completion holds one reference until its last CQE is packaged,
`Life.Owed` that nothing is left to do once it holds none.  Both are kept by every move, except that
the two tests for the last CQE of a `send_all` leg, one when it is staged and one when it is
packaged, have to agree, and that the last CQE of a zero-copy send has to be its notification.
-/

namespace Pytealet.Uring

open Lib.Transition List Bool

namespace Life

variable {l l' : Life}

/-- The reference is held until it is dropped, and it is dropped when nothing is in flight. -/
structure Counted (l : Life) : Prop where
  aux : l.countsCqes = true → l.auxRefcount = l.staged + l.built
  last : l.auxDecref = true → l.countsCqes = true ∧ l.parked = false ∧ l.flight = 0 ∧ 0 < l.staged + l.built
  once : l.released ≤ 1
  gone : l.released = 1 → l.parked = false ∧ l.flight = 0 ∧ l.staged = 0 ∧ l.built = 0
  held : l.accepted = true → l.counts = true → l.inFlight = 1 - l.released

/-- Once nothing more can come, the last CQE was noted or the reference was dropped. -/
structure Owed (l : Life) : Prop where
  due : l.countsCqes = true → l.accepted = true → l.counts = true → l.parked = false → l.flight = 0 →
    (l.kind = .sendAll → l.staged = 0) → l.auxDecref = true ∨ l.released = 1
  single : l.countsCqes = false → l.accepted = true → l.counts = true →
    l.parked.toNat + l.flight + l.staged + l.built + l.released = 1

/-- Nothing of the completion is parked, in flight or on its way to delivery. -/
def Idle (l : Life) : Prop :=
  l.parked = false ∧ l.flight = 0 ∧ l.staged = 0 ∧ l.built = 0

instance (l : Life) : Decidable l.Idle :=
  inferInstanceAs (Decidable (_ ∧ _ ∧ _ ∧ _))

theorem Counted.idle (h : l.Counted) (ho : l.Owed) (hacc : l.accepted = true) (hcounts : l.counts = true) :
    l.released ≤ 1 ∧ (l.released = 1 ↔ l.Idle) := by
  refine ⟨h.once, h.gone, ?_⟩
  rintro ⟨hparked, hflight, hstaged, hbuilt⟩
  cases hkind : l.countsCqes with
  | true =>
    rcases ho.due hkind hacc hcounts hparked hflight (fun _ => hstaged) with hlast | hdone
    · have hpos := (h.last hlast).2.2.2
      omega
    · exact hdone
  | false =>
    have hone := ho.single hkind hacc hcounts
    simp only [hparked, toNat_false] at hone
    omega

theorem parked_eq_false {n : Nat} (h : l.parked.toNat + n ≤ 1) (hn : 0 < n) : l.parked = false := by
  cases hparked : l.parked with
  | false => rfl
  | true =>
    simp only [hparked, toNat_true] at h
    omega

theorem took_pos (l : Life) : 0 < l.took.staged + l.took.built := by
  simp only [took]
  omega

theorem Counted.released_eq_zero (h : l.Counted)
    (hpos : l.parked = true ∨ 0 < l.flight + l.staged + l.built) : l.released = 0 := by
  have honce := h.once
  by_contra hne
  rcases h.gone (by omega) with ⟨hparked, hflight, hstaged, hbuilt⟩
  rcases hpos with hpos | hpos
  · rw [hparked] at hpos
    cases hpos
  · omega

theorem Counted.auxDecref_eq_false (h : l.Counted) (hpos : l.parked = true ∨ 0 < l.flight) :
    l.auxDecref = false := by
  cases hlast : l.auxDecref with
  | false => rfl
  | true =>
    rcases h.last hlast with ⟨-, hparked, hflight, -⟩
    rcases hpos with hpos | hpos
    · rw [hparked] at hpos
      cases hpos
    · omega

theorem Counted.step (h : l.Counted) (hp : l.Placed) (hs : l.Step l') : l'.Counted := by
  cases hs with
  | keep => exact h
  | park hnew =>
    rcases hp.fresh hnew with ⟨-, -, hflight, hstaged, hbuilt, haux, hlast, hin, hrel⟩
    refine ⟨fun _ => by simp [haux, hstaged, hbuilt], by simp [hlast], by simp [hrel], by simp [hrel], ?_⟩
    intro _ hcounts
    have href : l.ref = 1 := by simpa [ref] using hcounts
    simp [hin, hrel, href]
  | fill p hnew =>
    rcases hp.fresh hnew with ⟨-, -, hflight, hstaged, hbuilt, haux, hlast, hin, hrel⟩
    refine ⟨fun _ => by simp [haux, hstaged, hbuilt], by simp [hlast], by simp [hrel], by simp [hrel], ?_⟩
    intro _ hcounts
    have href : l.ref = 1 := by simpa [ref] using hcounts
    simp [hin, hrel, href]
  | copy p hparked _ =>
    have hrel := h.released_eq_zero (.inl hparked)
    have hlast := h.auxDecref_eq_false (.inl hparked)
    refine ⟨h.aux, by simp [hlast], h.once, by simp [hrel], ?_⟩
    intro _ hcounts
    exact h.held (hp.accepted_of_pos (.inl hparked)) hcounts
  | poison p hparked _ => exact ⟨h.aux, h.last, h.once, h.gone, h.held⟩

theorem Counted.cqe (h : l.Counted) (hp : l.Placed) {more decref : Bool} (hflight : 0 < l.flight)
    (hdecref : decref = true → more = false) : (l.consumed more decref).Counted := by
  have hone := hp.one
  have hrel := h.released_eq_zero (.inr (by omega))
  have hlast := h.auxDecref_eq_false (.inr hflight)
  refine ⟨?_, ?_, h.once, by simp [consumed, hrel], h.held⟩
  · intro hkind
    have haux := h.aux hkind
    simp only [consumed, show l.countsCqes = true from hkind, if_true]
    omega
  · intro hd
    cases hkind : l.countsCqes with
    | false => simp [consumed, hkind, hlast] at hd
    | true =>
      have hd' : decref = true := by simpa [consumed, hkind, hlast] using hd
      refine ⟨hkind, parked_eq_false hone hflight, ?_, by simp only [consumed]; omega⟩
      simp only [consumed, hdecref hd', false_eq_true, if_false]
      omega

theorem Counted.finished (h : l.Counted) (hp : l.Placed) (hbuilt : 0 < l.built) : l.finished.Counted := by
  have hrel := h.released_eq_zero (.inr (by omega))
  have hheld := h.held (hp.accepted_of_pos (.inr (by omega))) (hp.counts_of_pos (by omega))
  unfold Life.finished
  dsimp only
  cases hkind : l.countsCqes with
  | true =>
    have haux := h.aux hkind
    rw [if_pos rfl]
    split
    · rename_i hzero
      rcases h.last hzero.2 with ⟨-, hparked, hflight, -⟩
      refine ⟨?_, by simp [drop], by simp [drop, hrel], ?_, ?_⟩
      · intro _
        simp only [drop]
        omega
      · intro _
        refine ⟨hparked, hflight, ?_, ?_⟩
        · simp only [drop]
          omega
        · simp only [drop]
          omega
      · intro _ _
        simp only [drop, hheld, hrel]
        rfl
    · rename_i hzero
      refine ⟨?_, ?_, h.once, by simp [hrel], h.held⟩
      · intro _
        dsimp only
        omega
      · intro hlast
        have hlast' : l.auxDecref = true := hlast
        rcases h.last hlast' with ⟨-, hparked, hflight, -⟩
        refine ⟨hkind, hparked, hflight, ?_⟩
        dsimp only
        by_contra hnone
        exact hzero ⟨by omega, hlast'⟩
  | false =>
    have hone := hp.oneShot hkind
    have hlast : l.auxDecref = false := by
      cases hd : l.auxDecref with
      | false => rfl
      | true =>
        rw [(h.last hd).1] at hkind
        cases hkind
    have hparked : l.parked = false := parked_eq_false (n := l.built) (by omega) hbuilt
    simp only [false_eq_true, if_false]
    refine ⟨?_, by simp [drop, hlast], by simp [drop, hrel], ?_, ?_⟩
    · intro hk
      have hk' : l.countsCqes = true := hk
      rw [hk'] at hkind
      cases hkind
    · intro _
      refine ⟨hparked, ?_, ?_, ?_⟩ <;> simp only [drop] <;> omega
    · intro _ _
      simp only [drop, hheld, hrel]
      rfl

theorem Counted.move (h : l.Counted) (hp : l.Placed) (hm : l.Move l')
    (hleg : l.kind = .sendAll → l'.flight = l.flight + 1 → l'.staged < l.staged → l.auxDecref = false) :
    l'.Counted := by
  cases hm with
  | change hs => exact h.step hp hs
  | flags counts hnew =>
    refine ⟨h.aux, h.last, h.once, h.gone, ?_⟩
    intro hacc
    have hacc' : l.accepted = true := hacc
    rw [hacc'] at hnew
    cases hnew
  | cqe more decref hflight _ hdecref _ _ => exact h.cqe hp hflight hdecref
  | build hkind hstaged =>
    have hrel := h.released_eq_zero (.inr (by omega))
    refine ⟨?_, ?_, h.once, by simp [took, hrel], h.held⟩
    · intro hk
      have haux := h.aux hk
      simp only [took]
      omega
    · intro hlast
      rcases h.last hlast with ⟨hk, hparked, hflight, -⟩
      exact ⟨hk, hparked, hflight, took_pos l⟩
  | leg hkind hstaged =>
    have hrel := h.released_eq_zero (.inr (by omega))
    have hlast := hleg hkind rfl (by simp only [took]; omega)
    refine ⟨?_, by simp [took, hlast], h.once, by simp [took, hrel], h.held⟩
    intro hk
    have haux := h.aux hk
    simp only [took]
    omega
  | ended decref hkind hstaged =>
    have hrel := h.released_eq_zero (.inr (by omega))
    have hsend := hp.sendAll hkind
    refine ⟨?_, ?_, h.once, by simp [took, hrel], h.held⟩
    · intro hk
      have haux := h.aux hk
      simp only [took]
      omega
    · intro _
      have hparked : l.parked = false := parked_eq_false (n := l.staged) (by omega) hstaged
      refine ⟨by simp [countsCqes, took, hkind], hparked, ?_, took_pos l⟩
      simp only [took]
      omega
  | finish hbuilt => exact h.finished hp hbuilt

theorem Step.flight_le (hs : l.Step l') : l.flight ≤ l'.flight := by
  cases hs with
  | keep => exact Nat.le_refl _
  | park _ => exact Nat.le_refl _
  | fill p _ => exact Nat.le_add_right _ _
  | copy p _ _ => exact Nat.le_add_right _ _
  | poison p _ _ => exact Nat.le_refl _

theorem Owed.step (h : l.Owed) (hp : l.Placed) (hs : l.Step l') : l'.Owed := by
  have href : l.counts = true → l.ref = 1 := by
    intro hcounts
    simp [ref, hcounts]
  cases hs with
  | keep => exact h
  | park hnew =>
    rcases hp.fresh hnew with ⟨-, -, hflight, hstaged, hbuilt, -, -, -, hrel⟩
    exact ⟨by simp, by simp [hflight, hstaged, hbuilt, hrel]⟩
  | fill p hnew =>
    rcases hp.fresh hnew with ⟨hparked, -, hflight, hstaged, hbuilt, -, -, -, hrel⟩
    refine ⟨?_, ?_⟩
    · intro _ _ hcounts _ hzero
      have hone := href hcounts
      dsimp only at hzero
      omega
    · intro _ _ hcounts
      simp [hparked, hflight, hstaged, hbuilt, hrel, href hcounts]
  | copy p hparked _ =>
    refine ⟨?_, ?_⟩
    · intro _ _ hcounts _ hzero
      have hone := href hcounts
      dsimp only at hzero
      omega
    · intro hkind _ hcounts
      have hone := href hcounts
      have hsingle := h.single hkind (hp.accepted_of_pos (.inl hparked)) hcounts
      simp only [hparked, toNat_true, toNat_false] at hsingle ⊢
      omega
  | poison p hparked _ => exact ⟨h.due, h.single⟩

theorem Owed.move (h : l.Owed) (hp : l.Placed) (hc : l.Counted) (hm : l.Move l')
    (hzc : isZeroCopySendKind l.kind = true → l'.flight < l.flight → l'.auxDecref = true)
    (hend : l.kind = .sendAll → l'.flight = l.flight → l'.staged < l.staged → l'.auxDecref = true) :
    l'.Owed := by
  cases hm with
  | change hs => exact h.step hp hs
  | flags counts hnew =>
    have hnot : ∀ {q : Prop}, l.accepted = true → q := by
      intro q hacc
      rw [hacc] at hnew
      cases hnew
    exact ⟨fun _ hacc => hnot hacc, fun _ hacc => hnot hacc⟩
  | cqe more decref hflight hmore _ hmulti _ =>
    have hlast : l.repeats = false → more = false := by
      intro hrep
      cases more with
      | false => rfl
      | true =>
        rw [hmore rfl] at hrep
        cases hrep
    refine ⟨?_, ?_⟩
    · intro hkind _ _ _ hzero hsend
      have hkind' : l.countsCqes = true := hkind
      have hmore' : more = false := by
        cases more with
        | false => rfl
        | true =>
          simp only [consumed, if_true] at hzero
          omega
      simp only [countsCqes, or_eq_true, decide_eq_true_eq] at hkind'
      rcases hkind' with (hshot | hcopy) | hsendAll
      · refine .inl ?_
        have hdecref := hmulti hshot
        rw [hmore'] at hdecref
        simp [consumed, show l.countsCqes = true from hkind, hdecref]
      · refine .inl (hzc hcopy ?_)
        simp only [consumed, hmore', false_eq_true, if_false]
        omega
      · have hnone := hsend hsendAll
        simp only [consumed] at hnone
        omega
    · intro hkind hacc hcounts
      have hsingle := h.single hkind hacc hcounts
      simp only [consumed, hlast (repeats_of_oneShot (l := l) hkind), false_eq_true, if_false]
      omega
  | build hkind hstaged =>
    refine ⟨?_, ?_⟩
    · intro hk hacc hcounts hparked hflight _
      exact h.due hk hacc hcounts hparked hflight fun hsend => absurd hsend hkind
    · intro hk hacc hcounts
      have hsingle := h.single hk hacc hcounts
      simp only [took]
      omega
  | leg hkind hstaged =>
    refine ⟨fun _ _ _ _ hzero => ?_, fun hk => ?_⟩
    · dsimp only at hzero
      omega
    · simp [countsCqes, took, hkind] at hk
  | ended decref hkind hstaged =>
    refine ⟨fun _ _ _ _ _ _ => .inl ?_, fun hk => ?_⟩
    · exact hend hkind rfl (by simp only [took]; omega)
    · simp [countsCqes, took, hkind] at hk
  | finish hbuilt =>
    have hrel := hc.released_eq_zero (.inr (by omega))
    unfold finished
    dsimp only
    cases hkind : l.countsCqes with
    | true =>
      rw [if_pos rfl]
      split
      · refine ⟨fun _ _ _ _ _ _ => .inr (by simp [drop, hrel]), fun hk => ?_⟩
        have hk' : l.countsCqes = false := hk
        rw [hk'] at hkind
        cases hkind
      · exact ⟨h.due, fun hk => absurd (hk.symm.trans hkind) (by simp)⟩
    | false =>
      simp only [false_eq_true, if_false]
      refine ⟨fun hk => absurd (hk.symm.trans hkind) (by simp), ?_⟩
      intro hk hacc hcounts
      have hsingle := h.single hk hacc hcounts
      simp only [drop]
      omega

end Life

/-! ## The two tests for the last leg -/

namespace Ring

variable {r r' : Ring}

/-- What the two tests read is the same, except that an abandon mark may have come. -/
structure SameLegs (r r' : Ring) : Prop where
  staged : r'.staged = r.staged
  handle : r'.handle = r.handle
  bits : ∀ d, (r'.bits d).offset = (r.bits d).offset ∧ (r'.bits d).auxDecref = (r.bits d).auxDecref ∧
    ((r.bits d).abandon = true → (r'.bits d).abandon = true)

namespace SameLegs

theorem refl (r : Ring) : r.SameLegs r :=
  ⟨rfl, rfl, fun _ => ⟨rfl, rfl, id⟩⟩

theorem trans {r'' : Ring} (h : r.SameLegs r') (h' : r'.SameLegs r'') : r.SameLegs r'' := by
  refine ⟨h'.staged.trans h.staged, h'.handle.trans h.handle, ?_⟩
  intro d
  rcases h.bits d with ⟨hoffset, hlast, habandon⟩
  rcases h'.bits d with ⟨hoffset', hlast', habandon'⟩
  exact ⟨hoffset'.trans hoffset, hlast'.trans hlast, fun h => habandon' (habandon h)⟩

theorem setBits (r : Ring) (c : Nat) {f : Bits → Bits}
    (hf : ∀ b, (f b).offset = b.offset ∧ (f b).auxDecref = b.auxDecref ∧
      (b.abandon = true → (f b).abandon = true)) : r.SameLegs (r.setBits c f) := by
  refine ⟨rfl, rfl, ?_⟩
  intro d
  by_cases hd : d = c
  · subst hd
    simpa using hf (r.bits d)
  · simp [hd]

theorem abandonTarget (r : Ring) (c : Nat) : r.SameLegs (r.abandonTarget c) := by
  rcases abandonTarget_eq r c with heq | ⟨t, -, heq⟩
  · rw [heq]
    exact .refl r
  · rw [heq]
    exact setBits r t fun _ => ⟨rfl, rfl, fun _ => rfl⟩

theorem copyPoison (r : Ring) (c : Nat) : r.SameLegs (r.copyPoison c) := by
  rcases copyPoison_eq r c with ⟨p, heq⟩
  rw [heq]
  exact setBits r c fun _ => ⟨rfl, rfl, id⟩

theorem issue (r : Ring) (c : Nat) (fp : Bool) : r.SameLegs (r.issue c fp) := by
  refine ⟨issue_staged r c fp, issue_handle r c fp, ?_⟩
  intro d
  rw [issue_bits]
  have hbits := (abandonTarget r c).bits d
  by_cases hd : d = c
  · subst hd
    simpa using hbits
  · simpa [hd] using hbits

theorem popParked (r : Ring) (fd : Int) : r.SameLegs (r.popParked fd) := by
  unfold Ring.popParked
  split
  · exact .refl r
  · split
    · exact .refl r
    · rename_i slot _ _ c rest _
      have hwrite : r.SameLegs (r.write fd (some { slot with fifo := rest }) (.pop c)) :=
        ⟨rfl, rfl, fun _ => ⟨rfl, rfl, id⟩⟩
      refine hwrite.trans (setBits _ c ?_)
      intro b
      exact ⟨rfl, rfl, id⟩

theorem change (hc : Change r r') : r.SameLegs r' := by
  have hsame : ∀ {r₁ : Ring}, r₁.staged = r.staged → r₁.handle = r.handle → r₁.bits = r.bits →
      r.SameLegs r₁ := by
    intro r₁ hstaged hhandle hbits
    refine ⟨hstaged, hhandle, ?_⟩
    intro d
    rw [hbits]
    exact ⟨rfl, rfl, id⟩
  cases hc with
  | enter n => exact hsame rfl rfl rfl
  | abandon t _ => exact setBits r t fun _ => ⟨rfl, rfl, fun _ => rfl⟩
  | opened fd _ _ => exact hsame rfl rfl rfl
  | freed fd slot _ _ _ _ => exact hsame rfl rfl rfl
  | parked c fd slot _ _ _ _ =>
    rw [park_eq]
    refine ⟨rfl, rfl, ?_⟩
    intro d
    by_cases hd : d = c
    · subst hd
      simp
    · simp [hd]
  | filled c _ _ _ _ => exact (copyPoison r c).trans (issue _ c false)
  | copied fd slot c rest _ _ _ => exact ((copyPoison r c).trans (issue _ c true)).trans (popParked _ fd)
  | poisoned fd slot c rest _ _ => exact copyPoison r c
  | posted kind fd sqeFd after _ _ => exact hsame rfl rfl rfl
  | tagged kind _ => exact hsame rfl rfl rfl
  | stranded e => exact hsame rfl rfl rfl

end SameLegs

/-- A staged CQE of a `send_all` leg that takes everything or fails is noted as the last; one that
is noted so fails, takes everything, or belongs to an abandoned `send_all`. -/
def LegMarks (r : Ring) : Prop :=
  ∀ s ∈ r.staged, r.kind s.c = .sendAll →
    (s.res ≤ 0 ∨ (r.sendAllRemaining s.c : Int) ≤ s.res → (r.bits s.c).auxDecref = true) ∧
    ((r.bits s.c).auxDecref = true →
      s.res < 0 ∨ (r.sendAllRemaining s.c : Int) ≤ s.res ∨ (r.bits s.c).abandon = true)

namespace LegMarks

theorem sub (h : r.LegMarks) (hhandle : r'.handle = r.handle) (hstaged : ∀ s ∈ r'.staged, s ∈ r.staged)
    (hbits : ∀ s ∈ r'.staged, r.kind s.c = .sendAll → (r'.bits s.c).offset = (r.bits s.c).offset ∧
      (r'.bits s.c).auxDecref = (r.bits s.c).auxDecref ∧
      ((r.bits s.c).abandon = true → (r'.bits s.c).abandon = true)) : r'.LegMarks := by
  intro s hs hkind
  unfold kind at hkind
  rw [hhandle] at hkind
  rcases hbits s hs hkind with ⟨hoffset, hlast, habandon⟩
  have hrest : r'.sendAllRemaining s.c = r.sendAllRemaining s.c := by
    unfold sendAllRemaining
    rw [hhandle, hoffset]
  rcases h s (hstaged s hs) hkind with ⟨hmark, hmarked⟩
  rw [hlast, hrest]
  refine ⟨hmark, ?_⟩
  intro hd
  rcases hmarked hd with hneg | hall | hab
  · exact .inl hneg
  · exact .inr (.inl hall)
  · exact .inr (.inr (habandon hab))

theorem same (h : r.LegMarks) (hsame : r.SameLegs r') : r'.LegMarks :=
  h.sub hsame.handle (fun _ hs => hsame.staged ▸ hs) fun s _ _ => hsame.bits s.c

theorem ne_of_mem_eraseIdx (ho : r.Orderly) {i : Nat} {s s' : Staged} (hs : r.staged[i]? = some s)
    (hs' : s' ∈ r.staged.eraseIdx i) (hkind : r.kind s.c = .sendAll) : s'.c ≠ s.c := by
  intro heq
  have hcount := countP_eraseIdx hs (fun t => decide (t.c = s.c))
  have hpos : 0 < (r.staged.eraseIdx i).countP fun t => decide (t.c = s.c) :=
    countP_pos_iff.2 ⟨s', hs', by simp [heq]⟩
  have hone := (ho.placed s.c).sendAll hkind
  simp only [decide_true, if_true] at hcount
  simp only [life, Life.of] at hone
  omega

theorem move (h : r.LegMarks) (ho : r.Orderly) (hcounted : ∀ c, (r.life c).Counted) (hm : Move r r') :
    r'.LegMarks := by
  cases hm with
  | change hc => exact h.same (.change hc)
  | flags c success all _ => exact h.same (.setBits r c fun _ => ⟨rfl, rfl, id⟩)
  | options c timeout multi => exact h.same (.setBits r c fun _ => ⟨rfl, rfl, id⟩)
  | aborted c fd slot _ _ => exact h.same ⟨rfl, rfl, fun _ => ⟨rfl, rfl, id⟩⟩
  | silent i sqe _ _ => exact h.same ⟨rfl, rfl, fun _ => ⟨rfl, rfl, id⟩⟩
  | noted i s res hs _ =>
    have hsame := SameLegs.setBits (r.took i s.c) s.c (f := fun b => { b with res := res })
      fun _ => ⟨rfl, rfl, id⟩
    exact h.sub rfl (fun _ => mem_of_mem_eraseIdx) fun s' _ _ => hsame.bits s'.c
  | leg i s n hs hkind _ _ _ =>
    rcases nextLeg_eq (((r.took i s.c).advanced s.c s.res).enterKernel n) s.c with ⟨entry, heq⟩
    rw [heq]
    refine h.sub rfl (fun _ => mem_of_mem_eraseIdx) ?_
    intro s' hs' _
    have hne := ne_of_mem_eraseIdx ho hs hs' hkind
    simp [advanced, hne]
  | ended i s decref res hs hkind _ =>
    refine h.sub rfl (fun _ => mem_of_mem_eraseIdx) ?_
    intro s' hs' _
    have hs'' : s' ∈ r.staged.eraseIdx i := hs'
    have hne := ne_of_mem_eraseIdx ho hs hs'' hkind
    simp [advanced, ended, hne]
  | released c slot _ _ _ _ _ => exact h.same ⟨rfl, rfl, fun _ => ⟨rfl, rfl, id⟩⟩
  | finish i c hc =>
    have hstaged : ({ r with built := r.built.eraseIdx i }.finishPackage c).staged = r.staged :=
      finishPackage_other _ c Ring.staged (fun _ _ _ => rfl) fun _ => rfl
    refine h.sub (finishPackage_other _ c Ring.handle (fun _ _ _ => rfl) fun _ => rfl)
      (fun s hs => hstaged ▸ hs) ?_
    intro s hs hkind
    rw [hstaged] at hs
    by_cases hd : s.c = c
    · -- with this CQE still staged, the one that is packaged is not the last
      subst hd
      have hbuilt : 0 < (r.life s.c).built := count_pos_iff.2 (mem_of_getElem? hc)
      have hpos : 0 < (r.life s.c).staged := countP_pos_iff.2 ⟨s, hs, by simp⟩
      have haux := (hcounted s.c).aux (by simp [Life.countsCqes, life, Life.of]; exact .inr hkind)
      rcases finishPackage_cases { r with built := r.built.eraseIdx i } s.c with
        ⟨-, hzero, -, -⟩ | ⟨-, -, heq⟩ | ⟨hnot, -⟩
      · have hzero' : (r.life s.c).auxRefcount - 1 = 0 := hzero
        omega
      · rw [heq]
        simp
      · have hkind' : (r.handle s.c).kind = .sendAll := hkind
        simp [Life.countsCqes, life, Life.of, hkind'] at hnot
    · rcases finishPackage_cases { r with built := r.built.eraseIdx i } c with
        ⟨-, -, -, heq⟩ | ⟨-, -, heq⟩ | ⟨-, heq⟩
      · rw [heq]
        simp [hd]
      · rw [heq]
        simp [hd]
      · rw [heq]
        simp [hd]

end LegMarks

theorem sendAllRemaining_advanced (r : Ring) (c : Nat) (res : Int) :
    (r.advanced c res).sendAllRemaining c = r.sendAllRemaining c - res.toNat := by
  simp [sendAllRemaining, advanced, Nat.sub_sub]

end Ring

open Uring.Ring

theorem Move.flight_le {r r' : Ring} (hparked : r.Parked) (hm : Move r r') (d : Nat) :
    (r.life d).flight ≤ (r'.life d).flight := by
  cases hm with
  | change hc => exact (hc.life hparked d).flight_le
  | flags c success all _ => exact Nat.le_refl _
  | options c timeout multi => exact Nat.le_refl _
  | aborted c fd slot _ _ => exact Nat.le_refl _
  | silent i sqe hi hnowait =>
    rw [life_silent hi hnowait]
  | noted i s res hs _ => exact Nat.le_refl _
  | leg i s n hs _ _ _ _ =>
    rw [life_nextLeg, life_enterKernel, life_advanced, life_took hs]
    split
    · exact Nat.le_succ _
    · exact Nat.le_refl _
  | ended i s decref res _ _ _ => exact Nat.le_refl _
  | released c slot _ _ _ _ _ => exact Nat.le_refl _
  | finish i c hc =>
    exact (finishPackage_other { r with built := r.built.eraseIdx i } c (fun r => (r.life d).flight)
      (fun _ _ _ => rfl) fun _ => rfl).ge

/-- The packaging of a leg agrees with its staging: a next leg is filled only when the CQE was not
taken for the last, and when the `send_all` ends the last CQE is noted. -/
theorem Move.legs {r r' : Ring} (hmarks : r.LegMarks) (hm : Move r r') (d : Nat)
    (hkind : (r.life d).kind = .sendAll) (hstaged : (r'.life d).staged < (r.life d).staged) :
    ((r'.life d).flight = (r.life d).flight + 1 → (r.life d).auxDecref = false) ∧
      ((r'.life d).flight = (r.life d).flight → (r'.life d).auxDecref = true) := by
  have hsame : r'.staged = r.staged → False := by
    intro heq
    simp only [Ring.life, Life.of, heq] at hstaged
    omega
  cases hm with
  | change hc => exact absurd (SameLegs.change hc).staged hsame
  | flags c success all _ => exact absurd rfl hsame
  | options c timeout multi => exact absurd rfl hsame
  | aborted c fd slot _ _ => exact absurd rfl hsame
  | silent i sqe _ _ => exact absurd rfl hsame
  | noted i s res hs hnot =>
    rw [life_setRes, life_took hs] at hstaged
    split at hstaged
    · rename_i hd
      subst hd
      exact absurd hkind hnot
    · exact absurd hstaged (Nat.lt_irrefl _)
  | leg i s n hs _ hres hrest habandon =>
    rw [life_nextLeg, life_enterKernel, life_advanced, life_took hs] at hstaged ⊢
    split at hstaged
    · rename_i hd
      subst hd
      refine ⟨fun _ => ?_, ?_⟩
      · by_contra hlast
        have hlast' : (r.bits s.c).auxDecref = true := by simpa [Ring.life, Life.of] using hlast
        rw [sendAllRemaining_advanced] at hrest
        rcases (hmarks s (mem_of_getElem? hs) hkind).2 hlast' with hneg | hall | hab
        · omega
        · omega
        · rw [hab] at habandon
          cases habandon
      · intro hflight
        simp [Life.took] at hflight
    · exact absurd hstaged (Nat.lt_irrefl _)
  | ended i s decref res hs _ hdecref =>
    rw [life_ended, life_advanced, life_took hs] at hstaged ⊢
    split at hstaged
    · rename_i hd
      subst hd
      rw [if_pos rfl, if_pos rfl]
      refine ⟨?_, fun _ => ?_⟩
      · intro hflight
        simp [Life.took] at hflight
      · cases decref with
        | true => simp
        | false =>
          have hmark := (hmarks s (mem_of_getElem? hs) hkind).1
          have hlast : (r.bits s.c).auxDecref = true := by
            apply hmark
            rcases hdecref rfl with hneg | hzero | ⟨hle, -⟩
            · exact .inl (by omega)
            · rw [sendAllRemaining_advanced] at hzero
              omega
            · exact .inl hle
          simpa [Life.took, Ring.life, Life.of] using hlast
    · exact absurd hstaged (Nat.lt_irrefl _)
  | released c slot _ _ _ _ _ => exact absurd rfl hsame
  | finish i c hc =>
    exact absurd (finishPackage_other { r with built := r.built.eraseIdx i } c Ring.staged
      (fun _ _ _ => rfl) fun _ => rfl) hsame

end Pytealet.Uring
