import Pytealet.Uring.Atomic
import Pytealet.Uring.Ledger

/-!
# PrepareCount — the number of items that a `prepare` reports

After a failure `UringApiRing_prepare_impl` scans the whole batch for items that are accepted.
Those in front of the item that failed are; that item, or one behind it, is counted too if an
earlier call has accepted it, or if it is listed twice.
-/

namespace Pytealet.Uring

open Lib.Transition List

namespace Ring

variable {r r' r₁ : Ring}

/-- `prepared` of `UringApiRing_prepare_impl` -/
def preparedCount (r : Ring) (items : List (Option Nat × Fate)) : Nat :=
  if !r.initialized then 0
  else
    match r.prepareConstructed items with
    | (_, none) => items.length
    | (r', some _) => items.countP fun item => item.1.any fun c => (r'.bits c).isAccepted

/-- The count is that of the operations that the call has accepted. -/
def CountsAccepted (r : Ring) (items : List (Option Nat × Fate)) : Prop :=
  ∃ new, (r.prepare items).1.accepted = r.accepted ++ new ∧ r.preparedCount items = new.length

/-- If the batch stops at an item, neither this one nor any behind it has been accepted before the
call or stands in front of it. -/
def NewFromStop (r : Ring) (items : List (Option Nat × Fate)) : Prop :=
  ∀ before item after r₁, items = before ++ item :: after → r.prepareConstructed before = (r₁, none) →
    (r₁.prepareConstructed [item]).2 ≠ none → ∀ c ∈ (item :: after).filterMap Prod.fst,
      (r.bits c).isAccepted = false ∧ c ∉ before.filterMap Prod.fst

/-! ## Batches -/

theorem prepareConstructed_append {before : List (Option Nat × Fate)}
    (h : r.prepareConstructed before = (r₁, none))
    (rest : List (Option Nat × Fate)) : r.prepareConstructed (before ++ rest) =
      r₁.prepareConstructed rest := by
  induction before generalizing r with
  | nil =>
    cases h
    rfl
  | cons item before ih =>
    rcases item with ⟨_ | c, fate⟩
    · cases h
    · rw [cons_append, prepareConstructed]
      unfold prepareConstructed at h
      split at h
      · exact ih h
      · cases h

theorem prepareConstructed_stops {item : Option Nat × Fate} {e : Err}
    (h : r.prepareConstructed [item] = (r', some e))
    (after : List (Option Nat × Fate)) : r.prepareConstructed (item :: after) = (r', some e) := by
  rcases item with ⟨_ | c, fate⟩
  · exact h
  · unfold prepareConstructed at h ⊢
    split at h
    · cases h
    · exact h

theorem Ledger.prepareConstructed (h : r.Ledger) (ho : r.Orderly) (items : List (Option Nat × Fate)) :
    (r.prepareConstructed items).1.Ledger :=
  h.moves ho (prepareConstructed_changes (fun _ hr' c => (ho.moves hr'.moves).unpoisoned c) items).moves

theorem accepted_prepareConstructed (ho : r.Orderly) {items : List (Option Nat × Fate)}
    (h : r.prepareConstructed items = (r', none)) : r'.Orderly ∧
      r'.accepted = r.accepted ++ items.filterMap Prod.fst ∧
      items.map Prod.fst = (items.filterMap Prod.fst).map some := by
  induction items generalizing r with
  | nil =>
    cases h
    exact ⟨ho, (append_nil _).symm, rfl⟩
  | cons item items ih =>
    rcases item with ⟨_ | c, fate⟩
    · cases h
    · unfold Ring.prepareConstructed at h
      split at h
      · rename_i r₁ heq
        rcases ho.prepareOne heq with ⟨hprep, ho₁⟩
        rcases ih ho₁ h with ⟨ho', haccepted, hsome⟩
        refine ⟨ho', ?_, by simpa using hsome⟩
        rw [haccepted, hprep.accepted_eq, append_assoc]
        rfl
      · cases h

theorem accepted_stops (ho : r.Orderly) {item : Option Nat × Fate} {e : Err}
    (h : r.prepareConstructed [item] = (r', some e)) : r'.accepted = r.accepted := by
  rcases item with ⟨_ | c, fate⟩
  · cases h
    rfl
  · unfold Ring.prepareConstructed at h
    split at h
    · cases h
    · rename_i r₁ e₁ heq
      cases h
      exact (LeavesNoTrace.of_prepared (ho.prepareOne heq).1).accepted

theorem count_stopped (ho : r.Orderly) (hl : r.Ledger) {before after : List (Option Nat × Fate)}
    {item : Option Nat × Fate}
    {e : Err} (hbefore : r.prepareConstructed before = (r₁, none))
    (hitem : r₁.prepareConstructed [item] = (r', some e)) :
    (∃ new, r'.accepted = r.accepted ++ new ∧
        (before ++ item :: after).countP (fun item => item.1.any fun c => (r'.bits c).isAccepted) =
          new.length) ↔
      ∀ c ∈ (item :: after).filterMap Prod.fst, (r.bits c).isAccepted = false ∧
        c ∉ before.filterMap Prod.fst := by
  rcases accepted_prepareConstructed ho hbefore with ⟨ho₁, haccepted, hsome⟩
  have haccepted' : r'.accepted = r.accepted ++ before.filterMap Prod.fst :=
    (accepted_stops ho₁ hitem).trans haccepted
  have hl₁ := hl.prepareConstructed ho before
  rw [hbefore] at hl₁
  have hl' := hl₁.prepareConstructed ho₁ [item]
  rw [hitem] at hl'
  -- accepted is what has been before, or stands in front
  have hmem : ∀ c, (r'.bits c).isAccepted = true ↔ (r.bits c).isAccepted = true ∨
      c ∈ before.filterMap Prod.fst := by
    intro c
    have hold := hl.mem c
    have hnew := hl'.mem c
    rw [haccepted', mem_append] at hnew
    exact hnew.symm.trans (or_congr_left hold)
  have hall : before.countP (fun item => item.1.any fun c => (r'.bits c).isAccepted) = before.length := by
    refine countP_eq_length.mpr fun x hx => ?_
    have hx₁ : x.1 ∈ (before.filterMap Prod.fst).map some := hsome ▸ mem_map_of_mem hx
    rcases mem_map.mp hx₁ with ⟨c, hc, heq⟩
    rw [← heq]
    exact (hmem c).mpr (.inr hc)
  have hlength : (before.filterMap Prod.fst).length = before.length := by
    simpa using (congrArg List.length hsome).symm
  rw [countP_append, hall, haccepted']
  constructor
  · rintro ⟨new, heq, hcount⟩ c hc
    rw [← append_cancel_left heq, hlength, Nat.add_eq_left, countP_eq_zero] at hcount
    rcases mem_filterMap.mp hc with ⟨x, hx, heq⟩
    have hnot := hcount x hx
    rw [heq] at hnot
    have hneither := not_or.mp (mt (hmem c).mpr hnot)
    exact ⟨Bool.eq_false_iff.mpr hneither.1, hneither.2⟩
  · intro h
    refine ⟨_, rfl, ?_⟩
    rw [hlength, Nat.add_eq_left, countP_eq_zero]
    intro x hx hany
    rcases (Option.any_eq_true _ _).mp hany with ⟨c, heq, hc⟩
    rcases h c (mem_filterMap.mpr ⟨x, hx, heq⟩) with ⟨hnew, hnot⟩
    rcases (hmem c).mp hc with hold | hfront
    · exact absurd hold (Bool.eq_false_iff.mp hnew)
    · exact hnot hfront

end Ring

/-- The count is right just if nothing that is already accepted, or listed twice, comes at the stop
or behind it. -/
theorem prepared_count (entries : Nat) (makeRoom : Bool) (handle : Nat → Handle) {r : Ring}
    (hr : Reachable step (Ring.init entries makeRoom handle) r) (items : List (Option Nat × Fate)) :
    r.CountsAccepted items ↔ r.initialized = false ∨ r.NewFromStop items := by
  have hinv : r.Orderly ∧ r.Ledger := hr.invariant (I := fun r => r.Orderly ∧ r.Ledger)
    ⟨.init entries makeRoom handle, .init entries makeRoom handle⟩ fun _ _ _ h hs =>
      ⟨h.1.step hs, h.2.step h.1 hs⟩
  rcases hinv with ⟨ho, hl⟩
  unfold Ring.CountsAccepted Ring.preparedCount Ring.prepare
  cases hopen : r.initialized with
  | false => exact iff_of_true ⟨[], (append_nil _).symm, rfl⟩ (.inl rfl)
  | true =>
    simp only [Bool.not_true, Bool.false_eq_true, if_false, Bool.true_eq_false, false_or]
    cases hres : r.prepareConstructed items with
    | mk r' err =>
      cases err with
      | none =>
        rcases Ring.accepted_prepareConstructed ho hres with ⟨_, haccepted, hsome⟩
        refine iff_of_true ⟨_, haccepted, by simpa using congrArg List.length hsome⟩ ?_
        -- the batch does not stop
        intro before item after r₁ heq hbefore hitem
        rw [heq, Ring.prepareConstructed_append hbefore] at hres
        cases hstop : r₁.prepareConstructed [item] with
        | mk r₂ err =>
          cases err with
          | none => exact absurd (congrArg Prod.snd hstop) hitem
          | some e => exact nomatch (Ring.prepareConstructed_stops hstop after).symm.trans hres
      | some e =>
        constructor
        · intro hcounts before item after r₁ heq hbefore hitem
          cases hstop : r₁.prepareConstructed [item] with
          | mk r₂ err =>
            cases err with
            | none => exact absurd (congrArg Prod.snd hstop) hitem
            | some e₂ =>
              -- there is one item only at which it stops
              rw [heq, Ring.prepareConstructed_append hbefore, Ring.prepareConstructed_stops hstop] at hres
              cases hres
              rw [heq] at hcounts
              exact (Ring.count_stopped ho hl hbefore hstop).mp hcounts
        · intro hnew
          rcases (Ring.prepareConstructed_fails ho items hres).split with
            ⟨before, item, after, r₁, rfl, hbefore, hitem, _⟩
          refine (Ring.count_stopped ho hl hbefore hitem).mpr (hnew before item after r₁ rfl hbefore ?_)
          rw [hitem]
          exact Option.some_ne_none e

/-- A send on a new ring, in a batch that stops behind it. -/
theorem prepared_count_one :
    (Ring.init 4 false fun _ => { kind := .send, fd := 3 }).CountsAccepted [(some 0, {}),
      (none, {}), (some 1, {})] := by
  refine (prepared_count 4 false (fun _ => { kind := .send, fd := 3 }) .refl _).2 (.inr ?_)
  rintro (_ | ⟨_, _ | ⟨_, before⟩⟩) item after r₁ heq hbefore - c hc
  · exact ⟨rfl, not_mem_nil⟩
  · cases heq
    cases mem_singleton.1 hc
    exact ⟨rfl, by decide⟩
  · -- it has stopped at the second item already
    rcases List.cons.inj heq with ⟨rfl, hrest⟩
    rcases List.cons.inj hrest with ⟨rfl, -⟩
    cases congrArg Prod.snd hbefore

/-- The same completion twice: one is accepted, two are reported. -/
theorem listed_twice : ¬ (Ring.init 4 false fun _ => { kind := .send, fd := 3 }).CountsAccepted
    [(some 0, {}), (some 0, {})] := by
  rintro ⟨new, haccepted, hcount⟩
  have hlength := congrArg List.length haccepted
  rw [length_append, ← hcount] at hlength
  exact absurd hlength (by decide)

end Pytealet.Uring
