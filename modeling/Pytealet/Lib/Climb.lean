import Mathlib.Data.Finset.Card
import Mathlib.Data.Finset.Range
import Mathlib.Logic.Relation

/-!
# Climb — a walk along the only way up

`up` gives a node its only successor.  Where no walk goes on for ever, a walk over `n` nodes meets
what it looks for, or the top, within `n` steps.
-/

namespace Lib.Climb

open Function

/-- The first node that `f` accepts, from `x` on; a loop that turns at most `fuel` times. -/
def climb (up : Nat → Option Nat) (f : Nat → Bool) : Nat → Nat → Option Nat
  | 0, _ => none
  | fuel + 1, x =>
    if f x then some x
    else
      match up x with
      | some y => climb up f fuel y
      | none => none

/-- `y` is one step above `x`. -/
def Above (up : Nat → Option Nat) (y x : Nat) : Prop :=
  up x = some y

/-- `y` is `x`, or above it. -/
def Meets (up : Nat → Option Nat) (x y : Nat) : Prop :=
  Relation.ReflTransGen (fun a b => Above up b a) x y

variable {up : Nat → Option Nat} {f : Nat → Bool} {n x y z : Nat}

theorem Meets.head (h : up x = some y) (hz : Meets up y z) : Meets up x z :=
  Relation.ReflTransGen.head h hz

/-- What a node meets is itself, or met from one step above. -/
theorem Meets.cases (h : Meets up x z) : z = x ∨ ∃ y, up x = some y ∧ Meets up y z := by
  rcases Relation.ReflTransGen.cases_head h with heq | ⟨y, hxy, hyz⟩
  · exact .inl heq.symm
  · exact .inr ⟨y, hxy, hyz⟩

theorem not_transGen_self (h : Acc (Relation.TransGen (Above up)) x) :
    ¬ Relation.TransGen (Above up) x x := by
  induction h with
  | intro x _ ih =>
    intro hcycle
    exact ih x hcycle hcycle

theorem Meets.above (h : Meets up x y) (hz : Relation.TransGen (Above up) x z) :
    Relation.TransGen (Above up) y z := by
  induction h with
  | refl => exact hz
  | tail _ hstep ih => exact Relation.TransGen.head hstep ih

theorem not_meets_self (hacc : Acc (Above up) x) (hy : up x = some y) : ¬ Meets up y x := by
  intro hmeets
  have hstep : Relation.TransGen (Above up) y x := Relation.TransGen.single hy
  exact not_transGen_self hacc.transGen (hmeets.above hstep)

/-- Among `n` nodes the walk has visited `s` already, and none of them twice. -/
theorem climb_of_visited (hup : ∀ x y, x < n → up x = some y → y < n)
    (htop : ∀ x, x < n → up x = none → f x = true)
    (hacc : Acc (Above up) x) :
    ∀ (fuel : Nat) (s : Finset Nat), x < n → s ⊆ Finset.range n →
      (∀ v ∈ s, Relation.TransGen (Above up) x v) →
      n ≤ fuel + s.card → (climb up f fuel x).isSome = true := by
  induction hacc with
  | intro x hbelow ih =>
    intro fuel s hx hs hvisited hfuel
    have hfresh : x ∉ s := by
      intro hmem
      have hacc : Acc (Above up) x := Acc.intro x hbelow
      exact not_transGen_self hacc.transGen (hvisited x hmem)
    have hinsert : insert x s ⊆ Finset.range n := Finset.insert_subset (Finset.mem_range.2 hx) hs
    have hcard : s.card + 1 ≤ n := by
      have hle := Finset.card_le_card hinsert
      rwa [Finset.card_insert_of_notMem hfresh, Finset.card_range] at hle
    cases fuel with
    | zero => omega
    | succ fuel =>
      unfold climb
      split
      · rfl
      · rename_i hf
        cases hy : up x with
        | none => exact absurd (htop x hx hy) hf
        | some y =>
          refine ih y hy fuel (insert x s) (hup x y hx hy) hinsert ?_ ?_
          · intro v hv
            have hstep : Relation.TransGen (Above up) y x := Relation.TransGen.single hy
            rcases Finset.mem_insert.1 hv with rfl | hv
            · exact hstep
            · exact hstep.trans (hvisited v hv)
          · rw [Finset.card_insert_of_notMem hfresh]
            omega

theorem climb_isSome (hup : ∀ x y, x < n → up x = some y → y < n)
    (htop : ∀ x, x < n → up x = none → f x = true)
    (hacc : Acc (Above up) x) (hx : x < n) : (climb up f n x).isSome = true :=
  climb_of_visited hup htop hacc n ∅ hx (by simp) (by simp) (by simp)

theorem climb_accepts : ∀ {fuel x : Nat}, climb up f fuel x = some z → f z = true ∧ Meets up x z := by
  intro fuel
  induction fuel with
  | zero =>
    intro x h
    cases h
  | succ fuel ih =>
    intro x h
    unfold climb at h
    split at h
    · rename_i hf
      cases h
      exact ⟨hf, .refl⟩
    · split at h
      · rename_i y hy
        rcases ih h with ⟨hf, hmeets⟩
        exact ⟨hf, hmeets.head hy⟩
      · cases h

theorem climb_first : ∀ {fuel x : Nat}, climb up f fuel x = some z → Meets up x y →
    f y = true → Meets up z y := by
  intro fuel
  induction fuel with
  | zero =>
    intro x h
    cases h
  | succ fuel ih =>
    intro x h hy hf
    unfold climb at h
    split at h
    · cases h
      exact hy
    · rename_i hx
      split at h
      · rename_i v hv
        rcases hy.cases with rfl | ⟨v', hv', hmeets⟩
        · exact absurd hf hx
        · rw [hv] at hv'
          cases hv'
          exact ih h hmeets hf
      · cases h

theorem climb_mono {g : Nat → Bool} (hfg : ∀ x, f x = true → g x = true) :
    ∀ {fuel x : Nat}, climb up g fuel x = some y → f y = true → climb up f fuel x = some y := by
  intro fuel
  induction fuel with
  | zero =>
    intro x h
    cases h
  | succ fuel ih =>
    intro x h hy
    unfold climb at h ⊢
    split at h
    · cases h
      rw [if_pos hy]
    · rename_i hx
      have hf : f x ≠ true := fun hfx => hx (hfg x hfx)
      rw [if_neg hf]
      split at h
      · exact ih h hy
      · cases h

theorem acc_update {v : Nat} (hacc : ∀ x, Acc (Above up) x) (hv : ¬ Meets up v x) :
    ∀ z, Acc (Above (update up x (some v))) z := by
  -- the walk from `v` is as it was
  have haway : ∀ z, Acc (Above up) z → ¬ Meets up z x → Acc (Above (update up x (some v))) z := by
    intro z hz
    induction hz with
    | intro z _ ih =>
      intro hnot
      refine Acc.intro z fun y hy => ?_
      have hne : z ≠ x := by
        rintro rfl
        exact hnot .refl
      have hy' : up z = some y := by
        unfold Above at hy
        rwa [update_of_ne hne] at hy
      exact ih y hy' fun hmeets => hnot (hmeets.head hy')
  intro z
  induction hacc z with
  | intro z _ ih =>
    refine Acc.intro z fun y hy => ?_
    unfold Above at hy
    by_cases hz : z = x
    · subst hz
      rw [update_self] at hy
      cases hy
      exact haway _ (hacc _) hv
    · rw [update_of_ne hz] at hy
      exact ih y hy

end Lib.Climb
