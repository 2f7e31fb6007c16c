import Mathlib.Data.Finset.Basic

/-!
# Names — a group that is remembered by the names of its members

`Names name names member` says that `names` are the names of the members, no more and no less.  A
name may be used again by another item, so a member can be told by its name only as long as no other
member has it.
-/

namespace Lib

variable {ι α : Type*}

def Names (name : ι → α) (names : Finset α) (member : ι → Prop) : Prop :=
  ∀ a, a ∈ names ↔ ∃ i, member i ∧ name i = a

namespace Names

variable {name name' : ι → α} {names : Finset α} {member member' : ι → Prop} {i : ι}

theorem mem (h : Names name names member) (hi : member i) : name i ∈ names :=
  (h _).2 ⟨i, hi, rfl⟩

theorem congr (h : Names name names member) (hname : ∀ i, member i → name' i = name i)
    (hmember : ∀ i, member' i ↔ member i) : Names name' names member' := by
  intro a
  rw [h a]
  constructor
  · rintro ⟨i, hi, ha⟩
    exact ⟨i, (hmember i).2 hi, (hname i hi).trans ha⟩
  · rintro ⟨i, hi, ha⟩
    have hi' : member i := (hmember i).1 hi
    exact ⟨i, hi', (hname i hi').symm.trans ha⟩

variable [DecidableEq α]

theorem insert (h : Names name names member) (i : ι) (hmember : ∀ j, member' j ↔ member j ∨ j = i) :
    Names name (Insert.insert (name i) names) member' := by
  intro a
  rw [Finset.mem_insert, h a]
  constructor
  · rintro (ha | ⟨j, hj, ha⟩)
    · exact ⟨i, (hmember i).2 (.inr rfl), ha.symm⟩
    · exact ⟨j, (hmember j).2 (.inl hj), ha⟩
  · rintro ⟨j, hj, ha⟩
    rcases (hmember j).1 hj with hj | hj
    · exact .inr ⟨j, hj, ha⟩
    · exact .inl (hj ▸ ha.symm)

/-- The names of those that leave are taken away; nobody else has them. -/
theorem remove (h : Names name names member) (gone : Finset α)
    (hgone : ∀ i, member i → (name i ∈ gone ↔ ¬ member' i))
    (hsub : ∀ i, member' i → member i) : Names name (names \ gone) member' := by
  intro a
  rw [Finset.mem_sdiff, h a]
  constructor
  · rintro ⟨⟨i, hi, ha⟩, hnot⟩
    refine ⟨i, ?_, ha⟩
    by_contra hmember
    exact hnot (ha ▸ (hgone i hi).2 hmember)
  · rintro ⟨i, hi, ha⟩
    refine ⟨⟨i, hsub i hi, ha⟩, ?_⟩
    intro hmem
    exact (hgone i (hsub i hi)).1 (ha ▸ hmem) hi

theorem erase (h : Names name names member) (hunique : ∀ j, member j → name j = name i → j = i)
    (hmember : ∀ j, member' j ↔ member j ∧ j ≠ i) : Names name (names.erase (name i)) member' := by
  rw [← Finset.sdiff_singleton_eq_erase]
  apply h.remove
  · intro j hj
    rw [Finset.mem_singleton, hmember j]
    constructor
    · exact fun heq hnot => hnot.2 (hunique j hj heq)
    · intro hnot
      by_contra hne
      exact hnot ⟨hj, fun heq => hne (heq ▸ rfl)⟩
  · exact fun j hj => ((hmember j).1 hj).1

end Names
end Lib
