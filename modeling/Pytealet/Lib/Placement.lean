import Mathlib.Data.List.Nodup
import Mathlib.Data.List.Perm.Basic
import Mathlib.Logic.Function.Basic

/-!
# Placement — back pointers into a family of lists

Every item has a back pointer `link`, and every place `l` has a list `place l` of the items that are
there.  The two agree when an item points to `l` exactly when it is in the list of `l`, and no list
has an item twice; an item is then in at most one list.

The rules say what keeps the agreement: reordering the lists, taking an item out, and moving it from
where it is to another place.
-/

namespace Lib

open Function List

variable {τ κ : Type*}

structure Placed (link : τ → Option κ) (place : κ → List τ) : Prop where
  nodup : ∀ l, (place l).Nodup
  mem_iff : ∀ t l, link t = some l ↔ t ∈ place l

namespace Placed

variable {link : τ → Option κ} {place place' : κ → List τ}

theorem perm (h : Placed link place) (hp : ∀ l, (place' l).Perm (place l)) :
    Placed link place' := by
  refine ⟨?_, ?_⟩
  · intro l
    exact (hp l).nodup_iff.2 (h.nodup l)
  · intro t l
    exact (h.mem_iff t l).trans (hp l).mem_iff.symm

theorem unique (h : Placed link place) {t : τ} {l l' : κ} (hl : t ∈ place l) (hl' : t ∈ place l') :
    l = l' := by
  have heq : some l = some l' := ((h.mem_iff t l).2 hl).symm.trans ((h.mem_iff t l').2 hl')
  exact Option.some.inj heq

theorem not_mem (h : Placed link place) {t : τ} (ht : link t = none) (l : κ) : t ∉ place l := by
  intro hmem
  have hlink := (h.mem_iff t l).2 hmem
  simp [ht] at hlink

section Moves

variable [DecidableEq τ]

/-- An item is only in the list that it points to. -/
theorem erase_of_ne (h : Placed link place) {t : τ} {l : κ} (hne : link t ≠ some l) :
    (place l).erase t = place l := by
  apply erase_of_not_mem
  intro hmem
  exact hne ((h.mem_iff t l).2 hmem)

theorem remove (h : Placed link place) (t : τ)
    (hp : ∀ l, (place' l).Perm ((place l).erase t)) :
    Placed (update link t none) place' := by
  refine ⟨?_, ?_⟩
  · intro l
    exact (hp l).nodup_iff.2 ((h.nodup l).erase t)
  · intro u l
    rw [(hp l).mem_iff, (h.nodup l).mem_erase_iff, ← h.mem_iff u l]
    by_cases hu : u = t
    · simp [hu]
    · simp [hu]

/-- Wherever `t` was, it is in `l` afterwards. -/
theorem move (h : Placed link place) (t : τ) (l : κ)
    (hl : (place' l).Perm (t :: (place l).erase t))
    (ho : ∀ l', l' ≠ l → (place' l').Perm ((place l').erase t)) :
    Placed (update link t (some l)) place' := by
  refine ⟨?_, ?_⟩
  · intro l'
    by_cases hl' : l' = l
    · subst hl'
      rw [hl.nodup_iff, nodup_cons]
      exact ⟨(h.nodup l').not_mem_erase, (h.nodup l').erase t⟩
    · exact (ho l' hl').nodup_iff.2 ((h.nodup l').erase t)
  · intro u l'
    by_cases hl' : l' = l
    · subst hl'
      rw [hl.mem_iff, mem_cons, (h.nodup l').mem_erase_iff, ← h.mem_iff u l']
      by_cases hu : u = t
      · simp [hu]
      · simp [hu]
    · rw [(ho l' hl').mem_iff, (h.nodup l').mem_erase_iff, ← h.mem_iff u l']
      by_cases hu : u = t
      · simp [hu, Ne.symm hl']
      · simp [hu]

theorem transfer (h : Placed link place) {t : τ} {l m : κ} (ht : link t = some l) (hne : l ≠ m)
    (hl : (place' l).Perm ((place l).erase t)) (hm : (place' m).Perm (t :: place m))
    (ho : ∀ l', l' ≠ l → l' ≠ m → place' l' = place l') : Placed (update link t (some m)) place' := by
  have herase : ∀ {l'}, l ≠ l' → (place l').erase t = place l' := by
    intro l' hl'
    apply h.erase_of_ne
    intro heq
    exact hl' (Option.some.inj (ht.symm.trans heq))
  apply h.move t m
  · rw [herase hne]
    exact hm
  · intro l' hl'
    by_cases hll : l' = l
    · subst hll
      exact hl
    · rw [ho l' hll hl', herase (Ne.symm hll)]

theorem enter (h : Placed link place) {t : τ} {m : κ} (ht : link t = none)
    (hm : (place' m).Perm (t :: place m))
    (ho : ∀ l', l' ≠ m → place' l' = place l') : Placed (update link t (some m)) place' := by
  have herase : ∀ l', (place l').erase t = place l' := fun l' => erase_of_not_mem (h.not_mem ht l')
  apply h.move t m
  · rw [herase]
    exact hm
  · intro l' hl'
    rw [ho l' hl', herase]

end Moves

theorem pour [DecidableEq κ] (h : Placed link place) {l m : κ} (hne : l ≠ m) (hl : place' l = [])
    (hm : (place' m).Perm (place l ++ place m)) (ho : ∀ l', l' ≠ l → l' ≠ m → place' l' = place l') :
    Placed (fun t => if link t = some l then some m else link t) place' := by
  refine ⟨?_, ?_⟩
  · intro l'
    by_cases hll : l' = l
    · subst hll
      rw [hl]
      exact nodup_nil
    · by_cases hlm : l' = m
      · subst hlm
        rw [hm.nodup_iff]
        apply List.Nodup.append (h.nodup l) (h.nodup l')
        intro t ht ht'
        exact hne (h.unique ht ht')
      · rw [ho l' hll hlm]
        exact h.nodup l'
  · intro t l'
    by_cases hll : l' = l
    · subst hll
      rw [hl]
      split
      · simp [Ne.symm hne]
      · rename_i hlink
        simp [hlink]
    · by_cases hlm : l' = m
      · subst hlm
        rw [hm.mem_iff, mem_append, ← h.mem_iff, ← h.mem_iff]
        split
        · rename_i hlink
          simp [hlink]
        · rename_i hlink
          simp [hlink]
      · rw [ho l' hll hlm, ← h.mem_iff]
        split
        · rename_i hlink
          simp [hlink, Ne.symm hlm, Ne.symm hll]
        · rfl

end Placed

end Lib
