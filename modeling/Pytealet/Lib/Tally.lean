import Mathlib.Algebra.Order.BigOperators.Group.List
import Mathlib.Algebra.Order.Ring.Nat
import Mathlib.Data.List.Basic

/-!
# Tally — counts over a list of agents, one of which moves

A system of agents is a list; `tally f l` adds up what each of them counts for.  When the agent at
position `k` changes, the tally changes by the difference.  When the tally is at most one, what the
others hold is empty, so that the concatenation of what all of them hold is what one of them holds.
-/

namespace Lib

open List

variable {α β : Type*}

def tally (f : α → Nat) (l : List α) : Nat :=
  (l.map f).sum

namespace Tally

variable {f : α → Nat} {g : α → List β} {l : List α} {a b : α} {k : Nat}

@[simp]
theorem tally_append (f : α → Nat) (l : List α) (a : α) : tally f (l ++ [a]) = tally f l + f a := by
  simp [tally]

theorem tally_set (hk : l[k]? = some a) (b : α) : tally f (l.set k b) + f a = tally f l + f b := by
  induction l generalizing k with
  | nil => simp at hk
  | cons c l ih =>
    cases k with
    | zero =>
      have hca : c = a := by simpa using hk
      subst hca
      simp only [tally, set_cons_zero, map_cons, sum_cons]
      omega
    | succ k =>
      have hk' : l[k]? = some a := by simpa using hk
      have hrec := ih hk'
      simp only [tally, set_cons_succ, map_cons, sum_cons] at hrec ⊢
      omega

theorem tally_eraseIdx (hk : l[k]? = some a) : tally f (l.eraseIdx k) + f a = tally f l := by
  induction l generalizing k with
  | nil => simp at hk
  | cons c l ih =>
    cases k with
    | zero =>
      have hca : c = a := by simpa using hk
      subst hca
      simp only [tally, eraseIdx_cons_zero, map_cons, sum_cons]
      omega
    | succ k =>
      have hk' : l[k]? = some a := by simpa using hk
      have hrec := ih hk'
      simp only [tally, eraseIdx_cons_succ, map_cons, sum_cons] at hrec ⊢
      omega

theorem tally_map {t : α → α} (ht : ∀ a, f (t a) = f a) (l : List α) :
    tally f (l.map t) = tally f l := by
  simp [tally, Function.comp_def, ht]

theorem le_tally (hk : l[k]? = some a) : f a ≤ tally f l := by
  have hmem : f a ∈ l.map f := mem_map_of_mem (mem_of_getElem? hk)
  exact single_le_sum (by simp) _ hmem

theorem tally_mono {g : α → Nat} (hfg : ∀ a, f a ≤ g a) (l : List α) : tally f l ≤ tally g l :=
  sum_le_sum fun a _ => hfg a

/-- Agents that count for nothing hold nothing. -/
theorem flatMap_eq_nil (hg : ∀ a, f a = 0 → g a = []) (hl : tally f l = 0) : l.flatMap g = [] := by
  rw [flatMap_eq_nil_iff]
  intro a ha
  rcases List.getElem?_of_mem ha with ⟨k, hk⟩
  have hle := le_tally (f := f) hk
  exact hg a (by omega)

theorem flatMap_set (hk : l[k]? = some a) (hab : g b = g a) : (l.set k b).flatMap g = l.flatMap g := by
  induction l generalizing k with
  | nil => simp at hk
  | cons c l ih =>
    cases k with
    | zero =>
      have hca : c = a := by simpa using hk
      subst hca
      simp [hab]
    | succ k =>
      have hk' : l[k]? = some a := by simpa using hk
      simp [ih hk']

/-- What agent `k` holds, and what the others hold. -/
theorem flatMap_perm (hk : l[k]? = some a) : (l.flatMap g).Perm (g a ++ (l.eraseIdx k).flatMap g) := by
  rcases List.getElem?_eq_some_iff.mp hk with ⟨hlt, heq⟩
  have hperm : (a :: l.eraseIdx k).Perm l := heq ▸ getElem_cons_eraseIdx_perm hlt
  exact (hperm.flatMap_right g).symm

theorem flatMap_set_perm (hk : l[k]? = some a) (b : α) :
    ((l.set k b).flatMap g).Perm (g b ++ (l.eraseIdx k).flatMap g) := by
  rcases List.getElem?_eq_some_iff.mp hk with ⟨hlt, _⟩
  exact (set_perm_cons_eraseIdx hlt b).flatMap_right g

theorem flatMap_eq_of_tally (hg : ∀ a, f a = 0 → g a = []) (hk : l[k]? = some a)
    (hl : tally f l ≤ f a) : l.flatMap g = g a := by
  induction l generalizing k with
  | nil => simp at hk
  | cons c l ih =>
    cases k with
    | zero =>
      have hca : c = a := by simpa using hk
      subst hca
      have hrest : tally f l = 0 := by
        simp only [tally, map_cons, sum_cons] at hl ⊢
        omega
      simp [flatMap_eq_nil hg hrest]
    | succ k =>
      have hk' : l[k]? = some a := by simpa using hk
      have hle := le_tally (f := f) hk'
      have hc : f c = 0 := by
        simp only [tally, map_cons, sum_cons] at hl hle
        omega
      have hl' : tally f l ≤ f a := by
        simp only [tally, map_cons, sum_cons] at hl ⊢
        omega
      simp [hg c hc, ih hk' hl']

end Tally
end Lib
