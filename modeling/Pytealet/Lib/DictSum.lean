import Mathlib.Algebra.BigOperators.Group.List.Basic
import Mathlib.Algebra.BigOperators.Pi
import Mathlib.Algebra.Group.WithOne.Defs
import Pytealet.Lib.Dict

/-!
# DictSum — dictionaries as tables that can be added

The table of a dictionary has a value for each of its keys and zero elsewhere; zero stands for a key
that is not there, and is adjoined to the values.  Tables are added pointwise.  Where two values of
a dictionary are combined by adding what they stand for, merging dictionaries adds their tables: the
order of merging does not matter then.
-/

namespace Lib.Dict

open List

variable {ι α β : Type*} [DecidableEq ι]

/-- The value that stands for what was found. -/
def value (g : α → β) : Option α → WithZero β
  | none => 0
  | some a => (g a : WithZero β)

def table (g : α → β) (d : Dict ι α) : ι → WithZero β :=
  fun k => value g (d.get? k)

theorem value_merge [AddSemigroup β] {f : α → α → α} {g : α → β} (hf : ∀ a b, g (f a b) = g a + g b)
    (x y : Option α) :
    value g (Option.merge f x y) = value g x + value g y := by
  cases x with
  | none => cases y <;> simp [value]
  | some a =>
    cases y with
    | none => simp [value]
    | some b =>
      simp only [value, Option.merge_some_some, hf]
      exact WithZero.coe_add (g a) (g b)

/-- Merging adds. -/
theorem table_merge [AddSemigroup β] {f : α → α → α} {g : α → β} (hf : ∀ a b, g (f a b) = g a + g b)
    (dst src : Dict ι α) : table g (dst.merge f src) = table g dst + table g src := by
  funext k
  simp only [table, get?_merge, value_merge hf, Pi.add_apply]

/-- What a dictionary that is set at a key has there, and nothing else. -/
def single [Add β] (k : ι) (b : β) : ι → WithZero β :=
  Pi.single k (b : WithZero β)

/-- What is added to the value at a key is added to the table there. -/
theorem table_set [AddCommSemigroup β] {g : α → β} {d : Dict ι α} {k : ι} {a : α} {b : β}
    (h : (g a : WithZero β) = value g (d.get? k) + b) : table g (d.set k a) = table g d + single k b := by
  funext k'
  simp only [table, get?_set, Pi.add_apply, single]
  by_cases heq : k' = k
  · rw [if_pos heq, heq, Pi.single_eq_same]
    exact h
  · rw [if_neg heq, Pi.single_eq_of_ne heq, add_zero]

theorem single_add [AddCommSemigroup β] (k : ι) (a b : β) : single k (a + b) = single k a + single k b := by
  unfold single
  rw [WithZero.coe_add, Pi.single_add]

/-! ## Sums over the items -/

section Sum

variable {M : Type*} [AddCommMonoid M]

def sum (F : ι → α → M) (d : Dict ι α) : M :=
  (d.items.map fun item => F item.1 item.2).sum

theorem sum_set (F : ι → α → M) (d : Dict ι α) (k : ι) (a : α) (x : M)
    (h : F k a = ((d.get? k).map (F k)).getD 0 + x) :
    sum F (d.set k a) = sum F d + x := by
  have hitems : ∀ items : List (ι × α), F k a = ((items.lookup k).map (F k)).getD 0 + x →
      ((put k a items).map fun item => F item.1 item.2).sum =
        (items.map fun item => F item.1 item.2).sum + x := by
    intro items
    induction items with
    | nil =>
      intro h
      simpa [put] using h
    | cons item items ih =>
      intro h
      unfold put
      rw [lookup_cons] at h
      split
      · rename_i heq
        subst heq
        rw [if_pos rfl, Option.map_some, Option.getD_some] at h
        simp only [map_cons, sum_cons, h]
        exact add_right_comm _ _ _
      · rename_i hne
        rw [if_neg (Ne.symm hne)] at h
        simp only [map_cons, sum_cons, ih h]
        exact (add_assoc _ _ _).symm
  exact hitems d.items h

/-- `G` is what the items of `src` bring, given what they meet in `dst`. -/
theorem sum_merge_of {F G : ι → α → M} {f : α → α → α} (dst src : Dict ι α)
    (h : ∀ k b, F k (((dst.get? k).map fun v => f v b).getD b) = ((dst.get? k).map (F k)).getD 0 + G k b) :
    sum F (dst.merge f src) = sum F dst + sum G src := by
  have hitems : ∀ (items : List (ι × α)) (d : Dict ι α), (items.map Prod.fst).Nodup →
      (∀ k ∈ items.map Prod.fst, d.get? k = dst.get? k) →
      sum F
        (items.foldl (fun d item => d.set item.1
          (((d.get? item.1).map fun v => f v item.2).getD item.2)) d) =
        sum F d + (items.map fun item => G item.1 item.2).sum := by
    intro items
    induction items with
    | nil => simp
    | cons item items ih =>
      intro d hnodup hsame
      rcases nodup_cons.mp hnodup with ⟨hfresh, hrest⟩
      have hitem := hsame item.1 mem_cons_self
      rw [foldl_cons, ih _ hrest, sum_set F d item.1 _ (G item.1 item.2) ?_, map_cons, sum_cons]
      · exact add_assoc _ _ _
      · rw [hitem]
        exact h item.1 item.2
      · -- the keys behind are other ones
        intro k hk
        rw [get?_set, if_neg fun heq : k = item.1 => hfresh (heq ▸ hk)]
        exact hsame k (mem_cons_of_mem _ hk)
  exact hitems src.items dst src.nodup fun _ _ => rfl

theorem sum_merge {F : ι → α → M} {f : α → α → α} (hf : ∀ k a b, F k (f a b) = F k a + F k b)
    (dst src : Dict ι α) :
    sum F (dst.merge f src) = sum F dst + sum F src := by
  refine sum_merge_of dst src fun k b => ?_
  cases dst.get? k <;> simp [hf]

end Sum

end Lib.Dict
