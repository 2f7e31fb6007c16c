import Mathlib.Data.List.Basic
import Mathlib.Data.List.Perm.Basic
import Mathlib.Algebra.Order.Group.Unbundled.Int

/-!
# Numbered — lists whose items are numbered one after the other

`Numbered key n l`: the keys of `l` are `n`, `n + 1`, `n + 2`, ….  What is pending in a reorder
buffer is a permutation of such a list; the item that is numbered `n` is its head, and when nothing
is numbered `n` then nothing is pending.
-/

namespace Lib

open List

variable {α : Type*} {key : α → Int} {n : Int} {l l' p : List α} {x : α}

def Numbered (key : α → Int) : Int → List α → Prop
  | _, [] => True
  | n, x :: l => key x = n ∧ Numbered key (n + 1) l

namespace Numbered

theorem append_iff : Numbered key n (l ++ l') ↔ Numbered key n l ∧ Numbered key (n + l.length) l' := by
  induction l generalizing n with
  | nil => simp [Numbered]
  | cons x l ih =>
    have hadd : n + 1 + (l.length : Int) = n + ((x :: l).length : Nat) := by
      push_cast [length_cons]
      omega
    rw [cons_append, Numbered, Numbered, ih, hadd, and_assoc]

theorem bounds (h : Numbered key n l) (hx : x ∈ l) : n ≤ key x ∧ key x < n + l.length := by
  induction l generalizing n with
  | nil => cases hx
  | cons y l ih =>
    simp only [length_cons]
    rcases mem_cons.1 hx with rfl | hx
    · have hkey := h.1
      omega
    · have hrec := ih h.2 hx
      omega

theorem eq_cons (h : Numbered key n l) (hx : x ∈ l) (hn : key x = n) : ∃ t, l = x :: t := by
  cases l with
  | nil => cases hx
  | cons y l =>
    rcases mem_cons.1 hx with rfl | hx
    · exact ⟨l, rfl⟩
    · have hbounds := h.2.bounds hx
      omega

/-- Of pending items, the one that is numbered `n` leaves the others pending. -/
theorem perm_tail (h : Numbered key n l) (hp : (x :: p).Perm l) (hn : key x = n) :
    ∃ t, l = x :: t ∧ p.Perm t := by
  rcases h.eq_cons (hp.subset mem_cons_self) hn with ⟨t, rfl⟩
  exact ⟨t, rfl, hp.cons_inv⟩

theorem eq_nil_of_perm (h : Numbered key n l) (hp : p.Perm l) (hn : ∀ x ∈ p, key x ≠ n) : l = [] := by
  cases l with
  | nil => rfl
  | cons x l => exact absurd h.1 (hn x (hp.symm.subset mem_cons_self))

end Numbered
end Lib
