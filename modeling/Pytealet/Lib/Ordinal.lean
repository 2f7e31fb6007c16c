import Mathlib.Data.List.Range

/-!
# Ordinal — streams of deliveries with consecutive indices and one end

A stream delivers items with an `index` and a flag `more`.  While it goes on, every item says that
there is more and the next index is the first free one; it is over when the last item, and only that
one, says that there is no more.
-/

namespace Lib.Ordinal

open List

variable {δ : Type*} (index : δ → Nat) (more : δ → Bool) (base : Nat)

/-- The indices of what has been delivered are `base`, `base + 1`, `base + 2`, …. -/
def Consecutive (ds : List δ) : Prop :=
  ds.map index = List.range' base ds.length

/-- Nothing has ended the stream, and `next` is the index of its next delivery. -/
structure Going (next : Nat) (ds : List δ) : Prop where
  consecutive : Consecutive index base ds
  next_eq : next = base + ds.length
  more : ∀ d ∈ ds, more d = true

/-- The last delivery, and no other, is an end. -/
structure Over (ds : List δ) : Prop where
  consecutive : Consecutive index base ds
  before : ∀ d ∈ ds.dropLast, more d = true
  last : ∃ d, ds.getLast? = some d ∧ more d = false

variable {index more base} {next : Nat} {ds : List δ} {d : δ}

theorem Consecutive.nodup (h : Consecutive index base ds) : (ds.map index).Nodup := by
  rw [h]
  exact nodup_range'

namespace Going

theorem nil : Going index more base base [] where
  consecutive := rfl
  next_eq := rfl
  more := by simp

theorem consecutive_append (h : Going index more base next ds) (hindex : index d = next) :
    Consecutive index base (ds ++ [d]) := by
  have hds : ds.map index = List.range' base ds.length := h.consecutive
  have hnext := h.next_eq
  unfold Consecutive
  rw [map_append, hds, length_append, length_singleton, List.range'_concat]
  simp [hindex, hnext]

theorem push (h : Going index more base next ds) (hindex : index d = next) (hmore : more d = true) :
    Going index more base (next + 1) (ds ++ [d]) where
  consecutive := h.consecutive_append hindex
  next_eq := by
    rw [h.next_eq, length_append, length_singleton, Nat.add_assoc]
  more := by
    intro x hx
    rcases mem_append.1 hx with hx | hx
    · exact h.more x hx
    · rw [mem_singleton.1 hx]
      exact hmore

theorem close (h : Going index more base next ds) (hindex : index d = next) (hmore : more d = false) :
    Over index more base (ds ++ [d]) where
  consecutive := h.consecutive_append hindex
  before := by
    rw [dropLast_concat]
    exact h.more
  last := ⟨d, List.getLast?_concat, hmore⟩

theorem before (h : Going index more base next ds) : ∀ d ∈ ds.dropLast, more d = true :=
  fun d hd => h.more d (dropLast_subset ds hd)

end Going
end Lib.Ordinal
