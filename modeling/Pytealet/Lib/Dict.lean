import Mathlib.Data.List.Nodup

/-!
# Dict — a dictionary that keeps its keys in the order of their insertion

`set` gives a new value to a key where it stands, or puts the key at the end; `erase` takes it out.
No key occurs twice, so to be an item and to be found are the same.
-/

namespace Lib

open List

structure Dict (ι α : Type*) where
  items : List (ι × α)
  nodup : (items.map Prod.fst).Nodup

namespace Dict

variable {ι α : Type*} [DecidableEq ι]

def empty : Dict ι α where
  items := []
  nodup := nodup_nil

def get? (d : Dict ι α) (k : ι) : Option α :=
  d.items.lookup k

/-- A list of items with a new value for a key. -/
def put (k : ι) (v : α) : List (ι × α) → List (ι × α)
  | [] => [(k, v)]
  | (k', v') :: items => if k' = k then (k, v) :: items else (k', v') :: put k v items

theorem keys_put (k : ι) (v : α) (items : List (ι × α)) (k' : ι) :
    k' ∈ (put k v items).map Prod.fst ↔ k' = k ∨ k' ∈ items.map Prod.fst := by
  induction items with
  | nil => simp [put]
  | cons item items ih =>
    unfold put
    split
    · rename_i heq
      subst heq
      simp
    · simp only [map_cons, mem_cons, ih]
      exact or_left_comm

theorem nodup_put (k : ι) (v : α) {items : List (ι × α)} (h : (items.map Prod.fst).Nodup) :
    ((put k v items).map Prod.fst).Nodup := by
  induction items with
  | nil => simp [put]
  | cons item items ih =>
    rcases nodup_cons.1 h with ⟨hfresh, hrest⟩
    unfold put
    split
    · rename_i heq
      subst heq
      exact h
    · rename_i hne
      refine nodup_cons.2 ⟨fun hmem => ?_, ih hrest⟩
      rcases (keys_put k v items item.1).1 hmem with heq | hold
      · exact hne heq
      · exact hfresh hold

def set (d : Dict ι α) (k : ι) (v : α) : Dict ι α where
  items := put k v d.items
  nodup := nodup_put k v d.nodup

def erase (d : Dict ι α) (k : ι) : Dict ι α where
  items := d.items.filter fun item => item.1 ≠ k
  nodup := d.nodup.sublist (filter_sublist.map Prod.fst)

def keys (d : Dict ι α) : List ι :=
  d.items.map Prod.fst

variable {d : Dict ι α} {k k' : ι} {v : α}

theorem lookup_cons (item : ι × α) (items : List (ι × α)) (k : ι) :
    (item :: items).lookup k = if k = item.1 then some item.2 else items.lookup k := by
  rw [List.lookup_cons]
  by_cases heq : k = item.1
  · rw [if_pos heq, beq_iff_eq.2 heq]
  · rw [if_neg heq, beq_eq_false_iff_ne.2 heq]

theorem mem_iff_lookup {items : List (ι × α)} (h : (items.map Prod.fst).Nodup) :
    (k, v) ∈ items ↔ items.lookup k = some v := by
  induction items with
  | nil => simp
  | cons item items ih =>
    rcases nodup_cons.1 h with ⟨hfresh, hrest⟩
    rw [lookup_cons, mem_cons, ih hrest]
    split
    · rename_i heq
      -- the key does not occur behind
      have hnot : items.lookup k ≠ some v := fun hv =>
        hfresh (heq ▸ mem_map_of_mem ((ih hrest).2 hv))
      rw [or_iff_left hnot, Prod.ext_iff, Option.some.injEq, and_iff_right heq]
      exact eq_comm
    · rename_i hne
      exact or_iff_right fun heq => hne (congrArg Prod.fst heq)

/-- The items are what is found. -/
theorem mem_items : (k, v) ∈ d.items ↔ d.get? k = some v :=
  mem_iff_lookup d.nodup

theorem lookup_put (items : List (ι × α)) (k : ι) (v : α) (k' : ι) :
    (put k v items).lookup k' = if k' = k then some v else items.lookup k' := by
  induction items with
  | nil =>
    rw [put, lookup_cons]
  | cons item items ih =>
    unfold put
    split
    · rename_i heq
      rw [lookup_cons, lookup_cons, heq]
      split
      · rfl
      · rfl
    · rename_i hne
      rw [lookup_cons, lookup_cons, ih]
      by_cases heq : k' = item.1
      · rw [if_pos heq, if_pos heq, if_neg (heq ▸ hne)]
      · rw [if_neg heq, if_neg heq]

theorem get?_set (d : Dict ι α) (k : ι) (v : α) (k' : ι) :
    (d.set k v).get? k' = if k' = k then some v else d.get? k' :=
  lookup_put d.items k v k'

theorem lookup_filter_ne (items : List (ι × α)) (k k' : ι) :
    (items.filter fun item => item.1 ≠ k).lookup k' = if k' = k then none else items.lookup k' := by
  induction items with
  | nil => simp
  | cons item items ih =>
    rw [filter_cons]
    by_cases hitem : item.1 = k
    · rw [if_neg (by simpa using hitem), ih, lookup_cons, hitem]
      split
      · rfl
      · rfl
    · rw [if_pos (by simpa using hitem), lookup_cons, lookup_cons, ih]
      by_cases heq : k' = item.1
      · rw [if_pos heq, if_pos heq, if_neg (heq ▸ hitem)]
      · rw [if_neg heq, if_neg heq]

theorem get?_erase (d : Dict ι α) (k k' : ι) : (d.erase k).get? k' = if k' = k then none else d.get? k' :=
  lookup_filter_ne d.items k k'

/-! ## Merging -/

/-- The items of `src` go into `dst`; a value that is there already is combined with the new one. -/
def merge (f : α → α → α) (dst src : Dict ι α) : Dict ι α :=
  src.items.foldl (fun dst item => dst.set item.1
    (((dst.get? item.1).map fun v => f v item.2).getD item.2)) dst

theorem get?_merge (f : α → α → α) (dst src : Dict ι α) (k : ι) :
    (dst.merge f src).get? k = Option.merge f (dst.get? k) (src.get? k) := by
  have hitems : ∀ (items : List (ι × α)) (dst : Dict ι α), (items.map Prod.fst).Nodup →
      (items.foldl (fun dst item => dst.set item.1
        (((dst.get? item.1).map fun v => f v item.2).getD item.2)) dst).get? k =
        Option.merge f (dst.get? k) (items.lookup k) := by
    intro items
    induction items with
    | nil =>
      intro dst _
      cases hget : dst.get? k <;> simp [hget]
    | cons item items ih =>
      -- the key of the head is not met again
      intro dst hnodup
      rcases nodup_cons.1 hnodup with ⟨hfresh, hrest⟩
      rw [foldl_cons, ih _ hrest, get?_set, lookup_cons]
      by_cases heq : k = item.1
      · have hnone : items.lookup k = none := by
          refine Option.eq_none_iff_forall_ne_some.2 fun v hv => hfresh ?_
          rw [← heq]
          exact mem_map_of_mem ((mem_iff_lookup hrest).2 hv)
        rw [if_pos heq, if_pos heq, hnone, heq]
        cases dst.get? item.1 <;> simp
      · rw [if_neg heq, if_neg heq]
  exact hitems src.items dst src.nodup

end Dict
end Lib
