import Mathlib.Data.List.Nodup
import Mathlib.Data.List.Perm.Basic
import Mathlib.Data.Nat.ModEq

/-!
# Containers — a queue and a map in memory that grows

A `Fifo` keeps its items in a buffer, from `head` on and around the end.  `Chains` keep the entries
of a map in buckets, by the hash of their key.  Both are laid out anew when they grow; `Fifo.Holds`
and `Chained` say which list and which map they stand for.

`Conforms` says that the answers to a list of inputs are as a specification has them.
-/

namespace Lib

open Function List

/-! ## Answers -/

section Answers

variable {σ τ ι ω : Type*} {step : σ → ι → ω × σ} {spec : τ → ι → ω → τ → Prop}

def answers (step : σ → ι → ω × σ) : σ → List ι → List ω × σ
  | s, [] => ([], s)
  | s, i :: is => ((step s i).1 :: (answers step (step s i).2 is).1, (answers step (step s i).2 is).2)

inductive Conforms (spec : τ → ι → ω → τ → Prop) : τ → List ι → List ω → τ → Prop
  | nil {t : τ} : Conforms spec t [] [] t
  | cons {t t' t'' : τ} {i : ι} {o : ω} {is : List ι} {os : List ω} (h : spec t i o t')
    (rest : Conforms spec t' is os t'') :
      Conforms spec t (i :: is) (o :: os) t''

theorem conforms_of_simulates {R : σ → τ → Prop}
    (hR : ∀ s t i, R s t → ∃ t', spec t i (step s i).1 t' ∧ R (step s i).2 t')
    {s : σ} {t : τ} (h : R s t) (is : List ι) :
    ∃ t', Conforms spec t is (answers step s is).1 t' ∧ R (answers step s is).2 t' := by
  induction is generalizing s t with
  | nil => exact ⟨t, .nil, h⟩
  | cons i is ih =>
    rcases hR s t i h with ⟨t₁, hspec, h₁⟩
    rcases ih h₁ with ⟨t₂, hrest, h₂⟩
    exact ⟨t₂, .cons hspec hrest, h₂⟩

end Answers

/-! ## A queue in a buffer -/

/-- A cell that has not been written has no item. -/
structure Fifo (α : Type*) where
  items : Nat → Option α := fun _ => none
  head : Nat := 0
  count : Nat := 0
  cap : Nat := 0

namespace Fifo

variable {α : Type*} {f : Fifo α} {xs : List α}

/-- The cell of the `i`th item. -/
def cell (f : Fifo α) (i : Nat) : Nat :=
  (f.head + i) % f.cap

def grow (f : Fifo α) : Fifo α where
  items i := if i < f.count then f.items (f.cell i) else none
  count := f.count
  cap := if f.cap = 0 then 4 else f.cap * 2

/-- `put` is for a buffer with a free cell. -/
def put (f : Fifo α) (a : α) : Fifo α :=
  { f with items := update f.items (f.cell f.count) (some a), count := f.count + 1 }

def pop (f : Fifo α) : Option α × Fifo α :=
  if f.count = 0 then (none, f)
  else (f.items f.head, { f with head := (f.head + 1) % f.cap, count := f.count - 1 })

def peek (f : Fifo α) : Option α :=
  if f.count = 0 then none else f.items f.head

/-- The buffer has the items of the list, and no cell outside is used. -/
structure Holds (f : Fifo α) (xs : List α) : Prop where
  count : f.count = xs.length
  room : f.count ≤ f.cap
  head : f.cap = 0 ∨ f.head < f.cap
  items : ∀ i < xs.length, f.items (f.cell i) = xs[i]?

theorem cell_injective {i j : Nat} (hi : i < f.cap) (hj : j < f.cap) (h : f.cell i = f.cell j) : i = j := by
  have hmod : i ≡ j [MOD f.cap] := Nat.ModEq.add_left_cancel' f.head h
  calc
    i = i % f.cap := (Nat.mod_eq_of_lt hi).symm
    _ = j % f.cap := hmod
    _ = j := Nat.mod_eq_of_lt hj

namespace Holds

theorem empty : Holds ({ } : Fifo α) [] :=
  ⟨rfl, le_refl _, .inl rfl, fun _ hi => absurd hi (Nat.not_lt_zero _)⟩

theorem grow (h : f.Holds xs) : f.grow.Holds xs ∧ f.grow.count < f.grow.cap := by
  have hcap : f.count < f.grow.cap := by
    have hroom := h.room
    unfold Fifo.grow
    dsimp only
    split <;> omega
  refine ⟨⟨h.count, le_of_lt hcap, .inr (Nat.zero_lt_of_lt hcap), ?_⟩, hcap⟩
  intro i hi
  have hi' : i < f.count := h.count ▸ hi
  have hcell : f.grow.cell i = i := by
    unfold cell
    exact (congrArg (· % _) (Nat.zero_add i)).trans (Nat.mod_eq_of_lt (lt_trans hi' hcap))
  rw [hcell]
  exact (if_pos hi').trans (h.items i hi)

theorem put (h : f.Holds xs) (hroom : f.count < f.cap) (a : α) : (f.put a).Holds (xs ++ [a]) := by
  refine ⟨by simp [Fifo.put, h.count], hroom, h.head, ?_⟩
  intro i hi
  change update f.items (f.cell f.count) (some a) (f.cell i) = _
  rw [length_append, length_singleton] at hi
  rcases Nat.lt_or_eq_of_le (Nat.le_of_lt_succ hi) with hlt | heq
  · have hi' : i < f.count := h.count ▸ hlt
    have hne : f.cell i ≠ f.cell f.count :=
      fun heq => ne_of_lt hi' (cell_injective (lt_trans hi' hroom) hroom heq)
    rw [update_of_ne hne, h.items i hlt, List.getElem?_append_left hlt]
  · rw [heq, ← h.count, update_self, h.count, List.getElem?_concat_length]

theorem cell_zero (h : f.Holds xs) (hpos : 0 < f.count) : f.cell 0 = f.head := by
  have hcap := lt_of_lt_of_le hpos h.room
  exact Nat.mod_eq_of_lt (h.head.resolve_left (Nat.ne_of_gt hcap))

theorem peek (h : f.Holds xs) : f.peek = xs.head? := by
  unfold Fifo.peek
  cases xs with
  | nil => exact if_pos h.count
  | cons a xs =>
    have hpos : 0 < f.count := h.count ▸ Nat.succ_pos _
    rw [if_neg (Nat.ne_of_gt hpos), ← h.cell_zero hpos]
    exact h.items 0 (Nat.succ_pos _)

theorem pop (h : f.Holds xs) : f.pop.1 = xs.head? ∧ f.pop.2.Holds xs.tail := by
  have hfirst : f.pop.1 = f.peek := by
    unfold Fifo.pop Fifo.peek
    split <;> rfl
  refine ⟨hfirst.trans h.peek, ?_⟩
  unfold Fifo.pop
  cases xs with
  | nil =>
    have hzero : f.count = 0 := h.count
    rw [if_pos hzero]
    exact h
  | cons a xs =>
    have hpos : 0 < f.count := h.count ▸ Nat.succ_pos _
    have hcap := lt_of_lt_of_le hpos h.room
    rw [if_neg (Nat.ne_of_gt hpos)]
    refine ⟨by simp [h.count], le_trans (Nat.sub_le _ _) h.room, .inr (Nat.mod_lt _ hcap), ?_⟩
    intro i hi
    have hcell : ((f.head + 1) % f.cap + i) % f.cap = f.cell (i + 1) := by
      unfold cell
      rw [Nat.mod_add_mod, Nat.add_assoc, Nat.add_comm 1 i]
    exact (congrArg f.items hcell).trans (h.items (i + 1) (Nat.succ_lt_succ hi))

end Holds

end Fifo

/-! ## A map in chains -/

section Chains

variable {κ α : Type*} (key : α → κ) (hash : κ → Nat → Nat)

def find [DecidableEq κ] (buckets : List (List α)) (k : κ) : Option α :=
  (buckets.getD (hash k buckets.length) []).find? fun a => key a = k

def link (buckets : List (List α)) (a : α) : List (List α) :=
  buckets.modify (hash (key a) buckets.length) (a :: ·)

def unlink [DecidableEq α] (buckets : List (List α)) (a : α) : List (List α) :=
  buckets.modify (hash (key a) buckets.length) (·.erase a)

/-- The entries go to new buckets one after the other. -/
def rehash (buckets : List (List α)) (cap : Nat) : List (List α) :=
  buckets.flatten.foldl (link key hash) (List.replicate cap [])

structure Chained (buckets : List (List α)) (m : κ → Option α) : Prop where
  placed : ∀ j chain, buckets[j]? = some chain → ∀ a ∈ chain, hash (key a) buckets.length = j
  nodup : buckets.flatten.Nodup
  map : ∀ k a, m k = some a ↔ a ∈ buckets.flatten ∧ key a = k

variable {key hash} {buckets : List (List α)} {m : κ → Option α}

namespace Chained

theorem empty (cap : Nat) : Chained key hash (List.replicate cap []) fun _ => none := by
  refine ⟨?_, by simp, by simp⟩
  intro j chain hj a ha
  rw [List.getElem?_replicate] at hj
  split at hj
  · cases hj
    cases ha
  · cases hj

theorem find [DecidableEq κ] (h : Chained key hash buckets m) (k : κ) :
    Lib.find key hash buckets k = m k := by
  unfold Lib.find
  rw [getD_eq_getElem?_getD]
  have hsub : ∀ a ∈ buckets[hash k buckets.length]?.getD [], a ∈ buckets.flatten := by
    intro a ha
    cases hchain : buckets[hash k buckets.length]? with
    | none =>
      rw [hchain] at ha
      cases ha
    | some chain =>
      rw [hchain] at ha
      exact mem_flatten.2 ⟨chain, mem_of_getElem? hchain, ha⟩
  cases hfind : (buckets[hash k buckets.length]?.getD []).find? fun a => key a = k with
  | some a =>
    have hkey : key a = k := by simpa using List.find?_some hfind
    exact ((h.map k a).2 ⟨hsub a (mem_of_find?_eq_some hfind), hkey⟩).symm
  | none =>
    -- an entry with this key would be in this bucket
    refine (Option.eq_none_iff_forall_ne_some.2 fun a ha => ?_).symm
    rcases (h.map k a).1 ha with ⟨hmem, hkey⟩
    rcases mem_flatten.1 hmem with ⟨chain, hchain, ha⟩
    rcases List.getElem?_of_mem hchain with ⟨j, hj⟩
    have hplaced := h.placed j chain hj a ha
    rw [hkey] at hplaced
    rw [hplaced, hj] at hfind
    exact List.find?_eq_none.1 hfind a ha (decide_eq_true hkey)

theorem placed_modify (h : Chained key hash buckets m) (k : κ) {f : List α → List α}
    (hf : ∀ chain, ∀ a ∈ f chain, a ∈ chain ∨ key a = k) (j : Nat) (chain : List α)
    (hj : (buckets.modify (hash k buckets.length) f)[j]? = some chain) (a : α) (ha : a ∈ chain) :
    hash (key a) (buckets.modify (hash k buckets.length) f).length = j := by
  rw [length_modify]
  rw [List.getElem?_modify] at hj
  rcases Option.map_eq_some_iff.1 hj with ⟨old, hold, heq⟩
  split at heq
  · rename_i hbucket
    rcases hf old a (heq ▸ ha) with hmem | hkey
    · exact h.placed j old hold a hmem
    · exact hkey ▸ hbucket
  · exact h.placed j old hold a (heq ▸ ha)

theorem flatten_modify {i : Nat} (hi : i < buckets.length) (f : List α → List α) :
    ∃ rest, buckets.flatten.Perm (buckets[i] ++ rest) ∧
      (buckets.modify i f).flatten.Perm (f buckets[i] ++ rest) := by
  refine ⟨(buckets.take i).flatten ++ (buckets.drop (i + 1)).flatten, ?_, ?_⟩
  · have hsplit :
        buckets.flatten = (buckets.take i ++ buckets[i] :: buckets.drop (i + 1)).flatten := by simp
    rw [hsplit, flatten_append, flatten_cons]
    exact perm_append_comm_assoc _ _ _
  · rw [modify_eq_take_cons_drop hi, flatten_append, flatten_cons]
    exact perm_append_comm_assoc _ _ _

variable [DecidableEq κ]

theorem link (h : Chained key hash buckets m) {a : α} (hnew : m (key a) = none)
    (hlt : hash (key a) buckets.length < buckets.length) :
    Chained key hash (Lib.link key hash buckets a) (update m (key a) (some a)) ∧
      (Lib.link key hash buckets a).flatten.Perm (a :: buckets.flatten) := by
  have hperm : (Lib.link key hash buckets a).flatten.Perm (a :: buckets.flatten) := by
    rcases flatten_modify hlt (a :: ·) with ⟨rest, hold, hlink⟩
    exact hlink.trans (hold.symm.cons a)
  have hnone : ∀ b ∈ buckets.flatten, key b ≠ key a :=
    fun b hb heq => nomatch hnew.symm.trans ((h.map (key a) b).2 ⟨hb, heq⟩)
  refine ⟨⟨h.placed_modify (key a) ?_, ?_, ?_⟩, hperm⟩
  · intro chain b hb
    rcases mem_cons.1 hb with rfl | hb
    · exact .inr rfl
    · exact .inl hb
  · exact hperm.nodup_iff.2 (nodup_cons.2 ⟨fun hmem => hnone a hmem rfl, h.nodup⟩)
  · intro k b
    rw [hperm.mem_iff, mem_cons]
    by_cases hk : k = key a
    · subst hk
      rw [update_self, Option.some.injEq]
      constructor
      · rintro rfl
        exact ⟨.inl rfl, rfl⟩
      · rintro ⟨rfl | hb, hkey⟩
        · rfl
        · exact absurd hkey (hnone b hb)
    · rw [update_of_ne hk, h.map]
      constructor
      · exact fun hb => ⟨.inr hb.1, hb.2⟩
      · rintro ⟨rfl | hb, hkey⟩
        · exact absurd hkey.symm hk
        · exact ⟨hb, hkey⟩

theorem unlink [DecidableEq α] (h : Chained key hash buckets m) {a : α} (ha : m (key a) = some a) :
    Chained key hash (Lib.unlink key hash buckets a) (update m (key a) none) ∧
      buckets.flatten.Perm (a :: (Lib.unlink key hash buckets a).flatten) := by
  have hperm : buckets.flatten.Perm (a :: (Lib.unlink key hash buckets a).flatten) := by
    rcases mem_flatten.1 ((h.map (key a) a).1 ha).1 with ⟨chain, hchain, hmem⟩
    rcases List.getElem?_of_mem hchain with ⟨j, hj⟩
    have hplaced := h.placed j chain hj a hmem
    rcases List.getElem?_eq_some_iff.1 hj with ⟨hlt, rfl⟩
    subst hplaced
    rcases flatten_modify hlt (·.erase a) with ⟨rest, hold, hunlink⟩
    have herase := (perm_cons_erase hmem).append_right rest
    exact hold.trans (herase.trans (hunlink.symm.cons a))
  have hnodup := nodup_cons.1 (hperm.nodup_iff.1 h.nodup)
  refine ⟨⟨h.placed_modify (key a) fun chain b hb => .inl (mem_of_mem_erase hb), hnodup.2, ?_⟩, hperm⟩
  intro k b
  have hmem : b ∈ buckets.flatten ↔ b = a ∨ b ∈ (Lib.unlink key hash buckets a).flatten :=
    hperm.mem_iff.trans mem_cons
  by_cases hk : k = key a
  · subst hk
    rw [update_self]
    refine iff_of_false nofun fun hb => hnodup.1 ?_
    -- the entry with this key was `a`
    have hsome := (h.map _ b).2 ⟨hmem.2 (.inr hb.1), hb.2⟩
    cases ha.symm.trans hsome
    exact hb.1
  · rw [update_of_ne hk, h.map, hmem]
    constructor
    · rintro ⟨rfl | hb, hkey⟩
      · exact absurd hkey.symm hk
      · exact ⟨hb, hkey⟩
    · exact fun hb => ⟨.inr hb.1, hb.2⟩

theorem links {cap : Nat} (hlt : ∀ k, hash k cap < cap) (entries : List α) (hkeys : (entries.map key).Nodup)
    (h : Chained key hash buckets m) (hnew : ∀ a ∈ entries, m (key a) = none)
    (hcap : buckets.length = cap) :
    ∃ m', Chained key hash (entries.foldl (Lib.link key hash) buckets) m' ∧
      (entries.foldl (Lib.link key hash) buckets).flatten.Perm (entries ++ buckets.flatten) ∧
      (entries.foldl (Lib.link key hash) buckets).length = cap := by
  induction entries generalizing buckets m with
  | nil => exact ⟨m, h, .refl _, hcap⟩
  | cons a entries ih =>
    rcases nodup_cons.1 hkeys with ⟨hfresh, hrest⟩
    rcases h.link (hnew a mem_cons_self) (hcap ▸ hlt (key a)) with ⟨hlink, hperm⟩
    have hnew' : ∀ b ∈ entries, update m (key a) (some a) (key b) = none := by
      intro b hb
      have hne : key b ≠ key a := fun heq => hfresh (heq ▸ mem_map_of_mem hb)
      rw [update_of_ne hne]
      exact hnew b (mem_cons_of_mem a hb)
    rcases ih hrest hlink hnew' ((length_modify ..).trans hcap) with ⟨m', hm', hall, hlength⟩
    exact ⟨m', hm', (hall.trans (hperm.append_left entries)).trans perm_middle, hlength⟩

theorem rehash (h : Chained key hash buckets m) {cap : Nat} (hlt : ∀ k, hash k cap < cap) :
    Chained key hash (Lib.rehash key hash buckets cap) m ∧
      (Lib.rehash key hash buckets cap).flatten.Perm buckets.flatten ∧
        (Lib.rehash key hash buckets cap).length = cap := by
  have hkeys : (buckets.flatten.map key).Nodup := by
    refine List.Nodup.map_on (fun a ha b hb heq => ?_) h.nodup
    have hsome := ((h.map _ a).2 ⟨ha, rfl⟩).symm.trans ((h.map _ b).2 ⟨hb, heq.symm⟩)
    exact Option.some.inj hsome
  rcases (Chained.empty cap).links hlt buckets.flatten hkeys (fun _ _ => rfl) length_replicate with
    ⟨m', hm', hperm, hlength⟩
  have hperm : (Lib.rehash key hash buckets cap).flatten.Perm buckets.flatten := by
    refine hperm.trans ?_
    simp
  refine ⟨?_, hperm, hlength⟩
  have heq : m' = m := by
    funext k
    refine Option.ext fun a => ?_
    rw [hm'.map, h.map]
    exact and_congr_left fun _ => hperm.mem_iff
  exact heq ▸ hm'

end Chained

end Chains

end Lib
