import Pytealet.Lib.Containers

/-!
# FdTable — the fd table of a ring, and its FIFOs

The table has the slots in chains, under a multiplicative hash of the descriptor and a mask; it is
laid out anew when three quarters of it are taken.  The FIFOs of completions and of staged CQEs are
buffers that double when they are full.  Memory may be short in every call.
-/

namespace Pytealet.Uring.FdTable

open Lib Function

/-! ## The FIFOs -/

section Fifos

variable {α : Type*} {f : Fifo α} {xs : List α}

/-- `completion_fifo_push`; `memory` is for `fifo_grow`. -/
def completionFifoPush (f : Fifo α) (memory : Bool) (completion : α) : Bool × Fifo α :=
  if f.count = f.cap then
    if memory then (true, f.grow.put completion) else (false, f)
  else (true, f.put completion)

/-- `cqe_fifo_push`; `memory` is for the `cqe_fifo_grow` in `cqe_fifo_ensure`. -/
def cqeFifoPush (f : Fifo α) (memory : Bool) (item : α) : Bool × Fifo α :=
  if f.count < f.cap then (true, f.put item)
  else if memory then (true, f.grow.put item) else (false, f)

inductive FifoOp (α : Type*)
  | push (memory : Bool) (a : α)
  | pop
  | peek

inductive Reply (α : Type*)
  | pushed (ok : Bool)
  | item (a : Option α)

/-- `completion_fifo_pop` and `cqe_fifo_pop` are the same; there is a peek of the completion FIFO
only. -/
def fifoStep (push : Fifo α → Bool → α → Bool × Fifo α) (f : Fifo α) : FifoOp α → Reply α × Fifo α
  | .push memory a => (.pushed (push f memory a).1, (push f memory a).2)
  | .pop => (.item f.pop.1, f.pop.2)
  | .peek => (.item f.peek, f)

/-- A list, as a queue. -/
def Queue (xs : List α) : FifoOp α → Reply α → List α → Prop
  | .push _ a, .pushed true, xs' => xs' = xs ++ [a]
  | .push memory _, .pushed false, xs' => memory = false ∧ xs' = xs
  | .pop, .item a, xs' => a = xs.head? ∧ xs' = xs.tail
  | .peek, .item a, xs' => a = xs.head? ∧ xs' = xs
  | _, _, _ => False

theorem pushed (h : f.Holds xs) (memory : Bool) (a : α) {r : Bool × Fifo α}
    (hr : r = (true, f.put a) ∧ f.count ≠ f.cap ∨ r = (true, f.grow.put a) ∨
      r = (false, f) ∧ memory = false) :
    ∃ xs', Queue xs (.push memory a) (.pushed r.1) xs' ∧ r.2.Holds xs' := by
  rcases hr with ⟨rfl, hroom⟩ | rfl | ⟨rfl, hmemory⟩
  · exact ⟨xs ++ [a], rfl, h.put (Nat.lt_of_le_of_ne h.room hroom) a⟩
  · exact ⟨xs ++ [a], rfl, h.grow.1.put h.grow.2 a⟩
  · exact ⟨xs, ⟨hmemory, rfl⟩, h⟩

theorem fifo_conforms {push : Fifo α → Bool → α → Bool × Fifo α}
    (hpush : ∀ f xs memory a, Fifo.Holds f xs →
      ∃ xs', Queue xs (.push memory a) (.pushed (push f memory a).1) xs' ∧ (push f memory a).2.Holds xs')
    (ops : List (FifoOp α)) : ∃ xs, Conforms Queue [] ops (answers (fifoStep push) { } ops).1 xs := by
  have hstep : ∀ (f : Fifo α) (xs : List α) (op : FifoOp α), f.Holds xs →
      ∃ xs', Queue xs op (fifoStep push f op).1 xs' ∧ (fifoStep push f op).2.Holds xs' := by
    intro f xs op h
    cases op with
    | push memory a => exact hpush f xs memory a h
    | pop => exact ⟨xs.tail, ⟨h.pop.1, rfl⟩, h.pop.2⟩
    | peek => exact ⟨xs, ⟨h.peek, rfl⟩, h⟩
  rcases conforms_of_simulates hstep .empty ops with ⟨xs, hspec, _⟩
  exact ⟨xs, hspec⟩

theorem completionFifo_conforms (ops : List (FifoOp α)) :
    ∃ xs, Conforms Queue [] ops (answers (fifoStep completionFifoPush) { } ops).1 xs := by
  refine fifo_conforms (fun f xs memory a h => pushed h memory a ?_) ops
  unfold completionFifoPush
  split
  · cases memory with
    | true => exact .inr (.inl rfl)
    | false => exact .inr (.inr ⟨rfl, rfl⟩)
  · rename_i hroom
    exact .inl ⟨rfl, hroom⟩

theorem cqeFifo_conforms (ops : List (FifoOp α)) :
    ∃ xs, Conforms Queue [] ops (answers (fifoStep cqeFifoPush) { } ops).1 xs := by
  refine fifo_conforms (fun f xs memory a h => pushed h memory a ?_) ops
  unfold cqeFifoPush
  split
  · rename_i hroom
    exact .inl ⟨rfl, Nat.ne_of_lt hroom⟩
  · cases memory with
    | true => exact .inr (.inl rfl)
    | false => exact .inr (.inr ⟨rfl, rfl⟩)

end Fifos

/-! ## The table -/

/-- `id` is the pointer, which no other slot has. -/
structure FdSlot where
  id : Nat
  fd : Int
  deriving DecidableEq

/-- What other code has left in a slot. -/
structure SlotState where
  abortive : Bool
  active : Option Nat
  fifo : Fifo Nat

/-- `fd_hash`, on 32 bits. -/
def fdHash (fd : Int) (cap : Nat) : Nat :=
  (fd % 2 ^ 32).toNat * 2654435761 % 2 ^ 32 &&& (cap - 1) % 2 ^ 32

structure Table where
  /-- the chains; `fd_slot_cap` is how many there are -/
  fdSlots : List (List FdSlot) := []
  fdSlotCount : Nat := 0
  allocated : Nat := 0

namespace Table

def fdTableRehash (t : Table) (newCap : Nat) (memory : Bool) : Option Table :=
  if memory then some { t with fdSlots := rehash FdSlot.fd fdHash t.fdSlots newCap } else none

def fdTableLookup (t : Table) (fd : Int) : Option FdSlot :=
  if t.fdSlots.length = 0 then none else find FdSlot.fd fdHash t.fdSlots fd

/-- Room for another slot. -/
def grown (t : Table) (memory : Bool) : Option Table :=
  if t.fdSlots.length = 0 then t.fdTableRehash 8 memory
  else if t.fdSlots.length * 3 ≤ t.fdSlotCount * 4 then t.fdTableRehash (t.fdSlots.length * 2) memory
  else some t

def fdTableGet (t : Table) (fd : Int) (forTable forSlot : Bool) : Option FdSlot × Table :=
  match t.fdTableLookup fd with
  | some slot => (some slot, t)
  | none =>
    match t.grown forTable with
    | none => (none, t)
    | some t =>
      if forSlot then
        (some ⟨t.allocated, fd⟩,
          { fdSlots := link FdSlot.fd fdHash t.fdSlots ⟨t.allocated, fd⟩
            fdSlotCount := t.fdSlotCount + 1
            allocated := t.allocated + 1 })
      else (none, t)

def fdTableTryFree (t : Table) (slot : FdSlot) (state : SlotState) : Table :=
  if state.abortive || state.active.isSome || 0 < state.fifo.count then t
  else { t with fdSlots := unlink FdSlot.fd fdHash t.fdSlots slot, fdSlotCount := t.fdSlotCount - 1 }

end Table

inductive TableOp
  | lookup (fd : Int)
  | get (fd : Int) (forTable forSlot : Bool)
  /-- for the slot that the caller has of the descriptor -/
  | tryFree (fd : Int) (state : SlotState)

def step (t : Table) : TableOp → Option FdSlot × Table
  | .lookup fd => (t.fdTableLookup fd, t)
  | .get fd forTable forSlot => t.fdTableGet fd forTable forSlot
  | .tryFree fd state =>
    match t.fdTableLookup fd with
    | none => (none, t)
    | some slot => (none, t.fdTableTryFree slot state)

/-- A map from descriptors to slots. -/
def SlotMap (m : Int → Option FdSlot) : TableOp → Option FdSlot → (Int → Option FdSlot) → Prop
  | .lookup fd, slot, m' => slot = m fd ∧ m' = m
  | .get fd forTable forSlot, slot, m' =>
    (m fd ≠ none ∧ slot = m fd ∧ m' = m) ∨
      (m fd = none ∧ slot = none ∧ (forTable && forSlot) = false ∧ m' = m) ∨
      ∃ new, m fd = none ∧ slot = some new ∧ new.fd = fd ∧ (∀ fd', m fd' ≠ some new) ∧
        m' = update m fd (some new)
  | .tryFree fd state, _, m' =>
    m' = if state.abortive || state.active.isSome || 0 < state.fifo.count then m else update m fd none

/-- The chains have the slots of the map. -/
structure Inv (t : Table) (m : Int → Option FdSlot) : Prop where
  chained : Chained FdSlot.fd fdHash t.fdSlots m
  count : t.fdSlotCount = t.fdSlots.flatten.length
  old : ∀ slot ∈ t.fdSlots.flatten, slot.id < t.allocated

namespace Inv

variable {t t' : Table} {m : Int → Option FdSlot}

theorem fdHash_lt (fd : Int) {cap : Nat} (hcap : 0 < cap) : fdHash fd cap < cap := by
  have hmask : fdHash fd cap ≤ (cap - 1) % 2 ^ 32 := Nat.and_le_right
  have hle : (cap - 1) % 2 ^ 32 ≤ cap - 1 := Nat.mod_le _ _
  omega

theorem lookup (h : Inv t m) (fd : Int) : t.fdTableLookup fd = m fd := by
  rw [← h.chained.find fd]
  unfold Table.fdTableLookup
  split
  · rename_i hzero
    rw [List.eq_nil_of_length_eq_zero hzero]
    rfl
  · rfl

theorem rehash (h : Inv t m) {newCap : Nat} {memory : Bool} (hcap : 0 < newCap)
    (ht : t.fdTableRehash newCap memory = some t') : Inv t' m ∧ 0 < t'.fdSlots.length := by
  unfold Table.fdTableRehash at ht
  split at ht
  · cases ht
    rcases h.chained.rehash fun fd => fdHash_lt fd hcap with ⟨hchained, hperm, hlength⟩
    refine ⟨⟨hchained, h.count.trans hperm.length_eq.symm, fun slot hslot =>
      h.old slot (hperm.mem_iff.mp hslot)⟩, ?_⟩
    exact Nat.lt_of_lt_of_eq hcap hlength.symm
  · cases ht

theorem grown (h : Inv t m) {memory : Bool} (ht : t.grown memory = some t') : Inv t' m ∧
    0 < t'.fdSlots.length := by
  unfold Table.grown at ht
  split at ht
  · exact h.rehash (by decide) ht
  · rename_i hpos
    split at ht
    · exact h.rehash (by omega) ht
    · cases ht
      exact ⟨h, Nat.pos_of_ne_zero hpos⟩

theorem get (h : Inv t m) (fd : Int) (forTable forSlot : Bool) :
    ∃ m', SlotMap m (.get fd forTable forSlot) (t.fdTableGet fd forTable forSlot).1 m' ∧
      Inv (t.fdTableGet fd forTable forSlot).2 m' := by
  unfold Table.fdTableGet
  rw [h.lookup]
  cases hm : m fd with
  | some slot => exact ⟨m, .inl ⟨by simp [hm], hm.symm, rfl⟩, h⟩
  | none =>
    dsimp only
    cases ht : t.grown forTable with
    | none =>
      have hmemory : forTable = false := by
        cases forTable with
        | false => rfl
        | true =>
          unfold Table.grown Table.fdTableRehash at ht
          split at ht
          · cases ht
          · split at ht <;> cases ht
      exact ⟨m, .inr (.inl ⟨hm, rfl, by simp [hmemory], rfl⟩), h⟩
    | some t' =>
      rcases h.grown ht with ⟨h', hcap⟩
      cases forSlot with
      | false => exact ⟨m, .inr (.inl ⟨hm, rfl, Bool.and_false _, rfl⟩), h'⟩
      | true =>
        rcases h'.chained.link (a := ⟨t'.allocated, fd⟩) hm (fdHash_lt fd hcap) with ⟨hchained, hperm⟩
        have hnew : ∀ fd', m fd' ≠ some ⟨t'.allocated, fd⟩ := fun fd' hsome =>
          Nat.lt_irrefl _ (h'.old _ ((h'.chained.map fd' _).mp hsome).1)
        refine ⟨_, .inr (.inr ⟨_, hm, rfl, rfl, hnew, rfl⟩), hchained, ?_, ?_⟩
        · exact (congrArg (· + 1) h'.count).trans hperm.length_eq.symm
        · intro slot hslot
          rcases List.mem_cons.mp (hperm.mem_iff.mp hslot) with rfl | hslot
          · exact Nat.lt_succ_self _
          · exact Nat.lt_succ_of_lt (h'.old slot hslot)

theorem tryFree (h : Inv t m) (fd : Int) (state : SlotState) :
    ∃ m', SlotMap m (.tryFree fd state) none m' ∧ Inv (step t (.tryFree fd state)).2 m' := by
  refine ⟨_, rfl, ?_⟩
  unfold step
  dsimp only
  rw [h.lookup]
  cases hm : m fd with
  | none =>
    have hsame : update m fd none = m := update_eq_self_iff.mpr hm.symm
    rw [hsame, ite_self]
    exact h
  | some slot =>
    dsimp only
    unfold Table.fdTableTryFree
    split
    · exact h
    · have hfd : slot.fd = fd := ((h.chained.map fd slot).mp hm).2
      subst hfd
      rcases h.chained.unlink hm with ⟨hchained, hperm⟩
      refine ⟨hchained, ?_, fun slot' hslot =>
        h.old slot' (hperm.mem_iff.mpr (List.mem_cons_of_mem slot hslot))⟩
      have hlength := hperm.length_eq
      rw [List.length_cons] at hlength
      have hcount := h.count
      dsimp only
      omega

/-- Each operation does to the map what it does to the table. -/
theorem step (h : Inv t m) (op : TableOp) :
    ∃ m', SlotMap m op (FdTable.step t op).1 m' ∧ Inv (FdTable.step t op).2 m' := by
  cases op with
  | lookup fd => exact ⟨m, ⟨h.lookup fd, rfl⟩, h⟩
  | get fd forTable forSlot => exact h.get fd forTable forSlot
  | tryFree fd state =>
    rcases h.tryFree fd state with ⟨m', hspec, h'⟩
    exact ⟨m', hspec, h'⟩

end Inv

/-- For any sequence of calls, the table answers as a map and has each slot under its descriptor;
the FIFOs answer as lists. -/
theorem containers_refine (α : Type*) :
    (∀ ops : List TableOp, ∃ m, Conforms SlotMap (fun _ => none) ops (answers step { } ops).1 m ∧
      ∀ fd, (answers step { } ops).2.fdTableLookup fd = m fd ∧ ∀ slot, m fd = some slot → slot.fd = fd) ∧
    (∀ ops : List (FifoOp α), ∃ xs, Conforms Queue [] ops
      (answers (fifoStep completionFifoPush) { } ops).1 xs) ∧
    ∀ ops : List (FifoOp α), ∃ xs, Conforms Queue [] ops (answers (fifoStep cqeFifoPush) { } ops).1 xs := by
  refine ⟨fun ops => ?_, completionFifo_conforms, cqeFifo_conforms⟩
  have hinit : Inv { } fun _ => none := ⟨.empty 0, rfl, fun _ hslot => absurd hslot List.not_mem_nil⟩
  rcases conforms_of_simulates (R := Inv) (fun _ _ op h => h.step op) hinit ops with ⟨m, hspec, hend⟩
  exact ⟨m, hspec, fun fd => ⟨hend.lookup fd, fun slot hslot => ((hend.chained.map fd slot).mp hslot).2⟩⟩

end Pytealet.Uring.FdTable
