import Pytealet.Lib.Transition
import Pytealet.Lib.Heapq
import Mathlib.Data.List.Nodup
import Mathlib.Data.List.Perm.Basic
import Mathlib.Data.List.Range
import Mathlib.Algebra.Order.Group.Unbundled.Int

/-!
# ReorderBuffer — the deliveries of a stream in the order of their indices

`ReorderBuffer.deliver` calls back with the delivery that is next, and holds the others on a heap.
The callback may deliver again, and may arm the index of the next call; it runs on the thread of
`deliver`.  A step is what happens between two points where the callback gets or gives control, so
the callback itself is any sequence of steps.

A callback that arms an index other than the one after its own begins another *leg*: what is held
then counts as delivered to that leg.  `Leg` and the two lists of the state are kept for the
statements only, and what has been delivered is written by the step, not by the buffer.
-/

namespace Pytealet.Io.Reorder

open Lib Lib.Transition List

variable {α : Type*}

/-- `MultishotDelivery`; of its fields the buffer reads the index only. -/
structure Delivery (α : Type*) where
  index : Int
  fields : α
  deriving DecidableEq, Repr

structure Leg (α : Type*) where
  /-- the index of its first delivery -/
  base : Int
  arrived : List (Delivery α) := []
  passed : List (Delivery α) := []

structure Buffer (α : Type*) where
  delivered : Int
  heap : Array (Delivery α) := #[]
  /-- what the calls of `_deliver_now` are calling back with, the innermost first -/
  calls : List (Delivery α) := []
  arrived : List (Delivery α) := []
  /-- what the callback has been called with -/
  passed : List (Delivery α) := []
  leg : Leg α

namespace Buffer

def init (start : Int) : Buffer α where
  delivered := start
  leg := { base := start }

/-- `self._callback(delivery)` -/
def callback (s : Buffer α) (d : Delivery α) (outer : List (Delivery α)) : Buffer α :=
  { s with
    calls := d :: outer
    passed := s.passed ++ [d]
    leg := { s.leg with passed := s.leg.passed ++ [d] } }

/-- `d` is handed to the buffer. -/
def arrive (s : Buffer α) (d : Delivery α) : Buffer α :=
  { s with arrived := s.arrived ++ [d], leg := { s.leg with arrived := s.leg.arrived ++ [d] } }

/-- `deliver`, to the first switch to the callback. -/
def deliver (s : Buffer α) (d : Delivery α) : Buffer α :=
  if d.index = s.delivered then s.callback d s.calls
  else { s with heap := Heapq.heappush Delivery.index s.heap d }

/-- `_deliver_now`, after a callback has returned: the next one is made, or the call returns to its
caller. -/
def goOn (s : Buffer α) (outer : List (Delivery α)) : Buffer α :=
  let s := { s with delivered := s.delivered + 1 }
  match Heapq.heappop Delivery.index s.heap with
  | none => { s with calls := outer }
  | some (pending, rest) =>
    if pending.index = s.delivered then { s with heap := rest }.callback pending outer
    else { s with calls := outer }

def armNextIndex (s : Buffer α) (index : Int) : Buffer α :=
  { s with delivered := index - 1 }

/-- Another index than the next one begins a leg, to which what is held counts as delivered. -/
def beginLeg (s : Buffer α) (index : Int) : Buffer α :=
  { s with leg := if index = s.delivered + 1 then s.leg else { base := index, arrived := s.heap.toList } }

end Buffer

inductive Action (α : Type*)
  | deliver (d : Delivery α)
  | arm (index : Int)
  /-- the innermost callback returns -/
  | returns
  deriving DecidableEq, Repr

def step (s : Buffer α) : Action α → Option (Buffer α)
  | .deliver d => some ((s.arrive d).deliver d)
  | .arm index => some ((s.beginLeg index).armNextIndex index)
  | .returns =>
    match s.calls with
    | [] => none
    | _ :: outer => some (s.goOn outer)

theorem step_returns {s s' : Buffer α} : step s .returns = some s' ↔
    ∃ d outer, s.calls = d :: outer ∧ s' = s.goOn outer := by
  unfold step
  cases hcalls : s.calls with
  | nil => simp
  | cons d outer => simp [eq_comm]

/-! ## The specification -/

/-- What is delivered in a run. -/
def Action.delivered : Action α → List (Delivery α)
  | .deliver d => [d]
  | _ => []

/-- `n` indices from `base` on. -/
def indices (base : Int) (n : Nat) : List Int :=
  (List.range n).map fun k : Nat => base + k

/-- The index after those that have been passed on. -/
def Leg.next (l : Leg α) : Int :=
  l.base + l.passed.length

/-- The deliveries of a leg have different indices, from its base on.  An index is armed from inside
a callback, and nothing below it is held. -/
def Regular (s : Buffer α) : Action α → Prop
  | .deliver d => s.leg.base ≤ d.index ∧ d.index ∉ s.leg.arrived.map Delivery.index
  | .arm index => s.calls ≠ [] ∧ (index = s.delivered + 1 ∨ ∀ d ∈ s.heap.toList, index ≤ d.index)
  | .returns => True

instance (s : Buffer α) (a : Action α) : Decidable (Regular s a) := by
  unfold Regular
  split <;> infer_instance

/-- No index is armed but, inside a callback, the one after its own. -/
def Action.Plain (s : Buffer α) : Action α → Prop
  | .arm index => s.calls ≠ [] ∧ index = s.delivered + 1
  | _ => True

structure InOrder (s : Buffer α) : Prop where
  /-- Each delivery has been passed on, or is held, and only once. -/
  once : s.arrived.Perm (s.passed ++ s.heap.toList)
  /-- What a leg passes on are its indices, in their order and without a gap. -/
  consecutive : s.leg.passed.map Delivery.index = indices s.leg.base s.leg.passed.length
  delivered : ∀ d ∈ s.leg.passed, d ∈ s.leg.arrived
  /-- Once `deliver` has returned, the first index that has not been passed on has not been
  delivered. -/
  longest : s.calls = [] → s.leg.next ∉ s.leg.arrived.map Delivery.index
  /-- Once `deliver` has returned, nothing is held if the delivered indices have no gap. -/
  released : s.calls = [] →
    (∀ d ∈ s.leg.arrived, ∀ i, s.leg.base ≤ i → i < d.index →
      i ∈ s.leg.arrived.map Delivery.index) → s.heap = #[]

/-! ## The invariant -/

theorem indices_succ (base : Int) (n : Nat) : indices base (n + 1) = indices base n ++ [base + n] := by
  simp [indices, range_succ]

theorem mem_indices {base i : Int} {n : Nat} : i ∈ indices base n ↔ base ≤ i ∧ i < base + n := by
  unfold indices
  rw [mem_map]
  constructor
  · rintro ⟨k, hk, rfl⟩
    have hlt := mem_range.1 hk
    constructor <;> omega
  · rintro ⟨hle, hlt⟩
    exact ⟨(i - base).toNat, mem_range.2 (by omega), by omega⟩

/-- Where the deliveries are; `hand` are those that are neither passed on nor held at the moment. -/
structure Ledger (s : Buffer α) (hand : List (Delivery α)) : Prop where
  once : s.arrived.Perm (s.passed ++ (hand ++ s.heap.toList))
  ofLeg : s.leg.arrived.Perm (s.leg.passed ++ (hand ++ s.heap.toList))
  distinct : (s.leg.arrived.map Delivery.index).Nodup
  fromBase : ∀ d ∈ s.leg.arrived, s.leg.base ≤ d.index
  consecutive : s.leg.passed.map Delivery.index = indices s.leg.base s.leg.passed.length
  ordered : Heapq.Ordered Delivery.index s.heap

/-- What has been passed on and what is held back make up what has arrived. -/
structure Inv (s : Buffer α) : Prop where
  ledger : Ledger s []
  /-- Calls of `_deliver_now` are not nested, and the one that is in the callback is one behind. -/
  next : (s.calls = [] ∧ s.delivered = s.leg.next) ∨ (s.calls.length = 1 ∧ s.delivered + 1 = s.leg.next)
  settled : s.calls = [] → ∀ d ∈ s.heap.toList, d.index ≠ s.leg.next

namespace Ledger

variable {s : Buffer α} {d : Delivery α}

theorem mem_passed {hand : List (Delivery α)} (h : Ledger s hand) {i : Int} :
    i ∈ s.leg.passed.map Delivery.index ↔ s.leg.base ≤ i ∧ i < s.leg.next := by
  rw [h.consecutive]
  exact mem_indices

theorem mem_arrived (h : Ledger s []) {i : Int} : i ∈ s.leg.arrived.map Delivery.index ↔
    i ∈ s.leg.passed.map Delivery.index ∨ i ∈ s.heap.toList.map Delivery.index := by
  rw [(h.ofLeg.map Delivery.index).mem_iff, map_append, mem_append, nil_append]

theorem held_le (h : Ledger s []) (hd : d ∈ s.heap.toList) : s.leg.next ≤ d.index := by
  have hnodup := (h.ofLeg.map Delivery.index).nodup_iff.1 h.distinct
  rw [nil_append, map_append] at hnodup
  have hout : d.index ∉ s.leg.passed.map Delivery.index := fun hin =>
    (disjoint_of_nodup_append hnodup) hin (mem_map_of_mem hd)
  have hbase := h.fromBase d (h.ofLeg.mem_iff.2 (mem_append_right _ hd))
  by_contra hlt
  exact hout (h.mem_passed.2 ⟨hbase, by omega⟩)

theorem arrive (h : Ledger s []) (hbase : s.leg.base ≤ d.index)
    (hnew : d.index ∉ s.leg.arrived.map Delivery.index) : Ledger (s.arrive d) [d] := by
  have hmove : ∀ l r : List (Delivery α), (l ++ r ++ [d]).Perm (l ++ ([d] ++ r)) := by
    intro l r
    rw [append_assoc]
    exact (perm_append_comm).append_left l
  refine ⟨?_, ?_, ?_, ?_, h.consecutive, h.ordered⟩
  · exact (h.once.append_right [d]).trans (hmove _ _)
  · exact (h.ofLeg.append_right [d]).trans (hmove _ _)
  · show ((s.leg.arrived ++ [d]).map Delivery.index).Nodup
    rw [map_append, nodup_append_comm]
    exact nodup_cons.2 ⟨hnew, h.distinct⟩
  · intro e he
    rcases mem_append.1 he with he | he
    · exact h.fromBase e he
    · rw [mem_singleton.1 he]
      exact hbase

theorem push (h : Ledger s [d]) :
    Ledger { s with heap := Heapq.heappush Delivery.index s.heap d } [] := by
  have hperm : ([d] ++ s.heap.toList).Perm ([] ++ (Heapq.heappush Delivery.index s.heap d).toList) := by
    have hpush := Array.perm_iff_toList_perm.1 (Heapq.heappush_perm Delivery.index s.heap d)
    rw [Array.toList_push] at hpush
    exact (perm_append_comm).trans hpush.symm
  exact ⟨h.once.trans (hperm.append_left _), h.ofLeg.trans (hperm.append_left _), h.distinct, h.fromBase,
    h.consecutive, Heapq.heappush_ordered h.ordered d⟩

theorem pop (h : Ledger s []) {rest : Array (Delivery α)}
    (hpop : Heapq.heappop Delivery.index s.heap = some (d, rest)) :
    Ledger { s with heap := rest } [d] := by
  rcases Heapq.heappop_spec h.ordered hpop with ⟨hordered, hperm, -⟩
  have hlist := Array.perm_iff_toList_perm.1 hperm
  rw [Array.toList_push] at hlist
  have hheld : ([] ++ s.heap.toList).Perm ([d] ++ rest.toList) := hlist.symm.trans perm_append_comm
  exact ⟨h.once.trans (hheld.append_left _), h.ofLeg.trans (hheld.append_left _), h.distinct, h.fromBase,
    h.consecutive, hordered⟩

theorem callback (h : Ledger s [d]) (hnext : d.index = s.leg.next) (outer : List (Delivery α)) :
    Ledger (s.callback d outer) [] := by
  refine ⟨?_, ?_, h.distinct, h.fromBase, ?_, h.ordered⟩
  · show s.arrived.Perm ((s.passed ++ [d]) ++ s.heap.toList)
    rw [append_assoc]
    exact h.once
  · show s.leg.arrived.Perm ((s.leg.passed ++ [d]) ++ s.heap.toList)
    rw [append_assoc]
    exact h.ofLeg
  · show (s.leg.passed ++ [d]).map Delivery.index = indices s.leg.base (s.leg.passed ++ [d]).length
    rw [map_append, h.consecutive, length_append, length_singleton, indices_succ, map_singleton,
      hnext]
    rfl

theorem arm (h : Ledger s []) {index : Int} (hbelow : ∀ d ∈ s.heap.toList, index ≤ d.index) :
    Ledger { s with delivered := index - 1, leg := { base := index, arrived := s.heap.toList } } [] := by
  have hnodup := (h.ofLeg.map Delivery.index).nodup_iff.1 h.distinct
  rw [nil_append, map_append] at hnodup
  exact ⟨h.once, .refl _, (nodup_append.1 hnodup).2.1, hbelow, rfl, h.ordered⟩

end Ledger

@[simp] theorem next_callback (s : Buffer α) (d : Delivery α) (outer : List (Delivery α)) :
    (s.callback d outer).leg.next = s.leg.next + 1 := by
  simp [Buffer.callback, Leg.next, add_assoc]

namespace Inv

variable {s : Buffer α} {d : Delivery α}

theorem init (start : Int) : Inv (Buffer.init start : Buffer α) where
  ledger := ⟨.refl _, .refl _, nodup_nil, fun _ hd => absurd hd not_mem_nil, rfl,
    fun p _ hp => absurd hp (Nat.not_lt_zero p)⟩
  next := .inl ⟨rfl, by simp [Buffer.init, Leg.next]⟩
  settled := fun _ _ hd => absurd hd not_mem_nil

theorem inOrder (h : Inv s) : InOrder s := by
  have hledger := h.ledger
  -- once `deliver` has returned, the next index has not been delivered
  have hlongest : s.calls = [] → s.leg.next ∉ s.leg.arrived.map Delivery.index := by
    intro hrest hin
    rcases hledger.mem_arrived.1 hin with hpassed | hheld
    · exact absurd (hledger.mem_passed.1 hpassed).2 (lt_irrefl _)
    · rcases mem_map.1 hheld with ⟨d, hd, heq⟩
      exact h.settled hrest d hd heq
  refine ⟨hledger.once, hledger.consecutive, fun d hd =>
    hledger.ofLeg.mem_iff.2 (mem_append_left _ hd), hlongest,
    fun hrest hcontiguous => ?_⟩
  have hnone : ∀ d, d ∉ s.heap.toList := by
    intro d hd
    have hlt : s.leg.next < d.index := lt_of_le_of_ne (hledger.held_le hd) (h.settled hrest d hd).symm
    have hbase : s.leg.base ≤ s.leg.next := by simp [Leg.next]
    exact hlongest hrest (hcontiguous d (hledger.ofLeg.mem_iff.2 (mem_append_right _ hd))
      s.leg.next hbase hlt)
  exact Array.toList_eq_nil_iff.1 (eq_nil_iff_forall_not_mem.2 hnone)

theorem deliver (h : Inv s) (hr : Regular s (.deliver d)) : Inv ((s.arrive d).deliver d) := by
  have hledger := h.ledger.arrive hr.1 hr.2
  unfold Buffer.deliver
  split
  · -- a delivery inside a callback would repeat the index that has been passed on
    rename_i hindex
    have hindex' : d.index = s.delivered := hindex
    rcases h.next with ⟨hrest, hnext⟩ | ⟨-, hnext⟩
    · have hledger' := hledger.callback (hindex'.trans hnext) (s.arrive d).calls
      refine ⟨hledger', .inr ⟨?_, ?_⟩, fun hnil => by cases hnil⟩
      · show (d :: s.calls).length = 1
        rw [hrest]
        rfl
      · rw [next_callback]
        show s.delivered + 1 = s.leg.next + 1
        rw [hnext]
    · by_cases hlt : s.leg.base < s.leg.next
      · have hpassed : d.index ∈ s.leg.passed.map Delivery.index :=
          h.ledger.mem_passed.2 ⟨hr.1, by omega⟩
        exact absurd (h.ledger.mem_arrived.2 (.inl hpassed)) hr.2
      · have hbase := hr.1
        omega
  · rename_i hindex
    have hindex' : d.index ≠ s.delivered := hindex
    have hledger' := hledger.push
    refine ⟨hledger', h.next, fun hrest e he => ?_⟩
    have hpush := Array.perm_iff_toList_perm.1 (Heapq.heappush_perm Delivery.index s.heap d)
    rw [Array.toList_push] at hpush
    rcases mem_append.1 (hpush.mem_iff.1 he) with he | he
    · exact h.settled hrest e he
    · rcases h.next with ⟨-, hnext⟩ | ⟨hone, -⟩
      · rw [mem_singleton.1 he]
        show d.index ≠ s.leg.next
        rw [← hnext]
        exact hindex'
      · rw [show s.calls = [] from hrest] at hone
        cases hone

theorem goOn (h : Inv s) {c : Delivery α} {outer : List (Delivery α)} (hcalls : s.calls = c :: outer) :
    Inv (s.goOn outer) := by
  have hnext : outer = [] ∧ s.delivered + 1 = s.leg.next := by
    rcases h.next with ⟨hrest, -⟩ | ⟨hone, hnext⟩
    · rw [hcalls] at hrest
      cases hrest
    · rw [hcalls] at hone
      exact ⟨length_eq_zero_iff.1 (Nat.succ.inj hone), hnext⟩
  rcases hnext with ⟨rfl, hnext⟩
  have hledger : Ledger { s with delivered := s.delivered + 1 } [] :=
    ⟨h.ledger.once, h.ledger.ofLeg, h.ledger.distinct, h.ledger.fromBase,
      h.ledger.consecutive, h.ledger.ordered⟩
  have hrest : ∀ hsettled : ∀ d ∈ s.heap.toList, d.index ≠ s.leg.next,
      Inv { s with delivered := s.delivered + 1, calls := [] } := fun hsettled =>
    ⟨⟨h.ledger.once, h.ledger.ofLeg, h.ledger.distinct, h.ledger.fromBase,
      h.ledger.consecutive, h.ledger.ordered⟩,
      .inl ⟨rfl, hnext⟩, fun _ => hsettled⟩
  unfold Buffer.goOn
  dsimp only
  split
  · rename_i hpop
    have hempty := Heapq.heappop_eq_none_iff.1 hpop
    refine hrest fun d hd => ?_
    rw [hempty] at hd
    cases hd
  · rename_i pending rest hpop
    split
    · rename_i hindex
      have hindex' : pending.index = s.leg.next := Eq.trans hindex hnext
      have hledger' := (hledger.pop hpop).callback hindex' []
      refine ⟨hledger', .inr ⟨rfl, ?_⟩, fun hnil => by cases hnil⟩
      rw [next_callback]
      show s.delivered + 1 + 1 = s.leg.next + 1
      rw [hnext]
    · -- the least index that is held is above the next one
      rename_i hindex
      have hindex' : pending.index ≠ s.leg.next := fun heq => hindex (heq.trans hnext.symm)
      rcases Heapq.heappop_spec h.ledger.ordered hpop with ⟨-, hperm, hmin⟩
      have hlist := Array.perm_iff_toList_perm.1 hperm
      rw [Array.toList_push] at hlist
      have hpending : pending ∈ s.heap.toList := hlist.mem_iff.1 (mem_append_right _ (mem_singleton.2 rfl))
      have hlt : s.leg.next < pending.index := lt_of_le_of_ne (h.ledger.held_le hpending) hindex'.symm
      refine hrest fun d hd => ?_
      exact (lt_of_lt_of_le hlt (hmin d (Array.mem_toList_iff.1 hd))).ne'

theorem arm (h : Inv s) {index : Int} (hr : Regular s (.arm index)) :
    Inv ((s.beginLeg index).armNextIndex index) := by
  have hnext : s.calls.length = 1 ∧ s.delivered + 1 = s.leg.next := by
    rcases h.next with ⟨hrest, -⟩ | hnext
    · exact absurd hrest hr.1
    · exact hnext
  unfold Buffer.armNextIndex Buffer.beginLeg
  by_cases hsame : index = s.delivered + 1
  · rw [if_pos hsame]
    refine ⟨⟨h.ledger.once, h.ledger.ofLeg, h.ledger.distinct, h.ledger.fromBase, h.ledger.consecutive,
      h.ledger.ordered⟩, .inr ⟨hnext.1, ?_⟩, h.settled⟩
    show index - 1 + 1 = s.leg.next
    omega
  · rw [if_neg hsame]
    have hledger := h.ledger.arm (hr.2.resolve_left hsame)
    refine ⟨hledger, .inr ⟨hnext.1, ?_⟩, fun hrest => absurd hrest hr.1⟩
    simp [Leg.next]

/-- A delivery is passed on at its turn, or held back. -/
theorem step (h : Inv s) {a : Action α} (hr : Regular s a) {s' : Buffer α}
    (hs : Reorder.step s a = some s') : Inv s' := by
  cases a with
  | deliver d =>
    cases hs
    exact h.deliver hr
  | arm index =>
    cases hs
    exact h.arm hr
  | returns =>
    rcases step_returns.1 hs with ⟨d, outer, hcalls, rfl⟩
    exact h.goOn hcalls

end Inv

/-! ## Runs -/

/-- A stream on which no other index is armed is one leg. -/
def Buffer.OneLeg (start : Int) (s : Buffer α) : Prop :=
  s.leg.base = start ∧ s.leg.arrived = s.arrived ∧ s.leg.passed = s.passed

theorem callback_oneLeg {start : Int} {s : Buffer α} (h : s.OneLeg start) (d : Delivery α)
    (outer : List (Delivery α)) :
    (s.callback d outer).OneLeg start :=
  ⟨h.1, h.2.1, congrArg (fun l => l ++ [d]) h.2.2⟩

theorem OneLeg.step {start : Int} {s s' : Buffer α} {a : Action α} (h : s.OneLeg start) (hplain : a.Plain s)
    (hs : step s a = some s') : s'.OneLeg start := by
  cases a with
  | deliver d =>
    cases hs
    have harrive : (s.arrive d).OneLeg start := ⟨h.1, congrArg (fun l => l ++ [d]) h.2.1, h.2.2⟩
    unfold Buffer.deliver
    split
    · exact callback_oneLeg harrive d _
    · exact harrive
  | arm index =>
    cases hs
    unfold Buffer.armNextIndex Buffer.beginLeg
    rw [if_pos hplain.2]
    exact h
  | returns =>
    rcases step_returns.1 hs with ⟨d, outer, -, rfl⟩
    unfold Buffer.goOn
    dsimp only
    split
    · exact h
    · split
      · apply callback_oneLeg
        exact h
      · exact h

@[simp] theorem arrived_deliver (s : Buffer α) (d : Delivery α) : (s.deliver d).arrived = s.arrived := by
  unfold Buffer.deliver
  split <;> rfl

@[simp] theorem arrived_goOn (s : Buffer α) (outer : List (Delivery α)) :
    (s.goOn outer).arrived = s.arrived := by
  unfold Buffer.goOn
  dsimp only
  split
  · rfl
  · split <;> rfl

theorem arrived_step {s s' : Buffer α} {a : Action α} (hs : step s a = some s') :
    s'.arrived = s.arrived ++ a.delivered := by
  cases a with
  | deliver d =>
    cases hs
    exact arrived_deliver (s.arrive d) d
  | arm index =>
    cases hs
    exact (append_nil _).symm
  | returns =>
    rcases step_returns.1 hs with ⟨d, outer, -, rfl⟩
    rw [arrived_goOn]
    exact (append_nil _).symm

/-- In every run whose deliveries have different indices in each leg, the callback is called in the
order of the indices, and what is held waits for one that has not been delivered.  As long as no
callback arms an index but the one after its own, the leg is the whole stream. -/
theorem reorder_in_order (start : Int) (as : List (Action α))
    (h : Along step Regular (Buffer.init start) as)
    {s : Buffer α} (hs : exec step (Buffer.init start) as = some s) :
    s.arrived = as.flatMap Action.delivered ∧ InOrder s ∧
      (Along step (fun s a => a.Plain s) (Buffer.init start) as → s.OneLeg start) := by
  refine ⟨exec_history Buffer.arrived Action.delivered (fun _ _ _ => arrived_step) as hs, ?_,
    fun hplain => ?_⟩
  · have hinv := always_of_along (I := Inv) (fun _ hI => hI) (fun _ _ _ hI hr hs => hI.step hr hs) as _
      (Inv.init start) h
    exact (hinv.exec hs).inOrder
  · have hleg := always_of_along (fun _ hI => hI) (fun _ _ _ hI hplain hs => OneLeg.step hI hplain hs) as
      (Buffer.init start) ⟨rfl, rfl, rfl⟩ hplain
    exact hleg.exec hs

/-- The deliveries of a stream, the later one first; inside the second callback the next index is
delivered. -/
def latePair : List (Action Char) :=
  [.deliver ⟨1, 'b'⟩, .deliver ⟨0, 'a'⟩, .returns, .deliver ⟨2, 'c'⟩, .returns, .returns]

theorem reorder_in_order_three : ∃ s, exec step (Buffer.init 0) latePair = some s ∧ s.calls = [] ∧
    s.passed.map Delivery.index = [0, 1, 2] ∧
    s.arrived = latePair.flatMap Action.delivered ∧ InOrder s ∧ s.OneLeg 0 := by
  have hrun : ∃ s, exec step (Buffer.init 0) latePair = some s ∧ s.calls = [] ∧
      s.passed.map Delivery.index = [0, 1, 2] := ⟨_, rfl, by decide +kernel, by decide +kernel⟩
  rcases hrun with ⟨s, hs, hcalls, hpassed⟩
  have hall := reorder_in_order 0 latePair (by decide +kernel) hs
  exact ⟨s, hs, hcalls, hpassed, hall.1, hall.2.1,
    hall.2.2 ⟨trivial, trivial, trivial, trivial, trivial, trivial, trivial⟩⟩

/-- The callback of index `0` arms it again: the delivery of index `1` is held, and all that was
delivered has no gap. -/
theorem armed_again_holds : ∃ s : Buffer Char,
    exec step (Buffer.init 0) [.deliver ⟨0, 'a'⟩, .arm 0, .returns, .deliver ⟨1, 'b'⟩] = some s ∧
      s.calls = [] ∧
      s.arrived.map Delivery.index = [0, 1] ∧ s.passed.map Delivery.index = [0] ∧ s.heap = #[⟨1, 'b'⟩] :=
  ⟨_, rfl, rfl, rfl, rfl, rfl⟩

end Pytealet.Io.Reorder
