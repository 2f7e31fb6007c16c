import Mathlib.Data.Finset.Basic
import Mathlib.Data.Prod.Lex
import Pytealet.Lib.Heapq
import Pytealet.Lib.Transition
import Pytealet.Scheduler.Runnable

/-!
# RunnableLanes — what the two runnable queues store

`FifoRunnableQueue` has a deque and a set of its tasks.  `PriorityRunnableQueue` has two lanes, the
immediate one and a heap, with a set for each of them.  A task that is moved is taken out before its
new place is known; when its effective priority cannot be computed then, it is in the queue no
longer.

A call gives what it returns or raises, and the queue after it.  The priorities are those that
`get_effective_priority` gives at the time of the call, none where it raises.
-/

namespace Pytealet.Scheduler

open List

inductive QueueError
  /-- `task is not runnable` -/
  | valueError
  | indexError
  /-- what `get_effective_priority` raises -/
  | priority
  deriving DecidableEq, Repr

/-- What a runnable queue class defines for `RunnableQueueBase`. -/
structure QueueClass (ρ : Type*) where
  contains : ρ → Nat → Bool
  indexedLen : ρ → Nat
  add : ρ → Nat → Option Int → Except QueueError Bool × ρ
  discard : ρ → Nat → Except QueueError Bool × ρ
  popNext : ρ → Except QueueError Nat × ρ
  reschedule : ρ → Nat → Option Int → Except QueueError Unit × ρ
  onModified : ρ → Nat → Except QueueError Unit × ρ

namespace QueueClass

variable {ρ : Type*} (c : QueueClass ρ)

/-- The end of `yield_to`. -/
def addCurrent (q : ρ) (current : Nat) (insertCurrentAt : Option Int) : Except QueueError Unit × ρ :=
  let position := insertCurrentAt.map fun p =>
    ((normaliseInsertPosition p (c.indexedLen q - 1) + 1 : Nat) : Int)
  let r := c.add q current position
  (r.1.map fun _ => (), r.2)

/-- `RunnableQueueBase.yield_to` -/
def yieldTo (q : ρ) (target current : Nat) (insertCurrentAt : Option Int) : Except QueueError Unit × ρ :=
  match c.reschedule q target (some 0) with
  | (.error e, q₁) => (.error e, q₁)
  | (.ok (), q₁) =>
    if c.contains q₁ current then
      match c.discard q₁ current with
      | (.error e, q₂) => (.error e, q₂)
      | (.ok _, q₂) => c.addCurrent q₂ current insertCurrentAt
    else c.addCurrent q₁ current insertCurrentAt

end QueueClass

inductive QueueOp
  | add (task : Nat) (position : Option Int)
  | discard (task : Nat)
  | popNext
  | reschedule (task : Nat) (position : Option Int)
  | yieldTo (target current : Nat) (insertCurrentAt : Option Int)
  | onModified (task : Nat)
  deriving DecidableEq, Repr

inductive QueueResult
  | done
  | changed (answer : Bool)
  | task (task : Nat)
  deriving DecidableEq, Repr

def QueueClass.perform {ρ : Type*} (c : QueueClass ρ) (q : ρ) : QueueOp → Except QueueError QueueResult × ρ
  | .add task position =>
    let r := c.add q task position
    (r.1.map .changed, r.2)
  | .discard task =>
    let r := c.discard q task
    (r.1.map .changed, r.2)
  | .popNext =>
    let r := c.popNext q
    (r.1.map .task, r.2)
  | .reschedule task position =>
    let r := c.reschedule q task position
    (r.1.map fun _ => .done, r.2)
  | .yieldTo target current insertCurrentAt =>
    let r := c.yieldTo q target current insertCurrentAt
    (r.1.map fun _ => .done, r.2)
  | .onModified task =>
    let r := c.onModified q task
    (r.1.map fun _ => .done, r.2)

/-- A call that raises leaves the queue as it was. -/
def QueueClass.Atomic {ρ : Type*} (c : QueueClass ρ) (q : ρ) (op : QueueOp) : Prop :=
  ∀ e, (c.perform q op).1 = .error e → (c.perform q op).2 = q

namespace QueueClass

variable {ρ : Type*} (c : QueueClass ρ) {I : ρ → Prop} {q : ρ}

theorem yieldTo_of (hadd : ∀ q t p, I q → I (c.add q t p).2) (hdiscard : ∀ q t, I q → I (c.discard q t).2)
    (hreschedule : ∀ q t p, I q → I (c.reschedule q t p).2) (h : I q) (target current : Nat)
    (insertCurrentAt : Option Int) : I (c.yieldTo q target current insertCurrentAt).2 := by
  unfold yieldTo
  have hmoved := hreschedule q target (some 0) h
  generalize c.reschedule q target (some 0) = r at hmoved ⊢
  rcases r with ⟨e | _, q₁⟩
  · exact hmoved
  · dsimp only at hmoved ⊢
    split
    · have hout := hdiscard q₁ current hmoved
      generalize c.discard q₁ current = r at hout ⊢
      rcases r with ⟨e | _, q₂⟩
      · exact hout
      · exact hadd q₂ current _ hout
    · exact hadd q₁ current _ hmoved

theorem yieldTo_contains {q₁ q₂ : ρ} {target current : Nat} {b : Bool}
    (hmoved : c.reschedule q target (some 0) = (.ok (), q₁)) (hin : c.contains q₁ current = true)
    (hout : c.discard q₁ current = (.ok b, q₂)) (insertCurrentAt : Option Int) :
    c.yieldTo q target current insertCurrentAt = c.addCurrent q₂ current insertCurrentAt := by
  unfold yieldTo
  rw [hmoved]
  dsimp only
  rw [if_pos hin, hout]

theorem yieldTo_not_contains {q₁ : ρ} {target current : Nat}
    (hmoved : c.reschedule q target (some 0) = (.ok (), q₁)) (hout : ¬ c.contains q₁ current = true)
    (insertCurrentAt : Option Int) :
    c.yieldTo q target current insertCurrentAt = c.addCurrent q₁ current insertCurrentAt := by
  unfold yieldTo
  rw [hmoved]
  dsimp only
  rw [if_neg hout]

theorem perform_of (hadd : ∀ q t p, I q → I (c.add q t p).2) (hdiscard : ∀ q t, I q → I (c.discard q t).2)
    (hpopNext : ∀ q, I q → I (c.popNext q).2) (hreschedule : ∀ q t p, I q → I (c.reschedule q t p).2)
    (honModified : ∀ q t, I q → I (c.onModified q t).2) (h : I q) (op : QueueOp) :
      I (c.perform q op).2 := by
  cases op with
  | add task position => exact hadd q task position h
  | discard task => exact hdiscard q task h
  | popNext => exact hpopNext q h
  | reschedule task position => exact hreschedule q task position h
  | yieldTo target current insertCurrentAt =>
    exact c.yieldTo_of hadd hdiscard hreschedule h target current insertCurrentAt
  | onModified task => exact honModified q task h

end QueueClass

/-! ## The FIFO queue -/

structure Fifo where
  items : List Nat := []
  set : Finset Nat := ∅
  deriving DecidableEq

namespace Fifo

def insert (items : List Nat) (task : Nat) : Option Int → List Nat
  | none => items ++ [task]
  | some p => FifoRunnableQueue.insertAt items (normaliseInsertPosition p items.length) task

def add (q : Fifo) (task : Nat) (position : Option Int) : Except QueueError Bool × Fifo :=
  if task ∈ q.set then (.ok false, q)
  else (.ok true, ⟨insert q.items task position, Insert.insert task q.set⟩)

def discard (q : Fifo) (task : Nat) : Except QueueError Bool × Fifo :=
  if task ∈ q.set then (.ok true, ⟨q.items.erase task, q.set.erase task⟩) else (.ok false, q)

def popNext (q : Fifo) : Except QueueError Nat × Fifo :=
  match q.items with
  | [] => (.error .indexError, q)
  | task :: rest => (.ok task, ⟨rest, q.set.erase task⟩)

def reschedule (q : Fifo) (task : Nat) (position : Option Int) : Except QueueError Unit × Fifo :=
  if task ∈ q.set then (.ok (), { q with items := insert (q.items.erase task) task position })
  else (.error .valueError, q)

/-- The tasks of the deque are those of the set, and none is in it twice. -/
structure Represents (q : Fifo) : Prop where
  nodup : q.items.Nodup
  same : ∀ t, t ∈ q.set ↔ t ∈ q.items

end Fifo

def fifoClass : QueueClass Fifo where
  contains q task := decide (task ∈ q.set)
  indexedLen q := q.items.length
  add := Fifo.add
  discard := Fifo.discard
  popNext := Fifo.popNext
  reschedule := Fifo.reschedule
  onModified q _ := (.ok (), q)

/-! ## The priority queue -/

/-- An item of the heap. -/
structure HeapEntry (κ : Type*) where
  priority : κ
  sequence : Nat
  task : Nat
  deriving DecidableEq

/-- Items are compared by priority and sequence number, which no two of them share. -/
def HeapEntry.key {κ : Type*} (e : HeapEntry κ) : κ ×ₗ Nat :=
  toLex (e.priority, e.sequence)

structure PriorityQueue (κ : Type*) where
  set : Finset Nat := ∅
  prescheduled : List Nat := []
  prescheduledSet : Finset Nat := ∅
  priorityItems : Array (HeapEntry κ) := #[]
  prioritySequence : Nat := 0

namespace PriorityQueue

variable {κ : Type*} [LinearOrder κ]

def insertPrescheduled (q : PriorityQueue κ) (task position : Nat) : PriorityQueue κ :=
  { q with
    prescheduled := FifoRunnableQueue.insertAt q.prescheduled position task
    prescheduledSet := insert task q.prescheduledSet }

def insertNormal (prio : Nat → Option κ) (q : PriorityQueue κ) (task : Nat) :
    Except QueueError Unit × PriorityQueue κ :=
  match prio task with
  | none => (.error .priority, q)
  | some p =>
    (.ok (), { q with
      priorityItems := Lib.Heapq.heappush HeapEntry.key q.priorityItems ⟨p, q.prioritySequence, task⟩
      prioritySequence := q.prioritySequence + 1
      set := insert task q.set })

/-- `_remove_normal`, of a task in the set -/
def removeNormal (q : PriorityQueue κ) (task : Nat) : Except QueueError Unit × PriorityQueue κ :=
  let q₁ := { q with set := q.set.erase task }
  if q.priorityItems.any fun e => e.task = task then
    (.ok (), { q₁ with
      priorityItems := Lib.Heapq.heapify HeapEntry.key (q.priorityItems.eraseP fun e => e.task = task) })
  else (.error .valueError, q₁)

def removePrescheduled (q : PriorityQueue κ) (task : Nat) : PriorityQueue κ :=
  { q with prescheduled := q.prescheduled.erase task, prescheduledSet := q.prescheduledSet.erase task }

def removeWithoutUnlink (q : PriorityQueue κ) (task : Nat) : Except QueueError Unit × PriorityQueue κ :=
  if task ∈ q.prescheduledSet then (.ok (), q.removePrescheduled task)
  else if task ∈ q.set then q.removeNormal task
  else (.error .valueError, q)

def contains (q : PriorityQueue κ) (task : Nat) : Bool :=
  decide (task ∈ q.prescheduledSet ∨ task ∈ q.set)

def add (prio : Nat → Option κ) (q : PriorityQueue κ) (task : Nat) (position : Option Int) :
    Except QueueError Bool × PriorityQueue κ :=
  if q.contains task then (.ok false, q)
  else
    match position with
    | none =>
      let r := insertNormal prio q task
      (r.1.map fun _ => true, r.2)
    | some p => (.ok true, q.insertPrescheduled task (normaliseInsertPosition p q.prescheduled.length))

def discard (q : PriorityQueue κ) (task : Nat) : Except QueueError Bool × PriorityQueue κ :=
  if task ∈ q.prescheduledSet then (.ok true, q.removePrescheduled task)
  else if task ∈ q.set then
    let r := q.removeNormal task
    (r.1.map fun _ => true, r.2)
  else (.ok false, q)

def popNext (q : PriorityQueue κ) : Except QueueError Nat × PriorityQueue κ :=
  match q.prescheduled with
  | task :: rest =>
    (.ok task, { q with prescheduled := rest, prescheduledSet := q.prescheduledSet.erase task })
  | [] =>
    match Lib.Heapq.heappop HeapEntry.key q.priorityItems with
    | none => (.error .indexError, q)
    | some (e, rest) => (.ok e.task, { q with priorityItems := rest, set := q.set.erase e.task })

def reschedule (prio : Nat → Option κ) (q : PriorityQueue κ) (task : Nat) (position : Option Int) :
    Except QueueError Unit × PriorityQueue κ :=
  match q.removeWithoutUnlink task with
  | (.error e, q₁) => (.error e, q₁)
  | (.ok (), q₁) =>
    match position with
    | none => insertNormal prio q₁ task
    | some p => (.ok (), q₁.insertPrescheduled task (normaliseInsertPosition p q₁.prescheduled.length))

def onModified (prio : Nat → Option κ) (q : PriorityQueue κ) (task : Nat) :
    Except QueueError Unit × PriorityQueue κ :=
  if task ∈ q.prescheduledSet then (.ok (), q)
  else if task ∈ q.set then
    match q.removeNormal task with
    | (.error e, q₁) => (.error e, q₁)
    | (.ok (), q₁) => insertNormal prio q₁ task
  else (.ok (), q)

/-- The tasks in the heap. -/
def normal (q : PriorityQueue κ) : List Nat :=
  q.priorityItems.toList.map HeapEntry.task

/-- The lanes have the tasks of their sets, no task is in them twice, and the heap is ordered. -/
structure Represents (q : PriorityQueue κ) : Prop where
  lane : q.prescheduled.Nodup
  laneSame : ∀ t, t ∈ q.prescheduledSet ↔ t ∈ q.prescheduled
  normal : q.normal.Nodup
  normalSame : ∀ t, t ∈ q.set ↔ t ∈ q.normal
  apart : ∀ t ∈ q.prescheduled, t ∉ q.normal
  ordered : Lib.Heapq.Ordered HeapEntry.key q.priorityItems
  sequences : (q.priorityItems.toList.map HeapEntry.sequence).Nodup
  counted : ∀ e ∈ q.priorityItems.toList, e.sequence < q.prioritySequence

end PriorityQueue

/-- The priority queue, with the priorities of the moment. -/
def priorityClass {κ : Type*} [LinearOrder κ] (prio : Nat → Option κ) : QueueClass (PriorityQueue κ) where
  contains := PriorityQueue.contains
  indexedLen q := q.prescheduled.length
  add := PriorityQueue.add prio
  discard := PriorityQueue.discard
  popNext := PriorityQueue.popNext
  reschedule := PriorityQueue.reschedule prio
  onModified := PriorityQueue.onModified prio

/-- A task that is put (back) into the heap has a priority.  `yield_to` needs none where it changes
nothing before. -/
def PriorityQueue.Clear {κ : Type*} [LinearOrder κ] (prio : Nat → Option κ) (q : PriorityQueue κ) :
    QueueOp → Prop
  | .reschedule task none => q.contains task = true → prio task ≠ none
  | .onModified task => task ∉ q.prescheduledSet → task ∈ q.set → prio task ≠ none
  | .yieldTo target current none =>
    q.contains target = true → prio current ≠ none ∨ q.prescheduled.head? = some target ∧
      q.contains current = false
  | _ => True

/-! ## The FIFO queue keeps its tasks -/

namespace Fifo

variable {q : Fifo}

theorem insert_perm (items : List Nat) (task : Nat) (position : Option Int) :
    (insert items task position).Perm (task :: items) := by
  cases position with
  | none => exact perm_append_singleton task items
  | some p => exact FifoRunnableQueue.insertAt_perm items _ task

namespace Represents

theorem add (h : Represents q) (task : Nat) (position : Option Int) :
    Represents (q.add task position).2 := by
  unfold Fifo.add
  split
  · exact h
  · rename_i hout
    have hperm := insert_perm q.items task position
    have hnot : task ∉ q.items := (h.same task).not.1 hout
    refine ⟨hperm.nodup_iff.2 (nodup_cons.2 ⟨hnot, h.nodup⟩), fun t => ?_⟩
    rw [hperm.mem_iff, mem_cons, Finset.mem_insert, h.same]

theorem discard (h : Represents q) (task : Nat) : Represents (q.discard task).2 := by
  unfold Fifo.discard
  split
  · refine ⟨h.nodup.erase task, fun t => ?_⟩
    rw [Finset.mem_erase, h.nodup.mem_erase_iff, h.same]
  · exact h

theorem popNext (h : Represents q) : Represents q.popNext.2 := by
  unfold Fifo.popNext
  split
  · exact h
  · rename_i task rest hitems
    have hnodup := h.nodup
    rw [hitems, nodup_cons] at hnodup
    refine ⟨hnodup.2, fun t => ?_⟩
    rw [Finset.mem_erase, h.same, hitems, mem_cons]
    constructor
    · rintro ⟨hne, hmem⟩
      exact hmem.resolve_left hne
    · intro hmem
      exact ⟨fun heq => hnodup.1 (heq ▸ hmem), .inr hmem⟩

theorem reschedule (h : Represents q) (task : Nat) (position : Option Int) :
    Represents (q.reschedule task position).2 := by
  unfold Fifo.reschedule
  split
  · rename_i hin
    have hperm := (insert_perm (q.items.erase task) task position).trans
      (perm_cons_erase ((h.same task).1 hin)).symm
    exact ⟨hperm.nodup_iff.2 h.nodup, fun t => (h.same t).trans hperm.mem_iff.symm⟩
  · exact h

theorem perform (h : Represents q) (op : QueueOp) : Represents (fifoClass.perform q op).2 :=
  fifoClass.perform_of (fun _ t p hq => hq.add t p) (fun _ t hq => hq.discard t) (fun _ hq => hq.popNext)
    (fun _ t p hq => hq.reschedule t p) (fun _ _ hq => hq) h op

end Represents

end Fifo

/-! ## The priority queue keeps its tasks -/

namespace PriorityQueue

variable {κ : Type*} [LinearOrder κ] {q : PriorityQueue κ} {prio : Nat → Option κ} {task : Nat}

namespace Represents

theorem contains_iff (h : Represents q) : q.contains task = true ↔
    task ∈ q.prescheduled ∨ task ∈ q.normal := by
  unfold PriorityQueue.contains
  rw [decide_eq_true_iff, h.laneSame, h.normalSame]

theorem insertPrescheduled (h : Represents q) (hlane : task ∉ q.prescheduled) (hnormal : task ∉ q.normal)
    (position : Nat) : Represents (q.insertPrescheduled task position) := by
  have hperm := FifoRunnableQueue.insertAt_perm q.prescheduled position task
  refine ⟨hperm.nodup_iff.2 (nodup_cons.2 ⟨hlane, h.lane⟩), fun t => ?_, h.normal,
    h.normalSame, fun t ht => ?_,
    h.ordered, h.sequences, h.counted⟩
  · exact Finset.mem_insert.trans ((or_congr_right (h.laneSame t)).trans
      (mem_cons.symm.trans hperm.mem_iff.symm))
  · rcases mem_cons.1 (hperm.mem_iff.1 ht) with rfl | ht
    · exact hnormal
    · exact h.apart t ht

theorem removePrescheduled (h : Represents q) (task : Nat) : Represents (q.removePrescheduled task) := by
  refine ⟨h.lane.erase task, fun t => ?_, h.normal, h.normalSame,
    fun t ht => h.apart t (mem_of_mem_erase ht),
    h.ordered, h.sequences, h.counted⟩
  show t ∈ q.prescheduledSet.erase task ↔ t ∈ q.prescheduled.erase task
  rw [Finset.mem_erase, h.lane.mem_erase_iff, h.laneSame]

theorem insertNormal (h : Represents q) (hlane : task ∉ q.prescheduled) (hnormal : task ∉ q.normal) :
    Represents (insertNormal prio q task).2 := by
  unfold PriorityQueue.insertNormal
  split
  · exact h
  · rename_i p _
    have hperm := Array.perm_iff_toList_perm.1
      (Lib.Heapq.heappush_perm HeapEntry.key q.priorityItems ⟨p, q.prioritySequence, task⟩)
    rw [Array.toList_push] at hperm
    have hcons := hperm.trans (perm_append_singleton _ _)
    have htasks := hcons.map HeapEntry.task
    have hsequences := hcons.map HeapEntry.sequence
    rw [map_cons] at htasks hsequences
    have hnew : q.prioritySequence ∉ q.priorityItems.toList.map HeapEntry.sequence := by
      intro hmem
      rcases mem_map.1 hmem with ⟨e, he, heq⟩
      exact absurd (h.counted e he) (by rw [heq]; exact Nat.lt_irrefl _)
    refine ⟨h.lane, h.laneSame, htasks.nodup_iff.2 (nodup_cons.2 ⟨hnormal, h.normal⟩),
      fun t => ?_, fun t ht => ?_,
      Lib.Heapq.heappush_ordered h.ordered _, hsequences.nodup_iff.2 (nodup_cons.2 ⟨hnew, h.sequences⟩),
      fun e he => ?_⟩
    · exact Finset.mem_insert.trans
        ((or_congr_right (h.normalSame t)).trans (mem_cons.symm.trans htasks.mem_iff.symm))
    · intro hin
      rcases mem_cons.1 (htasks.mem_iff.1 hin) with rfl | hin
      · exact hlane ht
      · exact h.apart t ht hin
    · rcases mem_cons.1 (hcons.mem_iff.1 he) with rfl | he
      · exact Nat.lt_succ_self _
      · exact Nat.lt_succ_of_lt (h.counted e he)

theorem removeNormal (h : Represents q) (hin : task ∈ q.set) : ∃ q₁ : PriorityQueue κ,
    q.removeNormal task = (.ok (), q₁) ∧
    Represents q₁ ∧ q₁.normal.Perm (q.normal.erase task) ∧ q₁.prescheduled = q.prescheduled := by
  have hmem := (h.normalSame task).1 hin
  rcases mem_map.1 hmem with ⟨e, he, rfl⟩
  have hfound : (q.priorityItems.any fun e' => e'.task = e.task) = true :=
    Array.any_eq_true'.2 ⟨e, Array.mem_toList_iff.1 he, by simp⟩
  rcases Array.exists_of_eraseP (p := fun e' => e'.task = e.task) (Array.mem_toList_iff.1 he) (by simp) with
    ⟨a, ys, zs, -, ha, hitems, herased⟩
  have htask : a.task = e.task := by simpa using ha
  -- the heap before is the heap after with the entry of the task
  have hperm := Array.perm_iff_toList_perm.1
    (Lib.Heapq.heapify_perm HeapEntry.key (q.priorityItems.eraseP fun e' => e'.task = e.task))
  have hsplit :
      q.priorityItems.toList.Perm
        (a :: (q.priorityItems.eraseP fun e' => e'.task = e.task).toList) := by
    rw [herased, hitems]
    simp only [Array.toList_append, Array.toList_push, append_assoc, singleton_append]
    exact perm_middle
  have hall := hsplit.trans (hperm.symm.cons a)
  have htasks := hall.map HeapEntry.task
  have hsequences := (hall.map HeapEntry.sequence).nodup_iff.1 h.sequences
  rw [map_cons, htask] at htasks
  have hnodup := nodup_cons.1 (htasks.nodup_iff.1 h.normal)
  have hnormal := (htasks.erase e.task).symm
  rw [erase_cons_head] at hnormal
  refine ⟨_, if_pos hfound, ⟨h.lane, h.laneSame, hnodup.2, fun t => ?_, fun t ht hin => ?_,
    Lib.Heapq.heapify_ordered _,
    (nodup_cons.1 hsequences).2, fun e' he' => ?_⟩, hnormal, rfl⟩
  · refine Finset.mem_erase.trans ((and_congr_right' (h.normalSame t)).trans ?_)
    exact h.normal.mem_erase_iff.symm.trans hnormal.mem_iff.symm
  · exact h.apart t ht (mem_of_mem_erase (hnormal.mem_iff.1 hin))
  · exact h.counted e' (hall.mem_iff.2 (mem_cons_of_mem _ he'))

theorem removeWithoutUnlink (h : Represents q) (hin : q.contains task = true) : ∃ q₁ : PriorityQueue κ,
    q.removeWithoutUnlink task = (.ok (), q₁) ∧ Represents q₁ ∧
      task ∉ q₁.prescheduled ∧ task ∉ q₁.normal := by
  unfold PriorityQueue.removeWithoutUnlink
  by_cases hlane : task ∈ q.prescheduledSet
  · rw [if_pos hlane]
    exact ⟨_, rfl, h.removePrescheduled task, fun hmem => (h.lane.mem_erase_iff.1 hmem).1 rfl,
      h.apart task ((h.laneSame task).1 hlane)⟩
  · have hset : task ∈ q.set := (of_decide_eq_true hin).resolve_left hlane
    rw [if_neg hlane, if_pos hset]
    rcases h.removeNormal hset with ⟨q₁, hresult, hq₁, hnormal, hsame⟩
    refine ⟨q₁, hresult, hq₁, ?_, fun hmem => (h.normal.mem_erase_iff.1 (hnormal.mem_iff.1 hmem)).1 rfl⟩
    rw [hsame]
    exact fun hmem => hlane ((h.laneSame task).2 hmem)

theorem not_contains (h : Represents q) (hout : ¬ q.contains task = true) : task ∉ q.prescheduled ∧
    task ∉ q.normal := by
  rw [h.contains_iff, not_or] at hout
  exact hout

theorem add (h : Represents q) (task : Nat) (position : Option Int) :
    Represents (add prio q task position).2 := by
  unfold PriorityQueue.add
  split
  · exact h
  · rename_i hout
    rcases h.not_contains hout with ⟨hlane, hnormal⟩
    split
    · exact h.insertNormal hlane hnormal
    · exact h.insertPrescheduled hlane hnormal _

theorem discard (h : Represents q) (task : Nat) : Represents (q.discard task).2 := by
  unfold PriorityQueue.discard
  split
  · exact h.removePrescheduled task
  · split
    · rename_i hset
      rcases h.removeNormal hset with ⟨q₁, hresult, hq₁, -, -⟩
      rw [hresult]
      exact hq₁
    · exact h

theorem reschedule (h : Represents q) (task : Nat) (position : Option Int) :
    Represents (reschedule prio q task position).2 := by
  unfold PriorityQueue.reschedule
  by_cases hin : q.contains task = true
  · rcases h.removeWithoutUnlink hin with ⟨q₁, hresult, hq₁, hlane, hnormal⟩
    rw [hresult]
    dsimp only
    split
    · exact hq₁.insertNormal hlane hnormal
    · exact hq₁.insertPrescheduled hlane hnormal _
  · have hout := not_or.1 (fun hor => hin (decide_eq_true hor))
    unfold PriorityQueue.removeWithoutUnlink
    rw [if_neg hout.1, if_neg hout.2]
    exact h

theorem onModified (h : Represents q) (task : Nat) : Represents (onModified prio q task).2 := by
  unfold PriorityQueue.onModified
  split
  · exact h
  · rename_i hlane
    split
    · rename_i hset
      rcases h.removeNormal hset with ⟨q₁, hresult, hq₁, hnormal, hsame⟩
      rw [hresult]
      refine hq₁.insertNormal ?_ fun hmem => (h.normal.mem_erase_iff.1 (hnormal.mem_iff.1 hmem)).1 rfl
      rw [hsame]
      exact fun hmem => hlane ((h.laneSame task).2 hmem)
    · exact h

theorem popNext (h : Represents q) : Represents q.popNext.2 := by
  unfold PriorityQueue.popNext
  split
  · rename_i task rest hlane
    have hnodup := h.lane
    rw [hlane, nodup_cons] at hnodup
    refine ⟨hnodup.2, fun t => ?_, h.normal, h.normalSame, fun t ht => ?_,
      h.ordered, h.sequences, h.counted⟩
    · refine Finset.mem_erase.trans ?_
      rw [h.laneSame, hlane, mem_cons]
      constructor
      · rintro ⟨hne, hmem⟩
        exact hmem.resolve_left hne
      · intro hmem
        exact ⟨fun heq => hnodup.1 (heq ▸ hmem), .inr hmem⟩
    · exact h.apart t (hlane ▸ mem_cons_of_mem _ ht)
  · split
    · exact h
    · rename_i e rest hpop
      rcases Lib.Heapq.heappop_spec h.ordered hpop with ⟨hordered, hperm, -⟩
      have hlist := Array.perm_iff_toList_perm.1 hperm
      rw [Array.toList_push] at hlist
      have hcons := (perm_append_singleton e rest.toList).symm.trans hlist
      have htasks := (hcons.map HeapEntry.task).symm
      have hsequences := (hcons.map HeapEntry.sequence).symm.nodup_iff.1 h.sequences
      rw [map_cons] at htasks
      have hnodup := nodup_cons.1 (htasks.nodup_iff.1 h.normal)
      refine ⟨h.lane, h.laneSame, hnodup.2, fun t => ?_, fun t ht hin => ?_, hordered,
        (nodup_cons.1 hsequences).2,
        fun e' he' => h.counted e' (hcons.mem_iff.1 (mem_cons_of_mem _ he'))⟩
      · refine Finset.mem_erase.trans ?_
        rw [h.normalSame, show t ∈ q.normal ↔ _ from htasks.mem_iff, mem_cons]
        constructor
        · rintro ⟨hne, hmem⟩
          exact hmem.resolve_left hne
        · intro hmem
          exact ⟨fun heq => hnodup.1 (heq ▸ hmem), .inr hmem⟩
      · exact h.apart t ht (htasks.mem_iff.2 (mem_cons_of_mem _ hin))

theorem perform (h : Represents q) (op : QueueOp) : Represents ((priorityClass prio).perform q op).2 :=
  (priorityClass prio).perform_of (fun _ t p hq => hq.add t p) (fun _ t hq => hq.discard t)
    (fun _ hq => hq.popNext)
    (fun _ t p hq => hq.reschedule t p) (fun _ t hq => hq.onModified t) h op

end Represents

/-! ## Calls that raise -/

theorem insertNormal_some (hsome : prio task ≠ none) (q : PriorityQueue κ) :
    (insertNormal prio q task).1 = .ok () := by
  unfold insertNormal
  split
  · rename_i hnone
    exact absurd hnone hsome
  · rfl

namespace Represents

end Represents

end PriorityQueue

/-! ## Runs -/

open Lib.Transition

def fifoStep (q : Fifo) (op : QueueOp) : Option Fifo :=
  some (fifoClass.perform q op).2

/-- The priorities are those of the moment of the call. -/
def priorityStep {κ : Type*} [LinearOrder κ] (q : PriorityQueue κ) (a : QueueOp × (Nat → Option κ)) :
    Option (PriorityQueue κ) :=
  some ((priorityClass a.2).perform q a.1).2

theorem PriorityQueue.Represents.step {κ : Type*} [LinearOrder κ] {q q' : PriorityQueue κ}
    (hq : q.Represents)
    (a : QueueOp × (Nat → Option κ)) (hs : priorityStep q a = some q') : q'.Represents := by
  cases hs
  exact hq.perform a.1

end Pytealet.Scheduler
