import Mathlib.Data.List.Nodup
import Mathlib.Data.List.Sort
import Pytealet.Scheduler.RunnableLanes

/-!
# YieldOrder — the order of the two runnable queues, and where a positional yield puts the caller

`tasks` of a queue lists its tasks in the order in which `pop_next` returns them: the immediate lane
and then the heap, which is sorted by priority and, where priorities are equal, by the time of the
insertion.  An integer position of `yield_to` indexes the deque, or the immediate lane, counted
after the target.
-/

namespace Pytealet.Scheduler

open Lib.Transition List Bool

/-! ## The lists -/

namespace FifoRunnableQueue

theorem insertAt_min (items : List Nat) (index task : Nat) :
    insertAt items (min index items.length) task = insertAt items index task := by
  unfold insertAt
  rcases le_total index items.length with hle | hle
  · rw [min_eq_left hle]
  · rw [min_eq_right hle, take_of_length_le hle, drop_of_length_le hle, take_length, drop_length]

theorem insertAt_zero (items : List Nat) (task : Nat) : insertAt items 0 task = task :: items :=
  rfl

theorem insertAt_succ (head : Nat) (items : List Nat) (index task : Nat) :
    insertAt (head :: items) (index + 1) task = head :: insertAt items index task :=
  rfl

theorem insertAt_length (items : List Nat) (task : Nat) :
    insertAt items items.length task = items ++ [task] := by
  unfold insertAt
  rw [take_length, drop_length]

theorem insertAt_append {items : List Nat} (rest : List Nat) {index : Nat}
    (h : index ≤ items.length) (task : Nat) :
    insertAt (items ++ rest) index task = insertAt items index task ++ rest := by
  unfold insertAt
  rw [take_append_of_le_length h, drop_append_of_le_length h, append_assoc, cons_append]

theorem insertAt_append_add (items rest : List Nat) (index task : Nat) :
    insertAt (items ++ rest) (items.length + index) task = items ++ insertAt rest index task := by
  unfold insertAt
  rw [take_length_add_append, drop_length_add_append, append_assoc]

end FifoRunnableQueue

open FifoRunnableQueue

theorem normaliseInsertPosition_natCast (n length : Nat) :
    normaliseInsertPosition (n : Int) length = n := by
  unfold normaliseInsertPosition
  rw [if_neg (by omega)]
  rfl

/-! ## The specification -/

namespace QueueClass

variable {ρ : Type*} (c : QueueClass ρ)

/-- What `n` successive calls of `pop_next` return. -/
def pops : Nat → ρ → List Nat
  | 0, _ => []
  | n + 1, q =>
    match c.popNext q with
    | (.ok task, q') => task :: pops n q'
    | (.error _, _) => []

/-- `Scheduler.yield_to`, with the tealet that makes the call; a task that yields to itself goes
on. -/
def schedulerYieldTo (q : ρ) (task current : Nat) (insertCurrentAt : Option Int) :
    Except QueueError Unit × ρ :=
  if task = current then (.ok (), q) else c.yieldTo q task current insertCurrentAt

/-- `tasks` lists the order of `pop_next`.  `yield_to` puts the target first, and the caller behind
it at `place`, among the other tasks in the order in which they were. -/
structure InOrder (tasks : ρ → List Nat) (place : ρ → Nat → Nat → Option Int → Option Nat)
    (q : ρ) : Prop where
  pops : ∀ n, c.pops n q = (tasks q).take n
  yields : ∀ target current insertCurrentAt index, target ≠ current → target ∈ tasks q →
    place q target current insertCurrentAt = some index →
      ∃ q', c.schedulerYieldTo q target current insertCurrentAt = (.ok (), q') ∧
        tasks q' = target :: insertAt (((tasks q).erase target).erase current) index current ∧
        c.pops 1 q' = [target]

end QueueClass

/-! ## The FIFO queue -/

namespace Fifo

variable {q : Fifo}

/-- Where `yield_to` puts the caller. -/
def place (q : Fifo) (target current : Nat) (insertCurrentAt : Option Int) : Option Nat :=
  let others := (q.items.erase target).erase current
  match insertCurrentAt with
  | none => some others.length
  | some position => some (min (normaliseInsertPosition position others.length) others.length)

theorem pops_eq (q : Fifo) (n : Nat) : fifoClass.pops n q = q.items.take n := by
  induction n generalizing q with
  | zero => rfl
  | succ n ih =>
    rcases q with ⟨_ | ⟨task, rest⟩, set⟩
    · rfl
    · exact congrArg (task :: ·) (ih _)

theorem items_yieldTo (h : Represents q) {target current index : Nat} {insertCurrentAt : Option Int}
    (hne : target ≠ current) (hin : target ∈ q.items)
    (hplace : q.place target current insertCurrentAt = some index) :
    ∃ q', fifoClass.yieldTo q target current insertCurrentAt = (.ok (), q') ∧
      q'.items = target :: insertAt ((q.items.erase target).erase current) index current := by
  have hset : target ∈ q.set := (h.same target).2 hin
  have hmoved : fifoClass.reschedule q target (some 0) =
      (.ok (), ⟨target :: q.items.erase target, q.set⟩) := if_pos hset
  -- the caller is taken out, if it is in the queue
  have hcaller : ∃ q₂ : Fifo, fifoClass.yieldTo q target current insertCurrentAt =
      fifoClass.addCurrent q₂ current insertCurrentAt ∧ current ∉ q₂.set ∧
        q₂.items = target :: (q.items.erase target).erase current := by
    by_cases hcurrent : current ∈ q.set
    · have hdiscard : fifoClass.discard ⟨target :: q.items.erase target, q.set⟩ current =
          (.ok true, ⟨(target :: q.items.erase target).erase current, q.set.erase current⟩) :=
            if_pos hcurrent
      refine ⟨_, fifoClass.yieldTo_contains hmoved (decide_eq_true hcurrent) hdiscard insertCurrentAt,
        Finset.notMem_erase current q.set, ?_⟩
      exact erase_cons_tail (by simpa using hne)
    · have hout : current ∉ q.items.erase target :=
        fun hmem => hcurrent ((h.same current).2 (mem_of_mem_erase hmem))
      refine ⟨_, fifoClass.yieldTo_not_contains hmoved (fun hc => hcurrent (of_decide_eq_true hc))
        insertCurrentAt,
        hcurrent, ?_⟩
      rw [erase_of_not_mem hout]
  rcases hcaller with ⟨q₂, hyield, hout, hitems⟩
  rw [hyield]
  have hadd : ∀ position, Fifo.add q₂ current position =
      (.ok true, ⟨Fifo.insert q₂.items current position, Insert.insert current q₂.set⟩) :=
        fun position => if_neg hout
  cases insertCurrentAt with
  | none =>
    refine ⟨_, congrArg (fun r => (r.1.map fun _ => (), r.2)) (hadd none), ?_⟩
    cases hplace
    show q₂.items ++ [current] = _
    rw [hitems, insertAt_length]
    rfl
  | some position =>
    refine ⟨_, congrArg (fun r => (r.1.map fun _ => (), r.2)) (hadd _), ?_⟩
    cases hplace
    show insertAt q₂.items (normaliseInsertPosition
        ((normaliseInsertPosition position (q₂.items.length - 1) + 1 : Nat) :
      Int) q₂.items.length) current = _
    rw [normaliseInsertPosition_natCast, hitems, insertAt_succ, insertAt_min]
    rfl

theorem inOrder (h : Represents q) : fifoClass.InOrder Fifo.items place q where
  pops := pops_eq q
  yields := by
    intro target current insertCurrentAt index hne hin hplace
    rcases items_yieldTo h hne hin hplace with ⟨q', hyield, hitems⟩
    refine ⟨q', (if_neg hne).trans hyield, hitems, ?_⟩
    rw [pops_eq, hitems]
    rfl

end Fifo

/-! ## The sorted heap -/

section Sorted

variable {κ : Type*} [LinearOrder κ]

/-- `sorted(self._priority_items)` -/
def sortedEntries (l : List (HeapEntry κ)) : List (HeapEntry κ) :=
  l.mergeSort fun a b => decide (a.key ≤ b.key)

theorem sortedEntries_perm (l : List (HeapEntry κ)) : (sortedEntries l).Perm l :=
  mergeSort_perm l _

theorem sortedEntries_pairwise (l : List (HeapEntry κ)) :
    (sortedEntries l).Pairwise fun a b => a.key ≤ b.key := by
  have hsorted := @List.pairwise_mergeSort _ (fun a b : HeapEntry κ => decide (a.key ≤ b.key))
    (fun a b c hab hbc => by simpa using le_trans (of_decide_eq_true hab) (of_decide_eq_true hbc))
    (fun a b => by simpa using le_total a.key b.key) l
  exact hsorted.imp fun h => of_decide_eq_true h

theorem sortedEntries_unique {l l' : List (HeapEntry κ)} (hsequences : (l.map HeapEntry.sequence).Nodup)
    (hperm : l'.Perm l) (hsorted : l'.Pairwise fun a b => a.key ≤ b.key) : sortedEntries l = l' := by
  refine List.Perm.eq_of_pairwise (fun a b ha hb hab hba => ?_) (sortedEntries_pairwise l) hsorted
    ((sortedEntries_perm l).trans hperm.symm)
  have hkey : a.key = b.key := le_antisymm hab hba
  have hsequence : a.sequence = b.sequence := congrArg (fun k => (ofLex k).2) hkey
  exact inj_on_of_nodup_map hsequences ((sortedEntries_perm l).mem_iff.1 ha) (hperm.mem_iff.1 hb) hsequence

theorem sortedEntries_filter {l l' : List (HeapEntry κ)} (hsequences : (l.map HeapEntry.sequence).Nodup)
    (keep : HeapEntry κ → Bool) (hperm : l'.Perm (l.filter keep)) :
    sortedEntries l' = (sortedEntries l).filter keep := by
  have hkept : ((sortedEntries l).filter keep).Perm l' :=
    ((sortedEntries_perm l).filter keep).trans hperm.symm
  apply sortedEntries_unique _ hkept ((sortedEntries_pairwise l).filter keep)
  have hsublist : (l.filter keep).map HeapEntry.sequence |>.Nodup :=
    (List.Sublist.map HeapEntry.sequence filter_sublist).nodup hsequences
  exact ((hperm.map HeapEntry.sequence).nodup_iff).2 hsublist

theorem filter_priority {l : List (HeapEntry κ)} (hsorted : l.Pairwise fun a b => a.key ≤ b.key) (p : κ) :
    (l.filter fun e => e.priority ≤ p) ++ (l.filter fun e => p < e.priority) = l := by
  induction l with
  | nil => rfl
  | cons e l ih =>
    rcases pairwise_cons.1 hsorted with ⟨hhead, htail⟩
    by_cases hle : e.priority ≤ p
    · rw [filter_cons_of_pos (by simpa using hle), filter_cons_of_neg (by simpa using hle), cons_append,
        ih htail]
    · -- all that follow are above `p` as well
      have hlt := not_le.1 hle
      have habove : ∀ e' ∈ l, p < e'.priority := by
        intro e' he'
        have hkey := hhead e' he'
        rcases Prod.Lex.le_iff.1 hkey with hless | ⟨heq, -⟩
        · exact lt_trans hlt hless
        · exact lt_of_lt_of_eq hlt heq
      have hnone : l.filter (fun e => decide (e.priority ≤ p)) = [] := by
        rw [filter_eq_nil_iff]
        intro e' he'
        simpa using habove e' he'
      have hall : l.filter (fun e => decide (p < e.priority)) = l := by
        rw [filter_eq_self]
        intro e' he'
        simpa using habove e' he'
      rw [filter_cons_of_neg (by simpa using hlt), filter_cons_of_pos (by simpa using hlt), hnone, hall]
      rfl

theorem sortedEntries_insert {l l' : List (HeapEntry κ)} {e : HeapEntry κ}
    (hsequences : (l.map HeapEntry.sequence).Nodup) (hnew : ∀ e' ∈ l, e'.sequence < e.sequence)
    (hperm : l'.Perm (e :: l)) : sortedEntries l' =
      (sortedEntries l).filter (fun e' => e'.priority ≤ e.priority) ++
        e :: (sortedEntries l).filter fun e' => e.priority < e'.priority := by
  have hsorted := sortedEntries_pairwise l
  have hsplit := filter_priority hsorted e.priority
  have hmem : ∀ e' ∈ sortedEntries l, e'.sequence < e.sequence := fun e' he' =>
    hnew e' ((sortedEntries_perm l).mem_iff.1 he')
  apply sortedEntries_unique
  · have hcons := (hperm.map HeapEntry.sequence).nodup_iff
    rw [hcons, map_cons, nodup_cons]
    refine ⟨fun hin => ?_, hsequences⟩
    rcases mem_map.1 hin with ⟨e', he', heq⟩
    exact (hnew e' he').ne heq
  · refine perm_middle.trans ((List.Perm.cons e ?_).trans hperm.symm)
    rw [hsplit]
    exact sortedEntries_perm l
  · rw [pairwise_append]
    refine ⟨hsorted.filter _, pairwise_cons.2 ⟨fun e' he' => ?_, hsorted.filter _⟩, fun a ha b hb => ?_⟩
    · have hlt := of_decide_eq_true (mem_filter.1 he').2
      exact Prod.Lex.le_iff.2 (.inl hlt)
    · have hmember := (mem_filter.1 ha).1
      have hle' := of_decide_eq_true (mem_filter.1 ha).2
      rcases mem_cons.1 hb with rfl | hb
      · rcases hle'.lt_or_eq with hlt | heq
        · exact Prod.Lex.le_iff.2 (.inl hlt)
        · exact Prod.Lex.le_iff.2 (.inr ⟨heq, (hmem a hmember).le⟩)
      · have hlt := of_decide_eq_true (mem_filter.1 hb).2
        exact Prod.Lex.le_iff.2 (.inl (lt_of_le_of_lt hle' hlt))

omit [LinearOrder κ] in
theorem filter_ne_ne (l : List (HeapEntry κ)) (target current : Nat) :
    (l.filter fun e => e.task ≠ target).filter (fun e => e.task ≠ current) =
      l.filter fun e => e.task ≠ target ∧ e.task ≠ current := by
  rw [filter_filter]
  apply filter_congr
  intro e _
  simp [Bool.and_comm]

omit [LinearOrder κ] in
theorem erase_task {lane : List Nat} {l : List (HeapEntry κ)} {task : Nat}
    (hnodup : (l.map HeapEntry.task).Nodup)
    (hapart : task ∈ lane → task ∉ l.map HeapEntry.task) : (lane ++ l.map HeapEntry.task).erase task =
      lane.erase task ++ (l.filter fun e => e.task ≠ task).map HeapEntry.task := by
  have hheap : (l.map HeapEntry.task).erase task =
      (l.filter fun e => e.task ≠ task).map HeapEntry.task := by
    rw [hnodup.erase_eq_filter, filter_map]
    congr 1
    apply filter_congr
    intro e _
    simp [bne, beq_eq_decide_eq]
  rw [← hheap]
  by_cases hlane : task ∈ lane
  · rw [erase_append_left _ hlane, erase_of_not_mem (hapart hlane)]
  · rw [erase_append_right _ hlane, erase_of_not_mem hlane]

theorem sortedEntries_pop {l rest : List (HeapEntry κ)} {e : HeapEntry κ}
    (hsequences : (l.map HeapEntry.sequence).Nodup) (hperm : (e :: rest).Perm l)
    (hmin : ∀ e' ∈ l, e.key ≤ e'.key) :
    sortedEntries l = e :: sortedEntries rest := by
  apply sortedEntries_unique hsequences (((sortedEntries_perm rest).cons e).trans hperm)
  refine pairwise_cons.2 ⟨fun e' he' => ?_, sortedEntries_pairwise rest⟩
  exact hmin e' (hperm.mem_iff.1 (mem_cons_of_mem _ ((sortedEntries_perm rest).mem_iff.1 he')))

end Sorted

/-! ## The priority queue -/

namespace PriorityQueue

variable {κ : Type*} [LinearOrder κ] {q : PriorityQueue κ} {prio : Nat → Option κ}

/-- The entries of the heap in their order. -/
def sorted (q : PriorityQueue κ) : List (HeapEntry κ) :=
  sortedEntries q.priorityItems.toList

def tasks (q : PriorityQueue κ) : List Nat :=
  q.prescheduled ++ q.sorted.map HeapEntry.task

/-- Where `yield_to` puts the caller: in the immediate lane, or behind the lane and the tasks of the
heap whose priority is not above its own. -/
def place (prio : Nat → Option κ) (q : PriorityQueue κ) (target current : Nat)
    (insertCurrentAt : Option Int) :
    Option Nat :=
  let lane := (q.prescheduled.erase target).erase current
  let heap := q.sorted.filter fun e => e.task ≠ target ∧ e.task ≠ current
  match insertCurrentAt with
  | none => (prio current).map fun p => lane.length + heap.countP fun e => e.priority ≤ p
  | some position => some (min (normaliseInsertPosition position lane.length) lane.length)

theorem sorted_tasks (q : PriorityQueue κ) : (q.sorted.map HeapEntry.task).Perm q.normal :=
  (sortedEntries_perm _).map HeapEntry.task

namespace Represents

theorem mem_tasks (h : Represents q) {task : Nat} : task ∈ q.tasks ↔ q.contains task = true := by
  unfold tasks
  rw [mem_append, h.contains_iff, (sorted_tasks q).mem_iff]

theorem tasks_popNext (h : Represents q) :
    (∃ task, q.popNext.1 = .ok task ∧ q.tasks = task :: q.popNext.2.tasks) ∨
      (∃ e, q.popNext.1 = .error e) ∧ q.tasks = [] := by
  unfold PriorityQueue.popNext
  cases hlane : q.prescheduled with
  | cons task rest =>
    refine .inl ⟨task, rfl, ?_⟩
    unfold tasks
    rw [hlane]
    rfl
  | nil =>
    dsimp only
    cases hpop : Lib.Heapq.heappop HeapEntry.key q.priorityItems with
    | none =>
      refine .inr ⟨⟨_, rfl⟩, ?_⟩
      unfold tasks sorted
      rw [hlane, Lib.Heapq.heappop_eq_none_iff.1 hpop]
      simp [sortedEntries]
    | some r =>
      rcases r with ⟨e, rest⟩
      rcases Lib.Heapq.heappop_spec h.ordered hpop with ⟨-, hperm, hmin⟩
      have hlist := Array.perm_iff_toList_perm.1 hperm
      rw [Array.toList_push] at hlist
      have hsorted := sortedEntries_pop h.sequences ((perm_append_singleton e rest.toList).symm.trans hlist)
        fun e' he' => hmin e' (Array.mem_toList_iff.1 he')
      refine .inl ⟨e.task, rfl, ?_⟩
      unfold tasks sorted
      rw [hlane, hsorted]
      rfl

theorem pops_eq (h : Represents q) (n : Nat) : (priorityClass prio).pops n q = q.tasks.take n := by
  induction n generalizing q with
  | zero => rfl
  | succ n ih =>
    have hnext := h.popNext
    have hpop : (priorityClass prio).popNext q = q.popNext := rfl
    unfold QueueClass.pops
    rw [hpop]
    rcases h.tasks_popNext with ⟨task, hresult, htasks⟩ | ⟨⟨e, hresult⟩, htasks⟩
    · generalize q.popNext = r at hresult htasks hnext ⊢
      rcases r with ⟨result, q'⟩
      cases hresult
      rw [htasks, take_succ_cons]
      exact congrArg (task :: ·) (ih hnext)
    · generalize q.popNext = r at hresult ⊢
      rcases r with ⟨result, q'⟩
      cases hresult
      rw [htasks]
      rfl

theorem removeNormal_sorted (h : Represents q) {task : Nat} (hin : task ∈ q.set) : ∃ q₁ : PriorityQueue κ,
    q.removeNormal task = (.ok (), q₁) ∧ q₁.prescheduled = q.prescheduled ∧
      q₁.sorted = q.sorted.filter fun e => e.task ≠ task := by
  rcases h.removeNormal hin with ⟨q₁, hresult, -, -, hlane⟩
  refine ⟨q₁, hresult, hlane, ?_⟩
  apply sortedEntries_filter h.sequences
  have hitems : q₁.priorityItems = Lib.Heapq.heapify HeapEntry.key
      (q.priorityItems.eraseP fun e => e.task = task) := by
    unfold PriorityQueue.removeNormal at hresult
    split at hresult
    · cases hresult
      rfl
    · cases hresult
  have herase : (q.priorityItems.eraseP fun e => e.task = task).toList =
      q.priorityItems.toList.eraseP fun e => e.task = task := by
    rcases q.priorityItems with ⟨l⟩
    simp
  rw [hitems]
  have hperm := Array.perm_iff_toList_perm.1
    (Lib.Heapq.heapify_perm HeapEntry.key (q.priorityItems.eraseP fun e => e.task = task))
  refine hperm.trans ?_
  rw [herase]
  have hnodup : (q.priorityItems.toList.map HeapEntry.task).Nodup := h.normal
  generalize q.priorityItems.toList = l at hnodup
  induction l with
  | nil => exact List.Perm.refl _
  | cons e l ih =>
    rw [map_cons, nodup_cons] at hnodup
    by_cases heq : e.task = task
    · rw [eraseP_cons_of_pos (by simpa using heq), filter_cons_of_neg (by simpa using heq)]
      rw [filter_eq_self.2]
      intro e' he'
      have hne : e'.task ≠ e.task := fun htask => hnodup.1 (htask ▸ mem_map_of_mem he')
      simpa using fun h' => hne (h'.trans heq.symm)
    · rw [eraseP_cons_of_neg (by simpa using heq), filter_cons_of_pos (by simpa using heq)]
      exact (ih hnodup.2).cons e

theorem taken (h : Represents q) {task : Nat} (hin : q.contains task = true) : ∃ q₁ : PriorityQueue κ,
    q.removeWithoutUnlink task = (.ok (), q₁) ∧ q.discard task = (.ok true, q₁) ∧ Represents q₁ ∧
      q₁.contains task = false ∧ q₁.prescheduled = q.prescheduled.erase task ∧
      q₁.sorted = q.sorted.filter fun e => e.task ≠ task := by
  rcases h.removeWithoutUnlink hin with ⟨q₁, hresult, hq₁, hlane, hnormal⟩
  have hout : q₁.contains task = false := by
    apply eq_false_of_not_eq_true
    rw [hq₁.contains_iff]
    exact fun hor => hor.elim hlane hnormal
  by_cases hset : task ∈ q.prescheduledSet
  · have hremoved : q.removeWithoutUnlink task = (.ok (), q.removePrescheduled task) := if_pos hset
    rw [hremoved] at hresult
    cases hresult
    refine ⟨_, hremoved, if_pos hset, hq₁, hout, rfl, ?_⟩
    -- it is not in the heap
    refine (filter_eq_self.2 fun e he => ?_).symm
    have hmem : e.task ∈ q.normal := (sorted_tasks q).mem_iff.1 (mem_map_of_mem he)
    have hne : e.task ≠ task := fun heq => h.apart task ((h.laneSame task).1 hset) (heq ▸ hmem)
    simpa using hne
  · have hnormalSet : task ∈ q.set := (of_decide_eq_true hin).resolve_left hset
    have hremoved : q.removeWithoutUnlink task = q.removeNormal task :=
      (if_neg hset).trans (if_pos hnormalSet)
    rcases h.removeNormal_sorted hnormalSet with ⟨q₂, hresult₂, hlane₂, hsorted₂⟩
    rw [hremoved, hresult₂] at hresult
    cases hresult
    refine ⟨q₁, hremoved.trans hresult₂, ?_, hq₁, hout, ?_, hsorted₂⟩
    · unfold PriorityQueue.discard
      rw [if_neg hset, if_pos hnormalSet, hresult₂]
      rfl
    · rw [hlane₂, erase_of_not_mem fun hmem => hset ((h.laneSame task).2 hmem)]

theorem insertNormal_sorted (h : Represents q) {task : Nat} {p : κ} (hprio : prio task = some p) :
    ∃ q' : PriorityQueue κ, PriorityQueue.insertNormal prio q task = (.ok (), q') ∧
      q'.prescheduled = q.prescheduled ∧
      q'.sorted = (q.sorted.filter fun e => e.priority ≤ p) ++
        ⟨p, q.prioritySequence, task⟩ :: q.sorted.filter fun e => p < e.priority := by
  unfold PriorityQueue.insertNormal
  rw [hprio]
  refine ⟨_, rfl, rfl, ?_⟩
  have hperm := Array.perm_iff_toList_perm.1
    (Lib.Heapq.heappush_perm HeapEntry.key q.priorityItems ⟨p, q.prioritySequence, task⟩)
  rw [Array.toList_push] at hperm
  exact sortedEntries_insert h.sequences h.counted (hperm.trans (perm_append_singleton _ _))

theorem yieldTo_order (h : Represents q) (prio : Nat → Option κ)
    {target current : Nat} (hne : target ≠ current)
    (hin : q.contains target = true) (insertCurrentAt : Option Int) : ∃ q₂ : PriorityQueue κ,
      (priorityClass prio).yieldTo q target current insertCurrentAt =
        (priorityClass prio).addCurrent q₂ current insertCurrentAt ∧ Represents q₂ ∧
          q₂.contains current = false ∧
      q₂.prescheduled = target :: (q.prescheduled.erase target).erase current ∧
      q₂.sorted = q.sorted.filter fun e => e.task ≠ target ∧ e.task ≠ current := by
  rcases h.taken hin with ⟨q₀, hremoved, -, hq₀, hout, hlane₀, hsorted₀⟩
  -- the target is put at the front
  have hmoved : (priorityClass prio).reschedule q target (some 0) =
      (.ok (), q₀.insertPrescheduled target 0) := by
    show PriorityQueue.reschedule prio q target (some 0) = _
    unfold PriorityQueue.reschedule
    rw [hremoved]
    rfl
  have hnot := hq₀.not_contains (by rw [hout]; exact false_ne_true)
  have hq₁ : Represents (q₀.insertPrescheduled target 0) := hq₀.insertPrescheduled hnot.1 hnot.2 0
  have hlane₁ : (q₀.insertPrescheduled target 0).prescheduled = target :: q.prescheduled.erase target := by
    rw [← hlane₀]
    rfl
  have hsorted₁ : (q₀.insertPrescheduled target 0).sorted = q.sorted.filter fun e =>
      e.task ≠ target := hsorted₀
  have hboth := filter_ne_ne q.sorted target current
  generalize q₀.insertPrescheduled target 0 = q₁ at hmoved hq₁ hlane₁ hsorted₁
  by_cases hcurrent : q₁.contains current = true
  · rcases hq₁.taken hcurrent with ⟨q₂, -, hdiscard, hq₂, hout₂, hlane₂, hsorted₂⟩
    refine ⟨q₂, (priorityClass prio).yieldTo_contains hmoved hcurrent hdiscard insertCurrentAt, hq₂,
      hout₂, ?_, ?_⟩
    · rw [hlane₂, hlane₁]
      exact erase_cons_tail (by simpa using hne)
    · rw [hsorted₂, hsorted₁, hboth]
  · have hnot₁ := hq₁.not_contains hcurrent
    refine ⟨q₁, (priorityClass prio).yieldTo_not_contains hmoved hcurrent insertCurrentAt, hq₁,
      eq_false_of_not_eq_true hcurrent, ?_, ?_⟩
    · rw [hlane₁] at hnot₁ ⊢
      rw [erase_of_not_mem fun hmem => hnot₁.1 (mem_cons_of_mem _ hmem)]
    · rw [← hboth, ← hsorted₁]
      refine (filter_eq_self.2 fun e he => ?_).symm
      have hmem : e.task ∈ q₁.normal := (sorted_tasks q₁).mem_iff.1 (mem_map_of_mem he)
      have hne' : e.task ≠ current := fun heq => hnot₁.2 (heq ▸ hmem)
      simpa using hne'

theorem tasks_erase_both (h : Represents q) (target current : Nat) : (q.tasks.erase target).erase current =
    (q.prescheduled.erase target).erase current ++
      (q.sorted.filter fun e => e.task ≠ target ∧ e.task ≠ current).map HeapEntry.task := by
  have hnodup : (q.sorted.map HeapEntry.task).Nodup := (sorted_tasks q).nodup_iff.2 h.normal
  have hapart : ∀ task ∈ q.prescheduled, task ∉ q.sorted.map HeapEntry.task := fun task hlane hmem =>
    h.apart task hlane ((sorted_tasks q).mem_iff.1 hmem)
  have hkept : ((q.sorted.filter fun e => e.task ≠ target).map HeapEntry.task).Sublist
      (q.sorted.map HeapEntry.task) :=
    List.Sublist.map HeapEntry.task filter_sublist
  unfold tasks
  rw [erase_task hnodup (hapart target), erase_task (hkept.nodup hnodup) fun hlane hmem =>
    hapart current (mem_of_mem_erase hlane) (hkept.subset hmem), filter_ne_ne]

theorem addCurrent_lane (prio : Nat → Option κ) {q₂ : PriorityQueue κ}
    {target current : Nat} {lane : List Nat}
    (hout : q₂.contains current = false) (hlane : q₂.prescheduled = target :: lane) (position : Int) :
    ∃ q', (priorityClass prio).addCurrent q₂ current (some position) = (.ok (), q') ∧
      q'.sorted = q₂.sorted ∧
      q'.prescheduled =
        target :: insertAt lane (min (normaliseInsertPosition position lane.length) lane.length)
          current := by
  have hnot : ¬ q₂.contains current = true := by
    rw [hout]
    exact false_ne_true
  have hadd : ∀ p, PriorityQueue.add prio q₂ current (some p) =
      (.ok true, q₂.insertPrescheduled current
        (normaliseInsertPosition p q₂.prescheduled.length)) := fun p => if_neg hnot
  have hresult : (priorityClass prio).addCurrent q₂ current (some position) = (.ok (), _) :=
    congrArg (fun r => (r.1.map fun _ => (), r.2)) (hadd _)
  refine ⟨_, hresult, rfl, ?_⟩
  show insertAt q₂.prescheduled (normaliseInsertPosition ((normaliseInsertPosition position
    (q₂.prescheduled.length - 1) + 1 : Nat) : Int) q₂.prescheduled.length) current = _
  rw [normaliseInsertPosition_natCast, hlane, insertAt_succ, insertAt_min]
  rfl

theorem addCurrent_heap {q₂ : PriorityQueue κ} (h : Represents q₂) {current : Nat} {p : κ}
    (hout : q₂.contains current = false) (hprio : prio current = some p) :
    ∃ q', (priorityClass prio).addCurrent q₂ current none = (.ok (), q') ∧
      q'.prescheduled = q₂.prescheduled ∧
      q'.sorted.map HeapEntry.task = insertAt (q₂.sorted.map HeapEntry.task)
        (q₂.sorted.countP fun e => e.priority ≤ p) current := by
  have hnot : ¬ q₂.contains current = true := by
    rw [hout]
    exact false_ne_true
  rcases h.insertNormal_sorted hprio with ⟨q', hinsert, hlane, hsorted⟩
  have hadd : PriorityQueue.add prio q₂ current none = (.ok true, q') := by
    refine (if_neg hnot).trans ?_
    rw [hinsert]
    rfl
  refine ⟨q', congrArg (fun r => (r.1.map fun _ => (), r.2)) hadd, hlane, ?_⟩
  have hsplit := filter_priority (sortedEntries_pairwise q₂.priorityItems.toList) p
  have hlength : q₂.sorted.countP (fun e => e.priority ≤ p) =
      ((q₂.sorted.filter fun e => e.priority ≤ p).map HeapEntry.task).length + 0 := by
    rw [length_map, countP_eq_length_filter]
    rfl
  calc
    q'.sorted.map HeapEntry.task = (q₂.sorted.filter fun e => e.priority ≤ p).map HeapEntry.task ++
        current :: (q₂.sorted.filter fun e => p < e.priority).map HeapEntry.task := by
      rw [hsorted, map_append, map_cons]
    _ = insertAt ((q₂.sorted.filter fun e => e.priority ≤ p).map HeapEntry.task ++
        (q₂.sorted.filter fun e => p < e.priority).map HeapEntry.task)
          (q₂.sorted.countP fun e => e.priority ≤ p) current := by
      rw [hlength, insertAt_append_add, insertAt_zero]
    _ = _ := by
      rw [← map_append]
      exact congrArg (fun l => insertAt (l.map HeapEntry.task) _ current) hsplit

theorem yields (h : Represents q) {target current index : Nat} {insertCurrentAt : Option Int}
    (hne : target ≠ current)
    (hin : q.contains target = true) (hplace : place prio q target current insertCurrentAt = some index) :
    ∃ q', (priorityClass prio).yieldTo q target current insertCurrentAt = (.ok (), q') ∧
      q'.tasks = target :: insertAt ((q.tasks.erase target).erase current) index current := by
  rcases h.yieldTo_order prio hne hin insertCurrentAt with ⟨q₂, hyield, hq₂, hout, hlane, hsorted⟩
  rw [hyield, h.tasks_erase_both]
  unfold place at hplace
  dsimp only at hplace
  generalize (q.prescheduled.erase target).erase current = lane at hlane hplace ⊢
  cases insertCurrentAt with
  | none =>
    rcases Option.map_eq_some_iff.1 hplace with ⟨p, hprio, rfl⟩
    rcases hq₂.addCurrent_heap hout hprio with ⟨q', hadd, hlane', hheap⟩
    refine ⟨q', hadd, ?_⟩
    unfold tasks
    rw [hlane', hheap, hlane, hsorted, insertAt_append_add]
    rfl
  | some position =>
    cases hplace
    rcases addCurrent_lane prio hout hlane position with ⟨q', hadd, hsorted', hlane'⟩
    refine ⟨q', hadd, ?_⟩
    unfold tasks
    rw [hlane', hsorted', hsorted, insertAt_append _ (Nat.min_le_right _ _)]
    rfl

theorem inOrder (h : Represents q) (prio : Nat → Option κ) :
    (priorityClass prio).InOrder tasks (place prio) q where
  pops := h.pops_eq
  yields := by
    intro target current insertCurrentAt index hne hin hplace
    rcases h.yields hne (h.mem_tasks.1 hin) hplace with ⟨q', hyield, htasks⟩
    have hq' : Represents q' := by
      have hstep : Represents ((priorityClass prio).yieldTo q target current insertCurrentAt).2 :=
        h.perform (.yieldTo target current insertCurrentAt)
      rw [hyield] at hstep
      exact hstep
    refine ⟨q', (if_neg hne).trans hyield, htasks, ?_⟩
    rw [hq'.pops_eq, htasks]
    rfl

end Represents

end PriorityQueue

end Pytealet.Scheduler
