import Mathlib.Data.List.Perm.Basic

/-!
# Runnable — the runnable queue of a scheduler

A scheduler is given its queue class.  What it relies on is collected in `RunnableQueue`: the
operations under the names of the protocol in `scheduler.py`, and what each of them does to the
tasks in the queue.  The order is up to the class; `FifoRunnableQueue` is the default one.

`PriorityRunnableQueue` is not one of these: what it does depends on the priorities of the tasks at
each call, and a priority that cannot be computed makes it lose the task that it moves.  It is in
`RunnableLanes`.
-/

namespace Pytealet.Scheduler

/-- A queue class with representation `ρ`; tasks are numbers. -/
structure RunnableQueue (ρ : Type*) where
  empty : ρ
  tasks : ρ → List Nat
  add : ρ → Nat → Option Int → ρ
  discard : ρ → Nat → ρ
  popNext : ρ → Option (Nat × ρ)
  reschedule : ρ → Nat → Option Int → ρ
  indexedLen : ρ → Nat
  tasks_empty : tasks empty = []
  add_perm : ∀ q t position, t ∉ tasks q → (tasks (add q t position)).Perm (t :: tasks q)
  discard_perm : ∀ q t, (tasks (discard q t)).Perm ((tasks q).erase t)
  popNext_none : ∀ q, popNext q = none → tasks q = []
  popNext_perm : ∀ q t q', popNext q = some (t, q') → (t :: tasks q').Perm (tasks q)
  reschedule_perm : ∀ q t position, t ∈ tasks q → (tasks (reschedule q t position)).Perm (tasks q)

/-- `_normalise_insert_position`: the insertion semantics of a list, with `-1` meaning append. -/
def normaliseInsertPosition (position : Int) (length : Nat) : Nat :=
  if position < 0 then
    (length + position + 1).toNat
  else
    position.toNat

namespace RunnableQueue

variable {ρ : Type*} (q : RunnableQueue ρ)

/-- `RunnableQueueBase.yield_to` on a queue that holds `target`. -/
def yieldTo (r : ρ) (target current : Nat) (insertCurrentAt : Option Int) : ρ :=
  let r₁ := q.reschedule r target (some 0)
  let r₂ := if current ∈ q.tasks r₁ then q.discard r₁ current else r₁
  match insertCurrentAt with
  | none => q.add r₂ current none
  | some position =>
    q.add r₂ current (some (normaliseInsertPosition position (q.indexedLen r₂ - 1) + 1 : Nat))

theorem yieldTo_perm {r : ρ} {target current : Nat} (insertCurrentAt : Option Int)
    (ht : target ∈ q.tasks r) (hc : current ∉ q.tasks r) :
    (q.tasks (q.yieldTo r target current insertCurrentAt)).Perm (current :: q.tasks r) := by
  have hre := q.reschedule_perm r target (some 0) ht
  have hnot : current ∉ q.tasks (q.reschedule r target (some 0)) := fun hm => hc (hre.mem_iff.1 hm)
  have hadd : ∀ position,
      (q.tasks (q.add (q.reschedule r target (some 0)) current position)).Perm
        (current :: q.tasks r) := by
    intro position
    exact (q.add_perm _ _ position hnot).trans (hre.cons current)
  unfold yieldTo
  simp only [hnot, if_false]
  cases insertCurrentAt with
  | none => exact hadd none
  | some position => exact hadd _

end RunnableQueue

/-! ## The FIFO queue -/

namespace FifoRunnableQueue

/-- `deque.insert`. -/
def insertAt (items : List Nat) (index : Nat) (task : Nat) : List Nat :=
  items.take index ++ task :: items.drop index

theorem insertAt_perm (items : List Nat) (index task : Nat) :
    (insertAt items index task).Perm (task :: items) := by
  have hmiddle : (insertAt items index task).Perm (task :: (items.take index ++ items.drop index)) :=
    List.perm_middle
  rwa [List.take_append_drop] at hmiddle

/-- `add` of a task that is not in the queue; a task that is stays where it is. -/
def add (items : List Nat) (task : Nat) (position : Option Int) : List Nat :=
  if task ∈ items then
    items
  else
    match position with
    | none => items ++ [task]
    | some p => insertAt items (normaliseInsertPosition p items.length) task

def popNext : List Nat → Option (Nat × List Nat)
  | [] => none
  | task :: rest => some (task, rest)

/-- `reschedule` of a task in the queue. -/
def reschedule (items : List Nat) (task : Nat) (position : Option Int) : List Nat :=
  match position with
  | none => items.erase task ++ [task]
  | some p =>
    insertAt (items.erase task) (normaliseInsertPosition p (items.erase task).length) task

end FifoRunnableQueue

open FifoRunnableQueue in
def fifoRunnableQueue : RunnableQueue (List Nat) where
  empty := []
  tasks := id
  add := add
  discard := List.erase
  popNext := popNext
  reschedule := reschedule
  indexedLen := List.length
  tasks_empty := rfl
  add_perm := by
    intro items task position hnot
    have hnot' : task ∉ items := hnot
    cases position with
    | none => simp [add, hnot']
    | some p =>
      simpa [add, hnot'] using insertAt_perm items _ task
  discard_perm := fun _ _ => List.Perm.refl _
  popNext_none := by
    intro items h
    cases items with
    | nil => rfl
    | cons task rest => simp [popNext] at h
  popNext_perm := by
    intro items task rest h
    cases items with
    | nil => simp [popNext] at h
    | cons head tail =>
      simp only [popNext, Option.some.injEq, Prod.mk.injEq] at h
      rcases h with ⟨rfl, rfl⟩
      exact List.Perm.refl _
  reschedule_perm := by
    intro items task position hmem
    have hback : (task :: items.erase task).Perm items := (List.perm_cons_erase hmem).symm
    cases position with
    | none => exact (List.perm_append_singleton task _).trans hback
    | some p => exact (insertAt_perm _ _ task).trans hback

end Pytealet.Scheduler
