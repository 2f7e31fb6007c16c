import Pytealet.TaskGroups.Join
import Mathlib.Data.Finset.Basic

/-!
# Flag — the completion event of a task group

`_join` waits in a loop for `_done` while `_tasks` is not empty, so the event has to be clear
whenever a child is registered.  `spawn` makes a new event when it finds `_tasks` empty, and
`_on_task_done` sets the event when it leaves `_tasks` empty.

Between the two, an eager child runs before it is registered.  If it spawns siblings that finish
while it runs, the last of them sets the event, and the child is then registered with the event set.
-/

namespace Pytealet.TaskGroups

open Lib Lib.Transition

variable {ε : Type*}

/-! ## Relations between the event and the set -/

/-- What the steps other than `spawn` need of a relation `Q` between `_tasks` and `_done.is_set()`:
the event is clear while tasks are registered, and `_on_task_done` keeps `Q`. -/
structure Law (Q : Finset Nat → Bool → Prop) : Prop where
  clear : ∀ tasks b, Q tasks b → tasks ≠ ∅ → b = false
  discard : ∀ tasks b c, Q tasks b →
    Q (tasks.erase c) (if tasks.erase c = ∅ then true else b)
  again : ∀ tasks b c, Q tasks b →
    Q ((insert c tasks).erase c) (if (insert c tasks).erase c = ∅ then true else b)

/-- `Q` holds, and the loop of `_join` has not lost control. -/
def Good (Q : Finset Nat → Bool → Prop) (s : State ε) : Prop :=
  Q s.tasks s.doneSet ∧ s.pos 0 ≠ .spinning

/-- The event is set exactly when no task is registered. -/
def Exact (tasks : Finset Nat) (b : Bool) : Prop :=
  b = true ↔ tasks = ∅

/-- The event is clear while a task is registered. -/
def Clear (tasks : Finset Nat) (b : Bool) : Prop :=
  tasks ≠ ∅ → b = false

section Keep

variable {Q : Finset Nat → Bool → Prop} {s : State ε}

theorem Good.setPos (h : Good Q s) {t : Nat} {p : Pos ε} (hp : p ≠ .spinning) :
    Good Q (setPos s t p) := by
  refine ⟨h.1, ?_⟩
  by_cases ht : t = 0
  · simpa [TaskGroups.setPos, ht] using hp
  · simpa [TaskGroups.setPos, Ne.symm ht] using h.2

theorem recordError_doneSet (s : State ε) (e : Option (Exc ε)) :
    (recordError s e).doneSet = s.doneSet := by
  unfold recordError
  split <;> rfl

theorem onTaskDone_tasks (s : State ε) (c : Nat) (e : Option (Exc ε)) :
    (onTaskDone s c e).tasks = s.tasks.erase c := by
  simp only [onTaskDone, recordError_tasks]
  split <;> rfl

theorem onTaskDone_doneSet (s : State ε) (c : Nat) (e : Option (Exc ε)) :
    (onTaskDone s c e).doneSet = if s.tasks.erase c = ∅ then true else s.doneSet := by
  simp only [onTaskDone, recordError_doneSet]
  split <;> rfl

theorem onTaskDone_calm {c : Nat} {e : Option (Exc ε)} (h : s.pos 0 ≠ .spinning) :
    (onTaskDone s c e).pos 0 ≠ .spinning := by
  simp only [onTaskDone, recordError_pos]
  split
  · exact fun hp => h ((setDone_pos_iff _ 0 (by simp)).1 hp)
  · exact h

theorem Good.onTaskDone (hL : Law Q) (h : Good Q s) (c : Nat) (e : Option (Exc ε)) :
    Good Q (onTaskDone s c e) := by
  refine ⟨?_, onTaskDone_calm h.2⟩
  rw [onTaskDone_tasks, onTaskDone_doneSet]
  exact hL.discard _ _ c h.1

theorem Good.finishChild (hL : Law Q) (h : Good Q s) (c : Nat) (e : Option (Exc ε)) :
    Good Q (finishChild s c e) := by
  have hmoved : Good Q (TaskGroups.setPos s c (.done e)) := h.setPos (by simp)
  simp only [TaskGroups.finishChild]
  split
  · exact hmoved.onTaskDone hL c e
  · exact hmoved

theorem Good.leave (h : Good Q s) (r : ExitResult ε) : Good Q (leave s r) :=
  ⟨h.1, by simp [TaskGroups.leave, TaskGroups.setPos]⟩

theorem Good.joinLoop (hL : Law Q) (h : Good Q s) (f : Frame ε) : Good Q (joinLoop s f) := by
  unfold TaskGroups.joinLoop
  split
  · exact h.leave _
  · rename_i hne
    -- tasks are left, so the event is clear and `swait` parks
    have hclear : s.doneSet = false := hL.clear _ _ h.1 hne
    rw [if_neg (by simp [hclear])]
    exact h.setPos (by simp)

theorem Good.interrupt (hL : Law Q) (h : Good Q s) (t : Nat) (e : Exc ε) :
    Good Q (interrupt s t e) := by
  unfold TaskGroups.interrupt
  cases s.pos t with
  | primed => exact h.finishChild hL t _
  | inSpawn c => exact h.setPos (by simp)
  | inAbort rest k =>
    cases k with
    | join f => exact h.leave _
    | cancel u => exact h.setPos (by simp)
    | request => exact h.setPos (by simp)
  | _ => exact h

theorem Good.abortLoop (hL : Law Q) (h : Good Q s) (k : After ε) (order : List Nat) :
    Good Q (abortLoop s k order) := by
  unfold TaskGroups.abortLoop
  cases order.dropWhile (skip s k) with
  | nil =>
    cases k with
    | cancel t => exact h.setPos (by simp)
    | join f => exact h.joinLoop hL f
    | request =>
      have hdrain : Good Q { s with drain := none } := h
      simp only [afterAbort]
      split
      · exact hdrain
      · exact hdrain.interrupt hL 0 .ours
  | cons c rest =>
    refine Good.interrupt hL ?_ c .ours
    cases k with
    | cancel t => exact h.setPos (by simp)
    | join f => exact h.setPos (by simp)
    | request => exact h

theorem Good.abortChildren (hL : Law Q) (h : Good Q s) (k : After ε) (order : List Nat) :
    Good Q (abortChildren s k order) :=
  Good.abortLoop (s := { s with aborting := true }) hL h k order

theorem Good.deliver (hL : Law Q) (h : Good Q s) (t : Nat) (e : Exc ε) (order : List Nat) :
    Good Q (deliver s t e order) := by
  unfold TaskGroups.deliver
  cases s.pos t with
  | inJoin f w =>
    cases e with
    | ours => exact h.joinLoop hL f
    | cancelled => exact h.abortChildren hL _ order
    | timeout => exact h.abortChildren hL _ order
    | exception e => exact h.leave _
    | base e => exact h.leave _
  | _ => exact h.interrupt hL t e

/-- The child of an eager start stays in `_tasks` when its spawner is back: it is not done, or its
callback is queued. -/
def Stays (s : State ε) (t c : Nat) (hosted : Bool) : Prop :=
  hosted = true ∨ ((TaskGroups.setPos s t .user).pos c).isDone = false

instance (s : State ε) (t c : Nat) (hosted : Bool) : Decidable (Stays s t c hosted) :=
  inferInstanceAs (Decidable (_ ∨ _))

theorem Good.register_of_not_stays (hL : Law Q) (h : Good Q s) {t c : Nat} {hosted : Bool}
    (hstay : ¬ Stays s t c hosted) : Good Q (register (TaskGroups.setPos s t .user) c hosted) := by
  have hmoved : Good Q (TaskGroups.setPos s t .user) := h.setPos (by simp)
  unfold register
  cases hc : (TaskGroups.setPos s t .user).pos c with
  | done e =>
    have hhosted : hosted = false := by simpa [Stays, hc, Pos.isDone] using hstay
    rw [hhosted]
    refine ⟨?_, onTaskDone_calm hmoved.2⟩
    simp only [Bool.false_eq_true, if_false]
    rw [onTaskDone_tasks, onTaskDone_doneSet]
    -- added and discarded at once
    exact hL.again _ _ c h.1
  | _ => exact absurd (.inr (by simp [hc, Pos.isDone])) hstay

/-- The steps that may break `Q`: a `spawn`, and the registration of an eager child that stays. -/
inductive Critical (s : State ε) : Act ε → State ε → Prop
  | spawn (t : Nat) (eager : Bool) (ht : s.pos t = .user) (hc : canSpawn s) :
      Critical s (.spawn t eager) (spawn s t eager)
  | register (t c : Nat) (hosted : Bool) (ht : s.pos t = .inSpawn c) (hs : Stays s t c hosted) :
      Critical s (.resume t hosted) (register (TaskGroups.setPos s t .user) c hosted)

theorem Good.step (hL : Law Q) {s' : State ε} {a : Act ε} (h : Good Q s)
    (hs : step s a = some s') : Good Q s' ∨ Critical s a s' := by
  cases Move.of_step hs with
  | enter => exact .inl h
  | spawn t eager ht hc => exact .inr (Critical.spawn t eager ht hc)
  | refused t eager ht hc => exact .inl h
  | begin c hc => exact .inl (h.setPos (by simp))
  | register t c hosted ht =>
    by_cases hstay : Stays s t c hosted
    · exact .inr (Critical.register t c hosted ht hstay)
    · exact .inl (h.register_of_not_stays hL hstay)
  | abortTurn t hosted rest k ht => exact .inl (h.abortLoop hL k rest)
  | joinTurn t hosted f ht => exact .inl (h.joinLoop hL f)
  | callback c e hc hd =>
    exact .inl (Good.onTaskDone (s := { s with deferred := s.deferred.erase c }) hL h c e)
  | finish c e hc h0 => exact .inl (h.finishChild hL c e)
  | exitAbort body order h0 hl hb =>
    exact .inl (Good.abortChildren (s := { s with exiting := true }) hL h _ order)
  | exitJoin body order h0 hl hb => exact .inl (Good.joinLoop (s := { s with exiting := true }) hL h _)
  | throw t e order hl => exact .inl (h.deliver hL t _ order)
  | cancel t order ht hl => exact .inl (h.abortChildren hL _ order)
  | request order hr hd hl =>
    exact .inl
      (Good.abortChildren (s := { s with requests := s.requests - 1 }) hL h _ order)
  | drainTurn rest hd => exact .inl (h.abortLoop hL _ rest)

end Keep

/-! ## Every run -/

/-- Steps that keep the event exact: an eager child is started, and one that stays is registered,
only while other tasks are registered. -/
def ExactGuard (s : State ε) : Act ε → Prop
  | .spawn _ true => canSpawn s → s.tasks ≠ ∅
  | .resume t hosted =>
    match s.pos t with
    | .inSpawn c => Stays s t c hosted → s.tasks ≠ ∅
    | _ => True
  | _ => True

/-- Steps that keep the event clear while tasks are registered: an eager child that stays is
registered only while the event is clear, that is, no completion has emptied `_tasks` since the last
`spawn` that found it empty. -/
def ClearGuard (s : State ε) : Act ε → Prop
  | .resume t hosted =>
    match s.pos t with
    | .inSpawn c => Stays s t c hosted → s.doneSet = false
    | _ => True
  | _ => True

theorem Good.init : Good Exact (init : State ε) ∧ Good Clear (init : State ε) := by
  refine ⟨⟨by simp [Exact, TaskGroups.init], by simp [TaskGroups.init]⟩,
    ⟨by simp [Clear, TaskGroups.init], by simp [TaskGroups.init]⟩⟩

theorem Critical.of_step {s s' : State ε} {a : Act ε} (hg : ¬ ExactGuard s a ∨ ¬ ClearGuard s a)
    (hs : step s a = some s') : Critical s a s' := by
  cases Move.of_step hs with
  | spawn t eager ht hc => exact Critical.spawn t eager ht hc
  | register t c hosted ht =>
    have hstay : Stays s t c hosted := by
      by_contra hstay
      rcases hg with hg | hg
      · simp [ExactGuard, ht, hstay] at hg
      · simp [ClearGuard, ht, hstay] at hg
    exact Critical.register t c hosted ht hstay
  | refused t eager ht hc =>
    -- a refused `spawn` meets both guards
    cases eager <;> simp [ExactGuard, ClearGuard, hc] at hg
  | abortTurn t hosted rest k ht => simp [ExactGuard, ClearGuard, ht] at hg
  | joinTurn t hosted f ht => simp [ExactGuard, ClearGuard, ht] at hg
  | _ => simp [ExactGuard, ClearGuard] at hg

end Pytealet.TaskGroups
