import Pytealet.Lib.Transition
import Mathlib.Data.Finset.Dedup
import Mathlib.Data.Finset.Erase
import Mathlib.Data.Finset.Insert
import Mathlib.Logic.Function.Basic

/-!
# TaskGroup — the task group of `taskgroups.py`

One group, its parent tealet and the children that `spawn` has started.  Tealet `0` is the parent;
children are numbered in the order in which they were created, so a child has a larger number than
the tealet that spawned it.

A tealet is suspended at one of the switch points of the group's code or in code of its own
(`user`):

* inside `scheduler.spawn` while an eager child runs, before the child is in `_tasks`;
* inside the `task.throw` of `_abort_children`, with the rest of the loop still to do;
* in the `_done.swait()` of `_join`.

`_request_abort` runs as a scheduler callback, on the tealet that drains the callbacks and that is
not a member of the group.
-/

namespace Pytealet.TaskGroups

open Lib Lib.Transition

/-! ## Data -/

/-- The exceptions that the group tells apart: its own `_TaskGroupCancelled`, any other
`CancelledError`, the `RawTimeoutError` of a `Timeout`, an `Exception`, and any other
`BaseException` such as `SystemExit`. -/
inductive Exc (ε : Type*)
  | ours
  | cancelled
  | timeout
  | exception (e : ε)
  | base (e : ε)
  deriving DecidableEq, Repr

/-- The local state of `_exit` and `_join`: the exception of the `with` body, and whether `_join`
has caught a timeout or a cancellation. -/
structure Frame (ε : Type*) where
  body : Option (Exc ε)
  timeoutExc : Bool
  cancelExc : Bool
  deriving DecidableEq, Repr

/-- How `__exit__` ends.  A `returned` with a body exception lets that exception propagate. -/
inductive ExitResult (ε : Type*)
  | returned
  | exceptionGroup (errors : List ε)
  | raised (e : Exc ε)
  deriving DecidableEq, Repr

/-- What follows the loop of `_abort_children`: `cancel` returns to tealet `t`, `__exit__` and the
handlers of `_join` go on to wait, and `_request_abort` turns to the parent. -/
inductive After (ε : Type*)
  | cancel (t : Nat)
  | join (f : Frame ε)
  | request
  deriving DecidableEq, Repr

/-- The tealet that runs the loop, if it is a member of the group. -/
def After.self {ε : Type*} : After ε → Option Nat
  | .cancel t => some t
  | .join _ => some 0
  | .request => none

/-- Where a tealet is. -/
inductive Pos (ε : Type*)
  | unborn
  | primed
  | user
  | inSpawn (c : Nat)
  | inAbort (rest : List Nat) (k : After ε)
  | inJoin (f : Frame ε) (woken : Bool)
  | spinning
  | exited (r : ExitResult ε)
  | done (e : Option (Exc ε))
  deriving DecidableEq, Repr

def Pos.isDone {ε : Type*} : Pos ε → Bool
  | .done _ => true
  | _ => false

/-- The group and its tealets.  `doneSet` is `_done.is_set()`.  `deferred` are the children whose
`_on_task_done` was queued on a running asyncio loop, `requests` counts the queued
`_request_abort` callbacks, and `drain` is the one that is suspended in its loop. -/
structure State (ε : Type*) where
  entered : Bool
  exiting : Bool
  aborting : Bool
  tasks : Finset Nat
  doneSet : Bool
  errors : List ε
  baseError : Option (Exc ε)
  pos : Nat → Pos ε
  next : Nat
  deferred : Finset Nat
  requests : Nat
  drain : Option (List Nat)

variable {ε : Type*}

def init : State ε where
  entered := false
  exiting := false
  aborting := false
  tasks := ∅
  doneSet := true
  errors := []
  baseError := none
  pos := fun t => if t = 0 then .user else .unborn
  next := 1
  deferred := ∅
  requests := 0
  drain := none

def setPos (s : State ε) (t : Nat) (p : Pos ε) : State ε :=
  { s with pos := Function.update s.pos t p }

theorem setPos_self (s : State ε) (t : Nat) (p : Pos ε) : (setPos s t p).pos t = p :=
  Function.update_self ..

theorem setPos_of_ne (s : State ε) {t u : Nat} (p : Pos ε) (hne : u ≠ t) : (setPos s t p).pos u = s.pos u :=
  Function.update_of_ne hne _ _

/-! ## Completion of a child -/

/-- `_done.set()`: a parent that waits in `_join` becomes runnable. -/
def setDone (s : State ε) : State ε :=
  { s with
    doneSet := true
    pos := fun t =>
      match s.pos t with
      | .inJoin f _ => .inJoin f true
      | p => p }

/-- The error part of `_on_task_done`: cancellations are not errors, and the first failure queues
`_request_abort`. -/
def recordError (s : State ε) : Option (Exc ε) → State ε
  | none | some .cancelled | some .ours => s
  | some (.exception e) =>
    { s with
      errors := s.errors ++ [e]
      requests := if s.aborting then s.requests else s.requests + 1 }
  -- the first one is kept
  | some e =>
    { s with
      baseError := some (s.baseError.getD e)
      requests := if s.aborting then s.requests else s.requests + 1 }

def onTaskDone (s : State ε) (c : Nat) (e : Option (Exc ε)) : State ε :=
  let s₁ := { s with tasks := s.tasks.erase c }
  -- the event is set before the error is looked at
  recordError (if s₁.tasks = ∅ then setDone s₁ else s₁) e

/-- Child `c` finishes.  Its done callback is there once it has been registered. -/
def finishChild (s : State ε) (c : Nat) (e : Option (Exc ε)) : State ε :=
  let s₁ := setPos s c (.done e)
  -- an eager child that ends inside its `spawn` has no done callback yet
  if c ∈ s.tasks then onTaskDone s₁ c e else s₁

/-! ## Leaving the group -/

/-- The end of `_exit`, once the join is over. -/
def exitResult (s : State ε) (f : Frame ε) : ExitResult ε :=
  match s.baseError with
  | some e => .raised e
  | none =>
    match f.body with
    | none =>
      if s.errors ≠ [] then
        .exceptionGroup s.errors
      else if f.timeoutExc then
        .raised .timeout
      else if f.cancelExc then
        .raised .cancelled
      else
        .returned
    -- an exception of the body joins the errors of the children
    | some (.exception e) => .exceptionGroup (s.errors ++ [e])
    | some _ => if s.errors ≠ [] then .exceptionGroup s.errors else .returned

/-- `__exit__` returns or raises; its `finally` clears the errors. -/
def leave (s : State ε) (r : ExitResult ε) : State ε :=
  { setPos s 0 (.exited r) with errors := [], baseError := none }

/-- The loop head of `_join`.  While `_done` is set, `swait` returns at once: with tasks left the
loop does not give up control any more. -/
def joinLoop (s : State ε) (f : Frame ε) : State ε :=
  if s.tasks = ∅ then
    leave s (exitResult s f)
  else if s.doneSet then
    setPos s 0 .spinning
  else
    setPos s 0 (.inJoin f false)

/-! ## Exceptions -/

/-- An exception arrives in tealet `t`, anywhere but in `_join`.  A child that has not started yet
ends with it; in `user` code it is up to that code; `spawn` is left before the child is registered;
and the loop of `_abort_children` is left for its caller. -/
def interrupt (s : State ε) (t : Nat) (e : Exc ε) : State ε :=
  match s.pos t with
  | .primed => finishChild s t (some e)
  | .inSpawn _ => setPos s t .user
  -- nothing in `_exit` or `_join` catches what arrives during their abort loop
  | .inAbort _ (.join _) => leave s (.raised e)
  | .inAbort _ _ => setPos s t .user
  | _ => s

/-- The tasks that `_abort_children` passes over: the current tealet and those that are done. -/
def skip (s : State ε) (k : After ε) (c : Nat) : Bool :=
  k.self = some c || (s.pos c).isDone

/-- The runner of the loop is inside `task.throw`, with `rest` still to do. -/
def suspend (s : State ε) (k : After ε) (rest : List Nat) : State ε :=
  match k with
  | .cancel t => setPos s t (.inAbort rest k)
  | .join _ => setPos s 0 (.inAbort rest k)
  | .request => { s with drain := some rest }

/-- What follows the loop.  `_request_abort` throws into the parent unless it is leaving already. -/
def afterAbort (s : State ε) : After ε → State ε
  | .cancel t => setPos s t .user
  | .join f => joinLoop s f
  | .request =>
    -- from a callback: the parent is told unless it is leaving already
    let s₁ := { s with drain := none }
    if s.exiting then s₁ else interrupt s₁ 0 .ours

/-- The loop of `_abort_children` over the tasks in `order`, up to its next switch. -/
def abortLoop (s : State ε) (k : After ε) (order : List Nat) : State ε :=
  match order.dropWhile (skip s k) with
  | [] => afterAbort s k
  | c :: rest => interrupt (suspend s k rest) c .ours

/-- `_abort_children`; `order` is the order in which `tuple(self._tasks)` lists the set. -/
def abortChildren (s : State ε) (k : After ε) (order : List Nat) : State ε :=
  abortLoop { s with aborting := true } k order

/-- An exception arrives in tealet `t`: in `_join` it is handled by the loop, elsewhere see
`interrupt`. -/
def deliver (s : State ε) (t : Nat) (e : Exc ε) (order : List Nat) : State ε :=
  match s.pos t with
  | .inJoin f _ =>
    match e with
    -- the group's own exception only says that the abort was requested
    | .ours => joinLoop s f
    | .cancelled => abortChildren s (.join { f with cancelExc := true }) order
    | .timeout => abortChildren s (.join { f with timeoutExc := true }) order
    | e => leave s (.raised e)
  | _ => interrupt s t e

/-! ## Spawning -/

/-- The three checks of `spawn`. -/
def canSpawn (s : State ε) : Prop :=
  s.entered = true ∧ ¬ (s.exiting = true ∧ s.tasks = ∅) ∧ s.aborting = false

instance (s : State ε) : Decidable (canSpawn s) :=
  inferInstanceAs (Decidable (_ ∧ _ ∧ _))

/-- `spawn` up to the registration (a child that is started later) or up to the switch into the
child (an eager one). -/
def spawn (s : State ε) (t : Nat) (eager : Bool) : State ε :=
  let c := s.next
  -- with nobody registered, `_done` is a new event
  let s₁ := { s with doneSet := if s.tasks = ∅ then false else s.doneSet, next := c + 1 }
  if eager then
    setPos (setPos s₁ c .user) t (.inSpawn c)
  else
    { setPos s₁ c .primed with tasks := insert c s.tasks }

/-- The rest of `spawn` after an eager start: `_tasks.add`, then `add_done_callback`.  On a child
that is already done the callback runs at once, or is queued when an asyncio loop is running. -/
def register (s : State ε) (c : Nat) (hosted : Bool) : State ε :=
  let s₁ := { s with tasks := insert c s.tasks }
  match s.pos c with
  | .done e =>
    if hosted then
      { s₁ with deferred := insert c s.deferred }
    else
      onTaskDone s₁ c e
  | _ => s₁

/-! ## Runs -/

/-- The exceptions that others throw into the tealets of the group. -/
inductive Thrown
  | cancelled
  | timeout
  deriving DecidableEq, Repr

def Thrown.exc : Thrown → Exc ε
  | .cancelled => .cancelled
  | .timeout => .timeout

/-- What can happen next.  `order` is the iteration order of `_tasks`, needed where the action runs
`_abort_children`. -/
inductive Act (ε : Type*)
  | enter
  | spawn (t : Nat) (eager : Bool)
  | begin (c : Nat)
  | resume (t : Nat) (hosted : Bool)
  | callback (c : Nat)
  | finish (c : Nat) (e : Option (Exc ε))
  | exit (body : Option (Exc ε)) (order : List Nat)
  | throw (t : Nat) (e : Thrown) (order : List Nat)
  | cancel (t : Nat) (order : List Nat)
  | request (order : List Nat)
  | drainTurn
  deriving DecidableEq, Repr

/-- `order` lists the set `_tasks`. -/
def Lists (s : State ε) (order : List Nat) : Prop :=
  order.Nodup ∧ order.toFinset = s.tasks

instance (s : State ε) (order : List Nat) : Decidable (Lists s order) :=
  inferInstanceAs (Decidable (_ ∧ _))

/-- `resume t` is a turn of a tealet that is suspended in the group's code; `begin c` is the first
turn of a child; in `user` a tealet may do anything at any time. -/
def step (s : State ε) : Act ε → Option (State ε)
  | .enter => if s.entered then some s else some { s with entered := true }
  | .spawn t eager =>
    match s.pos t with
    | .user => if canSpawn s then some (spawn s t eager) else some s
    | _ => none
  | .begin c =>
    match s.pos c with
    | .primed => some (setPos s c .user)
    | _ => none
  | .resume t hosted =>
    match s.pos t with
    | .inSpawn c => some (register (setPos s t .user) c hosted)
    | .inAbort rest k => some (abortLoop s k rest)
    | .inJoin f true => some (joinLoop s f)
    | _ => none
  | .callback c =>
    match s.pos c with
    | .done e =>
      if c ∈ s.deferred then
        some (onTaskDone { s with deferred := s.deferred.erase c } c e)
      else
        none
    | _ => none
  | .finish c e =>
    match s.pos c with
    | .user => if c = 0 then none else some (finishChild s c e)
    | _ => none
  | .exit body order =>
    match s.pos 0 with
    | .user =>
      if s.entered ∧ ¬ s.exiting ∧ Lists s order then
        let s₁ := { s with exiting := true }
        let f := { body := body, timeoutExc := false, cancelExc := false }
        if body.isSome ∧ ¬ s.aborting then
          some (abortChildren s₁ (.join f) order)
        else
          some (joinLoop s₁ f)
      else
        none
    | _ => none
  | .throw t e order => if Lists s order then some (deliver s t e.exc order) else none
  | .cancel t order =>
    match s.pos t with
    | .user => if Lists s order then some (abortChildren s (.cancel t) order) else none
    | _ => none
  | .request order =>
    if 0 < s.requests ∧ s.drain = none ∧ Lists s order then
      some (abortChildren { s with requests := s.requests - 1 } .request order)
    else
      none
  | .drainTurn =>
    match s.drain with
    | some rest => some (abortLoop s .request rest)
    | none => none

/-! ## The moves -/

/-- The moves of the group, one constructor for each way in which a step can end. -/
inductive Move (s : State ε) : Act ε → State ε → Prop
  | enter : Move s .enter { s with entered := true }
  | spawn (t : Nat) (eager : Bool) (ht : s.pos t = .user) (hc : canSpawn s) :
      Move s (.spawn t eager) (spawn s t eager)
  | refused (t : Nat) (eager : Bool) (ht : s.pos t = .user) (hc : ¬ canSpawn s) :
      Move s (.spawn t eager) s
  | begin (c : Nat) (hc : s.pos c = .primed) :
      Move s (.begin c) (setPos s c .user)
  | register (t c : Nat) (hosted : Bool) (ht : s.pos t = .inSpawn c) :
      Move s (.resume t hosted) (register (setPos s t .user) c hosted)
  | abortTurn (t : Nat) (hosted : Bool) (rest : List Nat) (k : After ε)
      (ht : s.pos t = .inAbort rest k) :
      Move s (.resume t hosted) (abortLoop s k rest)
  | joinTurn (t : Nat) (hosted : Bool) (f : Frame ε) (ht : s.pos t = .inJoin f true) :
      Move s (.resume t hosted) (joinLoop s f)
  | callback (c : Nat) (e : Option (Exc ε)) (hc : s.pos c = .done e) (hd : c ∈ s.deferred) :
      Move s (.callback c) (onTaskDone { s with deferred := s.deferred.erase c } c e)
  | finish (c : Nat) (e : Option (Exc ε)) (hc : s.pos c = .user) (h0 : c ≠ 0) :
      Move s (.finish c e) (finishChild s c e)
  | exitAbort (body : Option (Exc ε)) (order : List Nat) (h0 : s.pos 0 = .user)
      (hl : Lists s order) (hb : body.isSome ∧ ¬ s.aborting) :
      Move s (.exit body order)
        (abortChildren { s with exiting := true }
          (.join { body := body, timeoutExc := false, cancelExc := false }) order)
  | exitJoin (body : Option (Exc ε)) (order : List Nat) (h0 : s.pos 0 = .user)
      (hl : Lists s order) (hb : ¬ (body.isSome ∧ ¬ s.aborting)) :
      Move s (.exit body order)
        (joinLoop { s with exiting := true }
          { body := body, timeoutExc := false, cancelExc := false })
  | throw (t : Nat) (e : Thrown) (order : List Nat) (hl : Lists s order) :
      Move s (.throw t e order) (deliver s t e.exc order)
  | cancel (t : Nat) (order : List Nat) (ht : s.pos t = .user) (hl : Lists s order) :
      Move s (.cancel t order) (abortChildren s (.cancel t) order)
  | request (order : List Nat) (hr : 0 < s.requests) (hd : s.drain = none) (hl : Lists s order) :
      Move s (.request order)
        (abortChildren { s with requests := s.requests - 1 } .request order)
  | drainTurn (rest : List Nat) (hd : s.drain = some rest) :
      Move s .drainTurn (abortLoop s .request rest)

theorem Move.of_step {s s' : State ε} {a : Act ε} (h : step s a = some s') : Move s a s' := by
  cases a with
  | enter =>
    cases hentered : s.entered with
    | true =>
      -- a second `__enter__` finds the flag set
      have hsame : { s with entered := true } = s := by rw [← hentered]
      have hs : s = s' := by simpa [step, hentered] using h
      exact hs ▸ hsame ▸ Move.enter
    | false =>
      have hs : { s with entered := true } = s' := by simpa [step, hentered] using h
      exact hs ▸ Move.enter
  | spawn t eager =>
    cases hp : s.pos t with
    | user =>
      simp only [step, hp] at h
      split at h
      · rename_i hc
        cases h
        exact Move.spawn t eager hp hc
      · rename_i hc
        cases h
        exact Move.refused t eager hp hc
    | _ => simp [step, hp] at h
  | begin c =>
    cases hp : s.pos c with
    | primed =>
      simp only [step, hp] at h
      cases h
      exact Move.begin c hp
    | _ => simp [step, hp] at h
  | resume t hosted =>
    cases hp : s.pos t with
    | inSpawn c =>
      simp only [step, hp] at h
      cases h
      exact Move.register t c hosted hp
    | inAbort rest k =>
      simp only [step, hp] at h
      cases h
      exact Move.abortTurn t hosted rest k hp
    | inJoin f w =>
      cases w with
      | true =>
        simp only [step, hp] at h
        cases h
        exact Move.joinTurn t hosted f hp
      | false => simp [step, hp] at h
    | _ => simp [step, hp] at h
  | callback c =>
    cases hp : s.pos c with
    | done e =>
      simp only [step, hp] at h
      split at h
      · rename_i hd
        cases h
        exact Move.callback c e hp hd
      · cases h
    | _ => simp [step, hp] at h
  | finish c e =>
    cases hp : s.pos c with
    | user =>
      simp only [step, hp] at h
      split at h
      · cases h
      · rename_i h0
        cases h
        exact Move.finish c e hp h0
    | _ => simp [step, hp] at h
  | exit body order =>
    cases hp : s.pos 0 with
    | user =>
      simp only [step, hp] at h
      split at h
      · rename_i hl
        split at h
        · rename_i hb
          cases h
          exact Move.exitAbort body order hp hl.2.2 hb
        · rename_i hb
          cases h
          exact Move.exitJoin body order hp hl.2.2 hb
      · cases h
    | _ => simp [step, hp] at h
  | throw t e order =>
    simp only [step] at h
    split at h
    · rename_i hl
      cases h
      exact Move.throw t e order hl
    · cases h
  | cancel t order =>
    cases hp : s.pos t with
    | user =>
      simp only [step, hp] at h
      split at h
      · rename_i hl
        cases h
        exact Move.cancel t order hp hl
      · cases h
    | _ => simp [step, hp] at h
  | request order =>
    simp only [step] at h
    split at h
    · rename_i hl
      cases h
      exact Move.request order hl.1 hl.2.1 hl.2.2
    · cases h
  | drainTurn =>
    cases hd : s.drain with
    | some rest =>
      simp only [step, hd] at h
      cases h
      exact Move.drainTurn rest hd
    | none => simp [step, hd] at h

end Pytealet.TaskGroups
