import Pytealet.Lib.Transition
import Pytealet.Scheduler.Runnable
import Mathlib.Logic.Function.Basic

/-!
# Links — tasks, links and transfers of one scheduler

Every task has a `link`: the runnable link while it is in the runnable queue, or the primitive in
whose waiter list it is.  The link is written by the scheduler (`_make_runnable`, `_find_target`),
by each primitive, by `Task._unlink` on behalf of `run`, `throw` and the exit path, and by the
`except` of a wait.

The state below is one scheduler with its tasks and the primitives they use.  Task `0` is the main
tealet, which drives the batches and runs the callbacks.  Control is with `current`; every action is
something that `current` does, up to the point where it, or another task, has control again.

`Event.set` takes the waiters out of the list at once.  In a live turn it makes them runnable on the
spot; otherwise the wake is queued (`ready`), and until it runs the waiters are in no list although
their link is still the event.  A task that exits sets its own event outside of a live turn, since
`get_current()` is `None` by then, unless a callback drain is in progress.
-/

namespace Pytealet.Scheduler.Links

open Lib Lib.Transition Function

/-! ## Data -/

/-- The primitives on which a task can park.  `taskDone t` is the `Event` of the future `t`. -/
inductive Prim
  | event (e : Nat)
  | taskDone (t : Nat)
  | pulse (p : Nat)
  | channel (c : Nat)
  deriving DecidableEq, Repr

inductive Link
  | runnable
  | prim (p : Prim)
  deriving DecidableEq, Repr

/-- The states of a tealet that the scheduler depends on. -/
inductive TaskState
  | unborn
  | primed
  | alive
  | finished
  deriving DecidableEq, Repr

/-- `cont t` is the primitive inside whose wait call `t` is.  `ready` are the queued wakes, first in
first out: the event and the waiters that its `set` had detached.  `sleeping t` says that the timer
of a `sleep` is armed for `t`; `thrower t` is the task that last threw into `t`.  `fault` records
that an assertion of `_make_runnable`, `_make_runnable_next`, `Event._link` or `_target_run_eager`
has failed. -/
structure State (ρ : Type*) where
  runnable : ρ
  link : Nat → Option Link
  waiters : Prim → List Nat
  isSet : Prim → Bool
  cont : Nat → Option Prim
  status : Nat → TaskState
  next : Nat
  current : Nat
  ready : List (Prim × List Nat)
  sleeping : Nat → Bool
  thrower : Nat → Option Nat
  runner : Option Nat
  drain : Option Nat
  nScheduled : Nat
  startCount : Nat
  targetCount : Option Nat
  fault : Bool

variable {ρ : Type*} (q : RunnableQueue ρ)

def init : State ρ where
  runnable := q.empty
  link := fun _ => none
  waiters := fun _ => []
  isSet := fun _ => false
  cont := fun _ => none
  status := fun t => if t = 0 then .alive else .unborn
  next := 1
  current := 0
  ready := []
  sleeping := fun _ => false
  thrower := fun _ => none
  runner := none
  drain := none
  nScheduled := 0
  startCount := 0
  targetCount := none
  fault := false

/-- An assertion fails. -/
def State.fail (s : State ρ) : State ρ :=
  { s with fault := true }

def State.setLink (s : State ρ) (t : Nat) (l : Option Link) : State ρ :=
  { s with link := update s.link t l }

def State.setWaiters (s : State ρ) (p : Prim) (ts : List Nat) : State ρ :=
  { s with waiters := update s.waiters p ts }

/-! ## Runnable state -/

/-- `_make_runnable` and `_make_runnable_next`, which differ in the position only. -/
def enqueue (s : State ρ) (t : Nat) (position : Option Int) : State ρ :=
  if t ∈ q.tasks s.runnable then
    s.fail
  else
    { s.setLink t (some .runnable) with runnable := q.add s.runnable t position }

def makeRunnable (s : State ρ) (t : Nat) : State ρ :=
  enqueue q s t none

def makeRunnableNext (s : State ρ) (t : Nat) : State ρ :=
  enqueue q s t (some 0)

/-- The loop of a wake. -/
def wake (s : State ρ) (ts : List Nat) : State ρ :=
  ts.foldl (makeRunnable q) s

def parkCurrent (s : State ρ) (resumeNext : Bool) : State ρ :=
  -- the drain tealet goes on next, so that the remaining callbacks run
  if resumeNext = true ∨ s.drain = some s.current then
    makeRunnableNext q s s.current
  else
    makeRunnable q s s.current

/-! ## Unlinking -/

/-- `_unlink` of a primitive.  An `Event` or a `PulseEvent` clears the link only of a task that it
finds in its list; a `Channel` clears it in any case. -/
def primUnlink (s : State ρ) (p : Prim) (t : Nat) : State ρ :=
  match p with
  | .channel _ => (s.setWaiters p ((s.waiters p).erase t)).setLink t none
  | _ =>
    if t ∈ s.waiters p then
      (s.setWaiters p ((s.waiters p).erase t)).setLink t none
    else
      s

/-- `Task._unlink`. -/
def unlink (s : State ρ) (t : Nat) : State ρ :=
  match s.link t with
  | none => s
  | some .runnable => { s.setLink t none with runnable := q.discard s.runnable t }
  | some (.prim p) => primUnlink s p t

/-! ## Transfers -/

/-- `tealet_switch(t)`, and `t` goes on after its own switch.  A finished target raises in the
caller. -/
def switchTo (s : State ρ) (t : Nat) : State ρ :=
  match s.status t with
  | .primed | .alive =>
    -- `t` is out of its wait or sleep, whose timer is cancelled on the way out
    { s with
      current := t
      cont := update s.cont t none
      sleeping := update s.sleeping t false
      status := update s.status t .alive }
  | _ => s

/-- The `except` of the wait call in which `t` was: `swait` unlinks from its event once more, and a
channel aborts the wait. -/
def unwind (s : State ρ) (t : Nat) : Option Prim → State ρ
  | some p => primUnlink s p t
  | none => s

/-- A transfer that raises an exception in `t`. -/
def throwInto (s : State ρ) (t : Nat) : State ρ :=
  match s.status t with
  | .primed | .alive => unwind (switchTo s t) t (s.cont t)
  | _ => s

/-- `steal_to_runner`: the batch has used up its transfers. -/
def StealToRunner (s : State ρ) (explicit : Bool) : Prop :=
  explicit = false ∧ s.runner.isSome ∧ ∃ n ∈ s.targetCount, n ≤ s.nScheduled

instance (s : State ρ) (explicit : Bool) : Decidable (StealToRunner s explicit) :=
  inferInstanceAs (Decidable (_ ∧ _ ∧ _))

/-- `_find_target`; `none` is the `DeadlockError`. -/
def findTarget (s : State ρ) (taskExit explicit : Bool) : Option (Nat × State ρ) :=
  if StealToRunner s explicit then
    -- `_unlink`, and `result.link = None` at the end
    let result := s.runner.getD 0
    some (result, (unlink q s result).setLink result none)
  else
    match q.popNext s.runnable with
    | some (result, rest) =>
      some (result,
        { s.setLink result none with runnable := rest, nScheduled := s.nScheduled + 1 })
    | none =>
      -- `tealet.main()`, whatever it is linked to
      if taskExit then
        some (0, { s.setLink 0 none with nScheduled := s.nScheduled + 1 })
      else
        none

/-- The transfer at the end of `_schedule`.  A `DeadlockError` is raised in the caller, inside its
wait call. -/
def transfer (s : State ρ) (explicit : Bool) : State ρ :=
  match findTarget q s false explicit with
  | some (result, s') => switchTo s' result
  | none =>
    { unwind s s.current (s.cont s.current) with
      cont := update s.cont s.current none
      sleeping := update s.sleeping s.current false }

/-! ## Waiting and waking -/

/-- `swait` of an event that is not set, or of a pulse: `_link`, and the transfer. -/
def waitOn (s : State ρ) (p : Prim) : State ρ :=
  let t := s.current
  -- the two assertions of `_link`
  if s.link t = none ∧ t ∉ s.waiters p then
    let s₁ := (s.setWaiters p (s.waiters p ++ [t])).setLink t (some (.prim p))
    transfer q { s₁ with cont := update s.cont t (some p) } false
  else
    s.fail

/-- `swait` of an event. -/
def eventWait (s : State ρ) (p : Prim) : State ρ :=
  if s.isSet p then s else waitOn q s p

/-- A send or receive that finds no partner; the channel overwrites the link without a check. -/
def channelWait (s : State ρ) (c : Nat) : State ρ :=
  let t := s.current
  let p := Prim.channel c
  let s₁ := (s.setWaiters p (s.waiters p ++ [t])).setLink t (some (.prim p))
  transfer q { s₁ with cont := update s.cont t (some p) } false

/-- `Task.run`: steal the target from where it is and switch to it. -/
def run (s : State ρ) (t : Nat) : State ρ :=
  if t = s.current then
    s
  else
    switchTo (parkCurrent q (unlink q s t) false) t

/-- `Task.throw` into a task other than the current one. -/
def throw (s : State ρ) (t : Nat) : State ρ :=
  if t = s.current then
    s
  else
    let s₁ := parkCurrent q (unlink q s t) true
    throwInto { s₁ with thrower := update s.thrower t (some s.current) } t

/-- A send or receive that finds the waiter `t` at the head of the deque, and runs it at once or
makes it runnable. -/
def channelWake (s : State ρ) (c : Nat) (immediate : Bool) : Option (State ρ) :=
  match s.waiters (.channel c) with
  | [] => none
  | t :: rest =>
    let s₁ := (s.setWaiters (.channel c) rest).setLink t none
    -- `_wake_sync`: by the preference of the channel
    if immediate then some (run q s₁ t) else some (makeRunnable q s₁ t)

/-- `_in_owner_live_turn` for a task or callback that is running. -/
def Live (s : State ρ) : Prop :=
  s.current ≠ 0 ∨ s.drain.isSome

instance (s : State ρ) : Decidable (Live s) :=
  inferInstanceAs (Decidable (_ ∨ _))

/-- `Event.set` of an event with waiters: the list is detached, and the wake runs now or is
queued. -/
def eventSet (s : State ρ) (p : Prim) (live : Bool) : State ρ :=
  let ts := s.waiters p
  let s₁ := { s.setWaiters p [] with isSet := update s.isSet p true }
  -- `call_on_scheduler`
  if live then
    wake q s₁ ts
  else if ts = [] then
    s₁
  else
    { s₁ with ready := s.ready ++ [(p, ts)] }

/-- `PulseEvent.set`. -/
def pulseSet (s : State ρ) (p : Nat) : State ρ :=
  wake q (s.setWaiters (.pulse p) []) (s.waiters (.pulse p))

/-! ## Starting and ending tasks -/

def spawn (s : State ρ) : State ρ :=
  let t := s.next
  makeRunnable q { s with status := update s.status t .primed, next := t + 1 } t

/-- `_target_run_eager` of a new task. -/
def spawnEager (s : State ρ) : State ρ :=
  let t := s.next
  if s.link t = none then
    switchTo
      (parkCurrent q { s with status := update s.status t .primed, next := t + 1 } true) t
  else
    s.fail

/-- How a task ends: it returns, it raises an exception of its own, it does not catch the exception
that was thrown into it, or it raises `SystemExit` or `KeyboardInterrupt`.  In each of these cases
`_run_done_callbacks` may raise, inside `resolve_target`. -/
inductive Exit
  | returned
  | error
  | thrown
  | system
  | callback
  deriving DecidableEq, Repr

/-- The task to which an uncaught exception returns: the one that threw it, if it can be switched
to. -/
def excTarget (s : State ρ) : Exit → Option Nat
  | .thrown =>
    match s.thrower s.current with
    | some u => if s.status u = .alive ∧ u ≠ s.current then some u else none
    | none => none
  | _ => none

/-- `set_result` or `set_exception` at the end of a task, up to the choice of the next one. -/
def finish (s : State ρ) : State ρ :=
  eventSet q { s with status := update s.status s.current .finished }
    (.taskDone s.current) s.drain.isSome

/-- The switch at the end of a task.  A target that cannot be switched to is replaced by main. -/
def exitTo (s : State ρ) (t : Nat) : State ρ :=
  match s.status t with
  | .primed | .alive => switchTo s t
  | _ => switchTo s 0

/-- `resolve_target`. -/
def exit (s : State ρ) (how : Exit) : State ρ :=
  let s₁ := finish q s
  match how, excTarget s how with
  -- the default `resolve_target`: main, with the exception
  | .system, _ => throwInto s₁ 0
  -- `pytealet_apply_resolve_target` reports the error, and goes to main without one
  | .callback, _ => exitTo s₁ 0
  -- back to the task that threw
  | _, some u => exitTo (unlink q s₁ u) u
  | _, none =>
    match findTarget q s₁ true false with
    | some (result, s₂) => exitTo s₂ result
    | none => s₁

/-! ## Runs -/

/-- What can happen next.  Whether a send or receive parks or finds a partner is decided by the
balance of the channel, so both actions are possible here.  `eventSetOutside` is a `set` made
outside of a live turn, as by an asyncio callback or a done callback of an exiting task. -/
inductive Act
  | spawn
  | spawnEager
  | yield
  | yieldTo (t : Nat) (insertCurrentAt : Option Int)
  | run (t : Nat)
  | throw (t : Nat)
  | reschedule (t : Nat) (position : Option Int)
  | eventWait (e : Nat)
  | taskWait (t : Nat)
  | eventSet (e : Nat)
  | eventSetOutside (e : Nat)
  | eventClear (e : Nat)
  | pulseWait (p : Nat)
  | pulseSet (p : Nat)
  | channelWait (c : Nat)
  | channelWake (c : Nat) (immediate : Bool)
  | sleep
  | exit (how : Exit)
  | startBatch
  | runCallback
  | fireTimer (t : Nat)
  | endDrain (limit : Option Nat)
  | endBatch
  deriving DecidableEq, Repr

/-- What `current` does in a live turn. -/
def liveStep (s : State ρ) : Act → Option (State ρ)
  | .spawn => some (spawn q s)
  | .spawnEager => some (spawnEager q s)
  | .yield => some (transfer q (parkCurrent q s false) false)
  | .yieldTo t insertCurrentAt =>
    if t = s.current ∨ t ∉ q.tasks s.runnable then
      -- the caller itself is a no-op, a task that is not runnable a `ValueError`
      some s
    else
      let s₁ := s.setLink s.current (some .runnable)
      some (transfer q
        { s₁ with runnable := q.yieldTo s.runnable t s.current insertCurrentAt } true)
  | .run t => if s.status t = .unborn then none else some (run q s t)
  | .throw t => if s.status t = .unborn then none else some (throw q s t)
  | .reschedule t position =>
    if t ∈ q.tasks s.runnable then
      some { s with runnable := q.reschedule s.runnable t position }
    else
      some s
  | .eventWait e => some (eventWait q s (.event e))
  | .taskWait t => some (eventWait q s (.taskDone t))
  | .eventSet e => some (eventSet q s (.event e) true)
  | .eventClear e => some { s with isSet := update s.isSet (.event e) false }
  | .pulseWait p => some (waitOn q s (.pulse p))
  | .pulseSet p => some (pulseSet q s p)
  | .channelWait c => some (channelWait q s c)
  | .channelWake c immediate => channelWake q s c immediate
  | .sleep =>
    some (transfer q { s with sleeping := update s.sleeping s.current true } false)
  | .exit how => if s.current = 0 then none else some (exit q s how)
  | _ => none

/-- What the main tealet does as the driver: it starts a batch, drains the callbacks and due timers,
and parks behind the tasks that are runnable. -/
def driverStep (s : State ρ) : Act → Option (State ρ)
  | .spawn => if s.drain = none ∧ s.runner = none then some (spawn q s) else none
  | .startBatch =>
    if s.drain = none ∧ s.runner = none then
      some { s with runner := some 0, drain := some 0, startCount := s.nScheduled }
    else
      none
  | .runCallback =>
    match s.ready with
    | [] => none
    | (_, ts) :: rest =>
      -- the waiters that `set` detached, wherever they are by now
      if s.drain = some 0 then some (wake q { s with ready := rest } ts) else none
  | .fireTimer t =>
    if s.drain = some 0 ∧ s.sleeping t then
      some (makeRunnable q { s with sleeping := update s.sleeping t false } t)
    else
      none
  | .endDrain limit =>
    if s.drain = some 0 then
      if q.tasks s.runnable = [] then
        some { s with drain := none, runner := none }
      else
        -- the batch ends after as many transfers as tasks were runnable, or after `limit`
        let n := limit.getD (q.tasks s.runnable).length
        let s₁ := { s with
          drain := none
          targetCount := if 0 < n then some (s.startCount + n) else none }
        some (transfer q (parkCurrent q s₁ false) false)
    else
      none
  | .endBatch =>
    if s.drain = none ∧ s.runner.isSome then
      some { s with runner := none, targetCount := none }
    else
      none
  | _ => none

/-- An assertion that has failed ends the run. -/
def step (s : State ρ) (a : Act) : Option (State ρ) :=
  if s.fault then
    none
  else
    match a with
    | .eventSetOutside e => some (eventSet q s (.event e) false)
    | .startBatch | .runCallback | .fireTimer _ | .endDrain _ | .endBatch =>
      if s.current = 0 then driverStep q s a else none
    | .spawn => if Live s then liveStep q s a else driverStep q s a
    | _ => if Live s then liveStep q s a else none

end Pytealet.Scheduler.Links
