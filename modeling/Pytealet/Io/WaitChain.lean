import Pytealet.Lib.Tally
import Pytealet.Lib.Transition

/-!
# WaitChain — `IOWaitChain`, its completion side and its waiting side

A chain runs one proactor operation after the other.  The callback of a leg runs the leg's `advance`
hook, which starts the next leg with `follow`, or stores the result with `finish`; an error of a leg
is stored after its `on_cleanup`.  `wait` parks until something is stored; when it is interrupted it
closes the chain and cancels the last leg.

Callbacks run on worker threads, or inside the `submit` or `cancel_nowait` that completes the
operation, and all of them meet under one re-entrant lock, which `follow` holds while it submits.  A
task is a callback in progress; a step is what it does between two points where other code can come
in.

The intermediate resources are numbered.  A hook holds those its leg has been given and those the
leg has produced; it hands them on in its calls, and what it still holds when it ends it has to
dispose of itself.
-/

namespace Pytealet.Io.WaitChain

open Lib Lib.Transition

inductive Phase
  /-- made by `new_leg` -/
  | created
  /-- inside the proactor call that submits it -/
  | submitting
  | inFlight
  | completed
  /-- the submit has raised -/
  | failed
deriving DecidableEq, Repr

/-- The proactor has the operation, and may complete it. -/
def Phase.armed : Phase → Bool
  | .submitting | .inFlight => true
  | _ => false

/-- The submit returns. -/
def Phase.submitted : Phase → Phase
  | .submitting => .inFlight
  | p => p

structure Leg where
  phase : Phase
  /-- what its `on_cleanup` would drop -/
  owned : List Nat
  /-- `_handle` is set -/
  handle : Bool := false
  /-- `cancel_nowait` has been called for it -/
  cancelled : Bool := false
deriving DecidableEq, Repr

inductive Frame
  /-- the `advance` hook runs -/
  | hook
  /-- `follow`, when `new_leg` has raised -/
  | refused (give : List Nat)
  /-- `follow` is going to store `ECANCELED` -/
  | settling
  /-- `follow` has made its leg and is going to take the lock -/
  | created (leg : Nat)
  /-- `submit(leg)` runs, under the lock -/
  | submitting (leg : Nat)
  /-- `follow` has found the chain closed after its submit -/
  | cancelling (leg : Nat)
  /-- the submit has raised -/
  | dropping (leg : Nat)
  /-- `_fail` -/
  | failing (leg : Nat)
  /-- `_complete_error` of an exception -/
  | erring
deriving DecidableEq, Repr

/-- What `follow` has been given and has not handed on. -/
def Frame.give : Frame → List Nat
  | .refused give => give
  | _ => []

structure Task where
  thread : Nat
  frame : Frame
  /-- what the hook still holds -/
  hand : List Nat
deriving DecidableEq, Repr

def Task.holds (t : Task) : List Nat :=
  t.hand ++ t.frame.give

inductive Completion
  | ok (value : List Nat)
  | error
deriving DecidableEq, Repr

def Completion.value : Completion → List Nat
  | .ok value => value
  | .error => []

/-- Where the waiting side is. -/
inductive Wait
  | idle
  | parked
  /-- an exception has been thrown into `swait` -/
  | thrown
  /-- in `_cancel_leg`, before the handle is taken -/
  | taking (leg : Option Nat)
  | cancelling (leg : Nat)
  /-- at the `_release_legs` of an interrupted `wait` -/
  | leaving
deriving DecidableEq, Repr

structure State where
  closed : Bool := false
  completion : Option Completion := none
  /-- how often a completion has been stored -/
  stored : Nat := 0
  /-- every leg ever made -/
  legs : List Leg := []
  /-- `_legs` -/
  tracked : List Nat := []
  tasks : List Task := []
  waiter : Wait := .idle
  /-- the owning thread has bound the first leg -/
  bound : Bool := false
  /-- a `wait` has been left by an exception -/
  interrupted : Bool := false
  /-- resources produced so far -/
  tokens : Nat := 0
  /-- dropped by an `on_cleanup` -/
  cleaned : List Nat := []
  /-- dropped by a hook itself -/
  disposed : List Nat := []
deriving DecidableEq, Repr

namespace State

def fresh (s : State) (n : Nat) : List Nat :=
  List.range' s.tokens n

/-- The thread may take the lock. -/
def lockFree (s : State) (thread : Nat) : Bool :=
  s.tasks.all fun t =>
    match t.frame with
    | .submitting _ => t.thread = thread
    | _ => true

/-- No task is inside a submit. -/
def unlocked (s : State) : Bool :=
  s.tasks.all fun t =>
    match t.frame with
    | .submitting _ => false
    | _ => true

/-- The task at `i`, if it is the innermost of its thread. -/
def top (s : State) (i : Nat) : Option Task :=
  match s.tasks[i]? with
  | some t => if (s.tasks.drop (i + 1)).any (·.thread = t.thread) then none else some t
  | none => none

/-- A callback may start on a thread that does nothing, or is inside a call of the proactor. -/
def callable (s : State) (thread : Nat) : Bool :=
  match (s.tasks.filter (·.thread = thread)).getLast? with
  | none => true
  | some t =>
    match t.frame with
    | .submitting _ | .cancelling _ => true
    | _ => false

def setTask (s : State) (i : Nat) (t : Task) : State :=
  { s with tasks := s.tasks.set i t }

def setLeg (s : State) (l : Nat) (leg : Leg) : State :=
  { s with legs := s.legs.set l leg }

/-- `_complete`. -/
def store (s : State) (c : Completion) : State :=
  match s.completion with
  | none => { s with completion := some c, stored := s.stored + 1 }
  | some _ => s

/-- `_release_legs`. -/
def release (s : State) : State :=
  { s with
    legs := s.legs.mapIdx fun l leg => if l ∈ s.tracked then { leg with handle := false } else leg
    tracked := [] }

/-- `on_cleanup` of a leg. -/
def cleanup (s : State) (l : Nat) (leg : Leg) : State :=
  { s.setLeg l { leg with owned := [] } with cleaned := s.cleaned ++ leg.owned }

/-- `new_leg` in `follow`, by the task at `i`. -/
def follow (s : State) (i : Nat) (t : Task) (n : Nat) : State :=
  if s.closed || s.completion.isSome then
    s.setTask i { t with frame := .refused (t.hand.take n), hand := t.hand.drop n }
  else
    { s.setTask i { t with frame := .created s.legs.length, hand := t.hand.drop n } with
      legs := s.legs ++ [{ phase := .created, owned := t.hand.take n }]
      tracked := s.tracked ++ [s.legs.length] }

/-- `finish`, with the first `n` resources of the hand in the value. -/
def finish (s : State) (i : Nat) (t : Task) (n : Nat) : State :=
  match s.completion with
  | none => (s.store (.ok (t.hand.take n))).setTask i { t with hand := t.hand.drop n }
  | some _ => s

end State

inductive Action
  /-- the owning thread makes the first leg, with `n` resources, and submits it -/
  | begin (n : Nat)
  | bind
  /-- the proactor completes a leg, which has produced `n` resources -/
  | succeed (leg thread n : Nat)
  | fail (leg thread : Nat)
  /-- the hook of the task at `i` calls `follow`, for `n` of its resources -/
  | follow (i n : Nat)
  | check (i : Nat)
  | settle (i : Nat)
  | submit (i : Nat)
  | submitted (i : Nat)
  | submitRaises (i : Nat)
  | cancel (i : Nat)
  | drop (i : Nat)
  | finish (i n : Nat)
  /-- the hook returns -/
  | back (i : Nat)
  | raise (i : Nat)
  | cleanup (i : Nat)
  | err (i : Nat)
  | wait
  | wake
  | interrupt
  | close
  | take
  | cancelTail
  | leave
deriving DecidableEq, Repr

/-- The task at `i` is at `f` and innermost; `k` is what it does. -/
def State.at (s : State) (i : Nat) (k : Task → Option State) : Option State :=
  match s.top i with
  | some t => k t
  | none => none

def step (s : State) : Action → Option State
  | .begin n =>
    if s.legs = [] then
      some { s with legs := [{ phase := .submitting, owned := s.fresh n }], tracked := [0], tokens := s.tokens + n }
    else none
  | .bind =>
    match s.legs[0]? with
    | some leg =>
      if s.bound then none
      else some { s.setLeg 0 { leg with phase := leg.phase.submitted, handle := true } with bound := true }
    | none => none
  | .succeed l thread n =>
    match s.legs[l]? with
    | some leg =>
      if leg.phase.armed && s.callable thread then
        some
          { s.setLeg l { leg with phase := .completed, owned := [] } with
            tasks := s.tasks ++ [⟨thread, .hook, leg.owned ++ s.fresh n⟩]
            tokens := s.tokens + n }
      else none
    | none => none
  | .fail l thread =>
    match s.legs[l]? with
    | some leg =>
      if leg.phase.armed && s.callable thread then
        some { s.setLeg l { leg with phase := .completed } with tasks := s.tasks ++
          [⟨thread, .failing l, []⟩] }
      else none
    | none => none
  | .follow i n => s.at i fun t =>
    match t.frame with
    | .hook => if s.lockFree t.thread then some (s.follow i t n) else none
    | _ => none
  | .check i => s.at i fun t =>
    match t.frame with
    | .refused give => some
        { s.setTask i { t with frame := .settling } with
          cleaned := if s.completion.isNone then s.cleaned ++ give else s.cleaned }
    | _ => none
  | .settle i => s.at i fun t =>
    match t.frame with
    | .settling => if s.lockFree t.thread then
        some ((s.store .error).setTask i { t with frame := .hook }) else none
    | _ => none
  | .submit i => s.at i fun t =>
    match t.frame with
    | .created l =>
      match s.legs[l]? with
      | some leg =>
        if leg.phase = .created && s.lockFree t.thread then
          some ((s.setLeg l { leg with phase := .submitting }).setTask i { t with frame := .submitting l })
        else none
      | none => none
    | _ => none
  | .submitted i => s.at i fun t =>
    match t.frame with
    | .submitting l =>
      match s.legs[l]? with
      | some leg =>
        if s.closed then
          some ((s.setLeg l { leg with phase := leg.phase.submitted }).setTask i
            { t with frame := .cancelling l })
        else
          some ((s.setLeg l { leg with phase := leg.phase.submitted, handle := true }).setTask i
            { t with frame := .hook })
      | none => none
    | _ => none
  | .submitRaises i => s.at i fun t =>
    match t.frame with
    | .submitting l =>
      match s.legs[l]? with
      | some leg =>
        if leg.phase = .submitting then
          some ((s.setLeg l { leg with phase := .failed }).setTask i { t with frame := .dropping l })
        else none
      | none => none
    | _ => none
  | .cancel i => s.at i fun t =>
    match t.frame with
    | .cancelling l =>
      match s.legs[l]? with
      | some leg => some ((s.setLeg l { leg with cancelled := true }).setTask i { t with frame := .hook })
      | none => none
    | _ => none
  | .drop i => s.at i fun t =>
    match t.frame with
    | .dropping l =>
      match s.legs[l]? with
      | some leg => some ((s.cleanup l leg).setTask i { t with frame := .hook })
      | none => none
    | _ => none
  | .finish i n => s.at i fun t =>
    match t.frame with
    | .hook => if s.lockFree t.thread then some (s.finish i t n) else none
    | _ => none
  | .back i => s.at i fun t =>
    match t.frame with
    | .hook => some { s with tasks := s.tasks.eraseIdx i, disposed := s.disposed ++ t.hand }
    | _ => none
  | .raise i => s.at i fun t =>
    match t.frame with
    | .hook => some { s.setTask i ⟨t.thread, .erring, []⟩ with disposed := s.disposed ++ t.hand }
    | _ => none
  | .cleanup i => s.at i fun t =>
    match t.frame with
    | .failing l =>
      match s.legs[l]? with
      | some leg => some ((s.cleanup l leg).setTask i { t with frame := .erring })
      | none => none
    | _ => none
  | .err i => s.at i fun t =>
    match t.frame with
    | .erring =>
      if s.lockFree t.thread then some { s.store .error with tasks := s.tasks.eraseIdx i } else none
    | _ => none
  | .wait =>
    if s.bound && s.waiter = .idle then
      if s.completion.isNone then some { s with waiter := .parked }
      else if s.unlocked then some s.release
      else none
    else none
  | .wake =>
    if s.waiter = .parked && s.completion.isSome && s.unlocked then
      some { s.release with waiter := .idle } else none
  | .interrupt => if s.waiter = .parked then some { s with waiter := .thrown } else none
  | .close =>
    if s.waiter = .thrown && s.unlocked then
      match s.completion with
      | none => some { s with closed := true, waiter := .taking s.tracked.getLast? }
      | some _ => some { s with waiter := .taking none }
    else none
  | .take =>
    match s.waiter with
    | .taking none => some { s with waiter := .leaving }
    | .taking (some l) =>
      match s.legs[l]? with
      | some leg =>
        if s.unlocked then
          some { s.setLeg l { leg with handle := false } with
            waiter := if leg.handle then .cancelling l else .leaving }
        else none
      | none => none
    | _ => none
  | .cancelTail =>
    match s.waiter with
    | .cancelling l =>
      match s.legs[l]? with
      | some leg => some { s.setLeg l { leg with cancelled := true } with waiter := .leaving }
      | none => none
    | _ => none
  | .leave =>
    if s.waiter = .leaving && s.unlocked then
      some { s.release with waiter := .idle, interrupted := true } else none

def init : State := {}

end Pytealet.Io.WaitChain
