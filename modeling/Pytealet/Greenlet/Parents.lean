import Mathlib.Logic.Function.Basic
import Pytealet.Lib.Climb
import Pytealet.Lib.Transition

/-!
# Parents — `tealet_greenlet`: switching, starting and finishing

The greenlets of one thread are numbered; number 0 is the main greenlet, which has no parent.  A
greenlet that is not current and not finished waits in a call of `_switch_or_throw`; whether that
call was the first start of another greenlet decides what it does when control comes back.

A throw into a greenlet that has not started raises at once in `_greenlet_main`.  Tealets that are
not greenlets, threads, `__del__` and tracing are left out.
-/

namespace Pytealet.Greenlet

open Lib Lib.Transition Lib.Climb Function

/-! ## The state -/

/-- The arguments of a `switch` or the result of a greenlet; or a `GreenletExit` that it ended
with. -/
inductive Payload (α ε : Type*) where
  | args (a : α)
  | exited (e : ε)
  deriving DecidableEq

/-- What a transfer brings: the payload of a switch, or an exception to raise. -/
inductive Message (α ε : Type*) where
  | payload (v : Payload α ε)
  | raise (e : ε)
  deriving DecidableEq

def Message.isRaise {α ε : Type*} : Message α ε → Bool
  | .payload _ => false
  | .raise _ => true

/-- The state of its tealet: new or stub; run; exit. -/
inductive Life where
  | unstarted
  | active
  | dead
  deriving DecidableEq

/-- Where a greenlet waits in `_switch_or_throw`: in `tealet.run`, or in the block of that call,
with `threw` for `err is not None`; or in the `tealet.switch` or `tealet.throw` of a greenlet that
has started. -/
inductive Wait where
  | first (x : Nat) (threw : Bool)
  | later
  deriving DecidableEq

/-- What a transfer has come to. -/
inductive Event (α ε : Type*) where
  | started (q : Nat) (m : Message α ε)
  /-- The call in which greenlet `p` waited returns the payload, or raises. -/
  | returned (p : Nat) (m : Message α ε)
  deriving DecidableEq

structure State (α ε : Type*) where
  size : Nat
  parent : Nat → Option Nat
  life : Nat → Life
  wait : Nat → Wait
  current : Nat
  /-- The exception that the current greenlet was started with. -/
  entry : Option ε
  /-- History: what the last step has come to. -/
  event : Option (Event α ε)

variable {α ε : Type*}

def init : State α ε where
  size := 1
  parent := fun _ => none
  life := fun g => if g = 0 then .active else .unstarted
  wait := fun _ => .later
  current := 0
  entry := none
  event := none

namespace State

variable (s : State α ε)

/-- `_switch_parent` of greenlet `g`: the nearest that is not dead. -/
def switchParent (g : Nat) : Option Nat :=
  (s.parent g).bind (climb s.parent (fun p => s.life p ≠ .dead) s.size)

/-- `_parent` of greenlet `g`: the nearest that has started and is not dead. -/
def liveParent (g : Nat) : Option Nat :=
  (s.parent g).bind (climb s.parent (fun p => s.life p = .active) s.size)

/-! ## Transfers -/

/-- The current greenlet starts `q`. -/
def start (q : Nat) (m : Message α ε) : State α ε :=
  { s with
    life := update s.life q .active
    wait := update s.wait s.current (.first q m.isRaise)
    current := q
    entry :=
      match m with
      | .payload _ => none
      | .raise e => some e
    event := some (.started q m) }

/-- The parent of `x`, when `x` is dead and the parent has not started. -/
def unstartedParent (x : Nat) : Option Nat :=
  if s.life x = .dead then (s.parent x).filter fun q => s.life q = .unstarted else none

/-- Control comes to `p`, which goes on in the call in which it waits. -/
def resume (p : Nat) (m : Message α ε) : State α ε :=
  let s := { s with current := p, entry := none, event := some (.returned p m) }
  match s.wait p with
  | .first x threw =>
    match s.unstartedParent x, m with
    | some q, .payload _ => s.start q m
    -- an exception is passed on only where the greenlet was started with one
    | some q, .raise _ => if threw then s.start q m else s
    | none, _ => s
  | .later => s

/-- `_switch_or_throw` of a greenlet that is not dead.  `late` is that the lookup of its `run` has
started it. -/
def enter (x : Nat) (m : Message α ε) (late : Bool) : State α ε :=
  match s.life x with
  | .unstarted => s.start x m
  | _ =>
    { s with wait := update s.wait s.current (if late then .first x m.isRaise else .later) }.resume x m

/-- `_switch_or_throw`; `exit` tells `GreenletExit`. -/
def switchOrThrow (exit : ε → Bool) (x : Nat) (m : Message α ε) (late : Bool) : Option (State α ε) :=
  if s.life x = .dead then
    match s.switchParent x, m with
    | some q, .payload _ => some (s.enter q m late)
    | some q, .raise e =>
      -- the call returns the exception
      if exit e then some { s with event := none } else some (s.enter q m late)
    | none, _ => none
  else some (s.enter x m late)

/-! ## A greenlet ends -/

end State

/-- How the body of a greenlet ends. -/
inductive Outcome (α ε : Type*) where
  | value (a : α)
  | raised (e : ε)
  deriving DecidableEq

/-- What `_greenlet_main` makes of it. -/
def Outcome.message (exit : ε → Bool) : Outcome α ε → Message α ε
  | .value a => .payload (.args a)
  | .raised e => if exit e then .payload (.exited e) else .raise e

namespace State

variable (s : State α ε)

/-- The end of `_greenlet_main`.  An exception is queued for `_switch_parent`, and raised by the
tealet that resumes next: that is the one of `_parent`. -/
def finish (exit : ε → Bool) (o : Outcome α ε) : Option (State α ε) :=
  let m := o.message exit
  match s.switchParent s.current, s.liveParent s.current with
  | some _, some p => some ({ s with life := update s.life s.current .dead }.resume p m)
  | _, _ => none

end State

/-! ## Runs -/

inductive Act (α ε : Type*) where
  | new (parent : Nat)
  | setParent (g value : Nat)
  | switch (x : Nat) (a : α) (late : Bool)
  | throw (x : Nat) (e : ε) (late : Bool)
  | finish (o : Outcome α ε)

/-- `parent` is assigned: not to the main greenlet, and not into a cycle. -/
def State.setParent (s : State α ε) (g value : Nat) : Option (State α ε) :=
  if g = 0 then none
  else if climb s.parent (fun p => p = g || (s.parent p).isNone) s.size value = some g then none
  else some { s with parent := update s.parent g (some value), event := none }

variable [DecidableEq ε] [DecidableEq α]

def step (exit : ε → Bool) (s : State α ε) : Act α ε → Option (State α ε)
  | .new parent =>
    if parent < s.size ∧ s.entry = none then
      some { s with size := s.size + 1, parent := update s.parent s.size (some parent), event := none }
    else none
  | .setParent g value => if g < s.size ∧ value < s.size ∧ s.entry = none then s.setParent g value else none
  | .switch x a late =>
    if x < s.size ∧ s.entry = none then s.switchOrThrow exit x (.payload (.args a)) late else none
  | .throw x e late => if x < s.size ∧ s.entry = none then s.switchOrThrow exit x (.raise e) late else none
  | .finish o =>
    if s.current = 0 then none
    else if s.entry.all (o = .raised ·) then s.finish exit o
    else none

end Pytealet.Greenlet
