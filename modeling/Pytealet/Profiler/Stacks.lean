import Mathlib.Logic.Function.Basic
import Pytealet.Lib.Transition

/-!
# Stacks — the C profiler

The profiler keeps a stack of contexts, with entries for their keys, for each tealet that it has
seen.  Every thread has a slot for its current stack; `by_tealet` finds the stack of a tealet that
is switched out.  The trace callback of a switch binds the current stack to the origin, pauses it,
and makes the stack of the target current; when the origin has exited its stack is flushed and, with
`fold_on_exit`, merged into its family and freed.  While the profiler is off it sees no events, and
the slots and the map stay as they are.

A pointer to a stack is a number that is not used again, so that a pointer to a freed stack can be
told from any other.  What is done through such a pointer has no effect here.  The owner of a
context is the tealet that has entered the frame, and that of a stack the tealet for which it was
made; the code has neither.
-/

namespace Pytealet.Profiler

open Lib Lib.Transition

/-- A tealet belongs to a thread. -/
structure Tealet where
  thread : Nat
  id : Nat
  deriving DecidableEq, Repr

structure Context (κ : Type*) where
  t0 : Int
  spent : Int
  subt : Int
  key : κ
  owner : Tealet
  deriving DecidableEq, Repr

structure Entry where
  tt : Int := 0
  it : Int := 0
  callcount : Int := 0
  recursivecallcount : Int := 0
  recursionLevel : Int := 0
  deriving DecidableEq, Repr

structure Stack (κ φ : Type*) where
  id : Nat
  ctx : List (Context κ) := []
  entries : κ → Option Entry := fun _ => none
  family : Option φ := none
  owner : Tealet

/-- The accumulator of a family. -/
structure Folded (κ : Type*) where
  entries : κ → Option Entry := fun _ => none
  nstacks : Nat := 0

structure State (κ φ : Type*) where
  enabled : Bool := false
  foldOnExit : Bool
  sliceGil : Bool := false
  stackList : List (Stack κ φ) := []
  byTealet : List (Tealet × Nat) := []
  /-- `tls_current` -/
  slots : Nat → Option Nat := fun _ => none
  lastActive : Option Nat := none
  folded : Option φ → Folded κ := fun _ => {}
  nextId : Nat := 0
  /-- the tealet that runs in each thread -/
  running : Nat → Nat := fun _ => 0
  dead : List Tealet := []

variable {κ φ : Type*}

/-! ## Contexts and entries -/

def Context.pause (now : Int) (c : Context κ) : Context κ :=
  { c with spent := c.spent + (now - c.t0), t0 := now }

def Context.resume (now : Int) (c : Context κ) : Context κ :=
  { c with t0 := now }

namespace Stack

/-- `pause_top` -/
def pause (now : Int) (st : Stack κ φ) : Stack κ φ :=
  { st with ctx := st.ctx.map (Context.pause now) }

/-- `resume_top` -/
def resume (now : Int) (st : Stack κ φ) : Stack κ φ :=
  { st with ctx := st.ctx.map (Context.resume now) }

end Stack

/-- A call ends. -/
def Entry.close (e : Entry) (tt it : Int) : Entry :=
  let level := e.recursionLevel - 1
  { tt := if level = 0 then e.tt + tt else e.tt
    it := e.it + it
    callcount := e.callcount + 1
    recursivecallcount := if level = 0 then e.recursivecallcount else e.recursivecallcount + 1
    recursionLevel := level }

def addSubt (tt : Int) : List (Context κ) → List (Context κ)
  | [] => []
  | c :: rest => { c with subt := c.subt + tt } :: rest

section Keys

variable [DecidableEq κ] [DecidableEq φ]

namespace Stack

/-- `enter_call`, for the stack: the family is that of the first key that has one. -/
def push (family : κ → Option φ) (now : Int) (owner : Tealet) (key : κ) (st : Stack κ φ) : Stack κ φ :=
  let e := (st.entries key).getD {}
  { st with
    family := st.family.or (family key)
    entries := Function.update st.entries key (some { e with recursionLevel := e.recursionLevel + 1 })
    ctx := { t0 := now, spent := 0, subt := 0, key, owner } :: st.ctx }

/-- The innermost context ends, in favour of the entry of `key`. -/
def pop (now : Int) (key : κ) (st : Stack κ φ) : Stack κ φ :=
  match st.ctx with
  | [] => st
  | c :: rest =>
    let tt := c.spent + (now - c.t0)
    let it := tt - c.subt
    { st with
      ctx := addSubt tt rest
      entries :=
        match st.entries key with
        | none => st.entries
        | some e => Function.update st.entries key (some (e.close tt it)) }

def popAll (now : Int) : Nat → Stack κ φ → Stack κ φ
  | 0, st => st
  | n + 1, st =>
    match st.ctx with
    | [] => st
    | c :: _ => popAll now n (st.pop now c.key)

/-- `stack_flush` -/
def flush (now : Int) (st : Stack κ φ) : Stack κ φ :=
  st.popAll now st.ctx.length

end Stack

/-- `entry_merge`, into a new entry where there is none. -/
def Entry.merge (dst : Option Entry) (src : Entry) : Entry :=
  let e := dst.getD {}
  { e with
    tt := e.tt + src.tt
    it := e.it + src.it
    callcount := e.callcount + src.callcount
    recursivecallcount := e.recursivecallcount + src.recursivecallcount }

/-- `stack_merge_into_folded` -/
def Folded.add (f : Folded κ) (st : Stack κ φ) : Folded κ where
  entries := fun key =>
    match st.entries key with
    | none => f.entries key
    | some src => some (Entry.merge (f.entries key) src)
  nstacks := f.nstacks + 1

/-! ## Events -/

namespace State

def onStack (s : State κ φ) (i : Nat) (f : Stack κ φ → Stack κ φ) : State κ φ :=
  { s with stackList := s.stackList.map fun st => if st.id = i then f st else st }

def gilHandoff (s : State κ φ) (now : Int) (i : Nat) : State κ φ :=
  if s.sliceGil = false ∨ s.lastActive = some i then s
  else
    let s₁ :=
      match s.lastActive with
      | some prev => s.onStack prev (Stack.pause now)
      | none => s
    { s₁.onStack i (Stack.resume now) with lastActive := some i }

/-- `stack_new` -/
def newStack (s : State κ φ) (owner : Tealet) : State κ φ :=
  { s with stackList := { id := s.nextId, owner } :: s.stackList, nextId := s.nextId + 1 }

def setSlot (s : State κ φ) (t : Nat) (i : Option Nat) : State κ φ :=
  { s with slots := Function.update s.slots t i }

def current (s : State κ φ) (t : Nat) : Tealet :=
  ⟨t, s.running t⟩

/-- `profiler_ensure_current`: the state and the stack. -/
def ensureCurrent (s : State κ φ) (t : Nat) : State κ φ × Nat :=
  match s.slots t with
  | some i => (s, i)
  | none => ((s.newStack (s.current t)).setSlot t (some s.nextId), s.nextId)

def enterCall (family : κ → Option φ) (s : State κ φ) (t : Nat) (now : Int) (key : κ) : State κ φ :=
  if s.enabled then
    let r := s.ensureCurrent t
    (r.1.gilHandoff now r.2).onStack r.2 (Stack.push family now (s.current t) key)
  else s

/-- The stack behind a pointer. -/
def stack? (s : State κ φ) (i : Nat) : Option (Stack κ φ) :=
  s.stackList.find? fun st => st.id = i

def leaveCall (s : State κ φ) (t : Nat) (now : Int) (key : κ) : State κ φ :=
  if s.enabled then
    match s.slots t with
    | none => s
    | some i =>
      match s.stack? i with
      | none => s
      | some st =>
        if st.ctx.isEmpty then s
        else (s.gilHandoff now i).onStack i (Stack.pop now key)
  else s

def bindTealet (s : State κ φ) (a : Tealet) (i : Nat) : State κ φ :=
  { s with byTealet := (a, i) :: s.byTealet.filter fun p => p.1 ≠ a }

def unbindTealet (s : State κ φ) (a : Tealet) : State κ φ :=
  { s with byTealet := s.byTealet.filter fun p => p.1 ≠ a }

def lookupTealet (s : State κ φ) (a : Tealet) : Option Nat :=
  (s.byTealet.find? fun p => p.1 = a).map Prod.snd

/-- `stack_unlink_and_free` -/
def unlinkAndFree (s : State κ φ) (i : Nat) : State κ φ :=
  { s with
    lastActive := if s.lastActive = some i then none else s.lastActive
    stackList := s.stackList.filter fun st => st.id ≠ i }

/-- `folded_get` and `stack_merge_into_folded` -/
def mergeStack (s : State κ φ) (i : Nat) : State κ φ :=
  match s.stack? i with
  | none => s
  | some st => { s with folded := Function.update s.folded st.family ((s.folded st.family).add st) }

/-- `profiler_fold_stack`, in thread `t`. -/
def foldStack (s : State κ φ) (t : Nat) (i : Nat) : State κ φ :=
  if s.foldOnExit then
    let s₁ := s.mergeStack i
    (if s₁.slots t = some i then s₁.setSlot t none else s₁).unlinkAndFree i
  else s

/-- The part of `profiler_trace_cb` about an origin that has exited. -/
def exitTealet (s : State κ φ) (t : Nat) (now : Int) (origin : Tealet) (i : Nat) : State κ φ :=
  ((s.onStack i (Stack.flush now)).unbindTealet origin).foldStack t i

/-- The state and the stack of a tealet, which may be a new one. -/
def ensureTealet (s : State κ φ) (a : Tealet) : State κ φ × Nat :=
  match s.lookupTealet a with
  | some i => (s, i)
  | none => ((s.newStack a).bindTealet a s.nextId, s.nextId)

/-- The stack of the target becomes current. -/
def switchTo (s : State κ φ) (t : Nat) (now : Int) (target : Tealet) : State κ φ :=
  let r := s.ensureTealet target
  let s₁ := (r.1.setSlot t (some r.2)).onStack r.2 (Stack.resume now)
  if s₁.sliceGil then { s₁ with lastActive := some r.2 } else s₁

/-- `profiler_trace_cb`, after the switch from the tealet that has been running in thread `t`. -/
def traceCb (s : State κ φ) (t : Nat) (now : Int) (target : Tealet) (exits : Bool) : State κ φ :=
  if s.enabled then
    let origin := s.current t
    let r := s.ensureCurrent t
    let s₁ := ((r.1.gilHandoff now r.2).onStack r.2 (Stack.pause now)).bindTealet origin r.2
    let s₂ := if exits then s₁.exitTealet t now origin r.2 else s₁
    s₂.switchTo t now target
  else s

/-- `profiler_enable`, in thread `t`; `slice` says whether the timer is wall time and there is a
GIL. -/
def enable (s : State κ φ) (t : Nat) (slice : Bool) : State κ φ :=
  if s.enabled then s
  else { ({ s with sliceGil := slice, lastActive := none }.ensureCurrent t).1 with enabled := true }

def disable (s : State κ φ) (now : Int) : State κ φ :=
  if s.enabled then
    { s with enabled := false, stackList := s.stackList.map (Stack.flush now), lastActive := none }
  else s

/-- The switch itself. -/
def go (s : State κ φ) (t target : Nat) (exits : Bool) : State κ φ :=
  { s with
    running := Function.update s.running t target
    dead := if exits then s.current t :: s.dead else s.dead }

end State

inductive Action (κ : Type*)
  | enable (t : Nat) (slice : Bool)
  | disable (now : Int)
  | enter (t : Nat) (now : Int) (key : κ)
  | leave (t : Nat) (now : Int) (key : κ)
  /-- thread `t` goes on in another tealet; the tealet that has been running there may have
  exited -/
  | switch (t : Nat) (now : Int) (target : Nat) (exits : Bool)
  | setFold (on : Bool)
  deriving DecidableEq, Repr

def step (family : κ → Option φ) (s : State κ φ) : Action κ → Option (State κ φ)
  | .enable t slice => some (s.enable t slice)
  | .disable now => some (s.disable now)
  | .enter t now key => some (s.enterCall family t now key)
  | .leave t now key => some (s.leaveCall t now key)
  | .switch t now target exits =>
    if target = s.running t ∨ (⟨t, target⟩ : Tealet) ∈ s.dead then none
    else some ((s.traceCb t now ⟨t, target⟩ exits).go t target exits)
  | .setFold on => some { s with foldOnExit := on }

end Keys

def init (foldOnExit : Bool) : State κ φ where
  foldOnExit := foldOnExit

end Pytealet.Profiler
