import Mathlib.Logic.Function.Basic
import Pytealet.Tealet.Lineage

/-!
# Wrappers — the wrappers of a lineage and the raw tealets behind them

A wrapper has a pointer to a raw tealet of `libtealet`, and the raw tealet has a pointer back.  The
operations of `pytealet.c` write the state, the two pointers and the tracking entry one by one, and
undo them when memory runs out.  `libtealet` decides whether an allocation or a transfer succeeds.

The factory is Python code: while it runs, on the stack of the tealet that called it, any other step
can happen.  `PyTealet_GetOrCreateMain`, which `new` and `stub` call first, is a step of its own.
Allocations run no Python code.  A step that would follow a NULL pointer or one to freed memory is
`none`.
-/

namespace Pytealet.Tealet.Wrappers

open Lib Lib.Transition Function

/-! ## The state -/

/-- What runs on the stack of a raw tealet: nothing yet, the code of the thread, or
`pytealet_main`. -/
inductive Stack where
  | idle
  | thread
  | main (dest : Nat)
  deriving DecidableEq

structure Raw where
  /-- `TEALET_PYOBJECT` -/
  back : Option Nat
  stack : Stack
  deriving DecidableEq

/-- `PyTealetObject` -/
structure Wrapper where
  /-- Its class is `_tealet.tealet` itself. -/
  exact : Bool
  status : Status := .new
  tealet : Option Nat := none
  /-- `tracking_ref` is set. -/
  tracked : Bool := false
  /-- `primed_func` or `primed_cfunc` is set. -/
  primed : Bool := false
  deriving DecidableEq

/-- What a call of the factory is for. -/
inductive Purpose where
  | duplicate (src : Nat)
  /-- With the factory and the version that a failed `set_tealet_factory` puts back. -/
  | replaceMain (old : Nat) (undo : Option (Bool × Nat))
  deriving DecidableEq

/-- A call of the factory, on the stack of a raw tealet. -/
structure Call where
  owner : Nat
  purpose : Purpose
  deriving DecidableEq

structure World where
  wrappers : Nat → Option Wrapper
  raws : Nat → Option Raw
  nextWrapper : Nat
  nextRaw : Nat
  /-- `main_wrapper` -/
  main : Nat
  /-- The raw tealet that runs. -/
  current : Nat
  /-- The factory is not `_tealet.tealet`. -/
  custom : Bool
  /-- `tealet_factory_version` and `main_factory_version`. -/
  version : Nat
  mainVersion : Nat
  /-- `tealet_factory_call_depth` is 1. -/
  call : Option Call
  /-- History: the target of the operation, where it failed. -/
  failed : Option Nat

/-- What the environment decides in one step. -/
structure Env where
  /-- Memory for a wrapper, or for a record of a queued exception. -/
  object : Bool := true
  /-- `tealet_new`, `tealet_duplicate`, `tealet_spawn` -/
  raw : Bool := true
  track : Bool := true
  /-- `tealet_run`, `tealet_switch` -/
  transfer : Bool := true
  deriving DecidableEq

namespace World

def init : World where
  wrappers := fun k => if k = 0 then some { exact := true, status := .run, tealet := some 0 } else none
  raws := fun r => if r = 0 then some { back := some 0, stack := .thread } else none
  nextWrapper := 1
  nextRaw := 1
  main := 0
  current := 0
  custom := false
  version := 0
  mainVersion := 0
  call := none
  failed := none

variable (s : World)

def put (k : Nat) (w : Wrapper) : World :=
  { s with wrappers := update s.wrappers k (some w) }

def putRaw (r : Nat) (raw : Raw) : World :=
  { s with raws := update s.raws r (some raw) }

/-- `tealet_delete` -/
def deleteRaw (r : Nat) : World :=
  { s with raws := update s.raws r none }

/-- A raw tealet at the next address. -/
def newRaw (raw : Raw) : World :=
  { s.putRaw s.nextRaw raw with nextRaw := s.nextRaw + 1 }

def fail (k : Nat) : World :=
  { s with failed := some k }

/-- `PyType_GenericAlloc`, as `pytealet_new_impl` and `pytealet_duplicate_impl` fill it. -/
def newWrapper (exact : Bool) : World :=
  { s.put s.nextWrapper { exact := exact } with nextWrapper := s.nextWrapper + 1 }

/-! ## A stack starts -/

/-- `pytealet_main`, up to the call of the worker. -/
def pytealetMain (r dest : Nat) (track : Bool) : Option World :=
  match s.wrappers dest with
  | some w =>
    if w.status = .stub ∨ w.status = .run ∨ w.status = .primed then
      some ({ s with current := r }.put dest { w with status := .run })
    else
      -- a failure to track is reported, and the worker runs all the same
      some
        (({ s with current := r }.put dest { w with tealet := some r, tracked := track, status := .run }).putRaw r
          { back := some dest, stack := .main dest })
  | none => none

/-- `pytealet_primed_main`; `dest` is the wrapper in the argument of `run`, `none` a payload. -/
def pytealetPrimedMain (r : Nat) (dest : Option Nat) (track : Bool) : Option World :=
  match s.raws r with
  | some { back := some b, .. } =>
    match s.wrappers b, dest with
    | some w, dest =>
      if w.primed then
        (s.put b { w with primed := false }).putRaw r { back := some b, stack := .main b }
          |>.pytealetMain r b track
      else
        match dest with
        | some k => (s.putRaw r { back := some b, stack := .main k }).pytealetMain r k track
        -- the payload is read as an argument of `run`
        | none => none
    | none, _ => none
  | _ => none

/-- Control goes to a raw tealet. -/
def enter (r : Nat) (dest : Option Nat) (track : Bool) : Option World :=
  match s.raws r with
  | some raw => if raw.stack = .idle then s.pytealetPrimedMain r dest track else
      some { s with current := r }
  | none => none

/-! ## The operations -/

/-- `pytealet_stub_impl` -/
def stub (k : Nat) (e : Env) : Option World :=
  match s.wrappers k with
  | some w =>
    if w.status ≠ .new then some (s.fail k)
    else if e.raw = false then some (s.fail k)
    else
      let r := s.nextRaw
      let s₁ :=
        (s.newRaw { back := some k, stack := .idle }).put k
          { w with tealet := some r, status := .stub }
      if e.track then some (s₁.put k { w with tealet := some r, status := .stub, tracked := true })
      else
        some
          ((((s₁.putRaw r { back := none, stack := .idle }).put k { w with tealet := none, status := .new }).deleteRaw
            r).fail k)
  | none => none

/-- `pytealet_set_stub_impl` -/
def setStub (target source : Nat) (e : Env) : Option World :=
  match s.wrappers target, s.wrappers source with
  | some t, some w =>
    if t.status ≠ .new then some (s.fail target)
    else if w.status ≠ .stub then some (s.fail target)
    else if t.tealet.isSome then some (s.fail target)
    else
      match w.tealet.bind s.raws with
      | some raw =>
        if e.raw = false then some (s.fail target)
        else
          let r := s.nextRaw
          let s₁ := (s.newRaw { raw with back := some target }).put target { t with tealet := some r }
          if e.track then
            some
              (s₁.put target
                { t with tealet := some r, tracked := true, status := .stub, primed := w.primed })
          else
            some
              ((((s₁.putRaw r { raw with back := none }).put target
                { t with tealet := none }).deleteRaw r).fail
                target)
      | none => none
  | _, _ => none

/-- `pytealet_duplicate_impl`, after the wrapper `result` is there. -/
def finishDuplicate (src result : Nat) (e : Env) : Option World :=
  match s.wrappers src, s.wrappers result with
  | some w, some t =>
    if w.status = .stub then
      match w.tealet.bind s.raws with
      | some raw =>
        if e.raw = false then some (s.fail src)
        else
          let r := s.nextRaw
          let s₁ := (s.newRaw { raw with back := some result }).put result { t with tealet := some r }
          if e.track then
            some
              (s₁.put result
                { t with tealet := some r, tracked := true, status := w.status, primed := w.primed })
          else
            some
              ((((s₁.putRaw r { raw with back := none }).deleteRaw r).put result
                { t with tealet := none }).fail src)
      | none => none
    else some (s.put result { t with status := w.status, primed := w.primed })
  | _, _ => none

/-- `PyTealetApi_Prime` and `pytealet_prime_primed` -/
def prime (k : Nat) (e : Env) : Option World :=
  match s.wrappers k with
  | some w =>
    if w.status ≠ .new ∧ w.status ≠ .stub then some (s.fail k)
    else if w.status = .stub then some (s.put k { w with primed := true, status := .primed })
    else if e.raw = false then some ((s.put k { w with primed := false }).fail k)
    else
      let r := s.nextRaw
      let s₁ :=
        (s.newRaw { back := some k, stack := .idle }).put k { w with primed := true, tealet := some r }
      -- what was not tracked before is not tracked after a failure
      if (w.tracked || e.track) && e.transfer then
        some (s₁.put k { w with primed := true, tealet := some r, tracked := true, status := .primed })
      else
        some
          ((((s₁.putRaw r { back := none, stack := .idle }).put k
            { w with primed := false, tealet := none }).deleteRaw r).fail k)
  | none => none

/-- `PyTealetApi_Run` and `pytealet_run_dispatch` -/
def run (k : Nat) (e : Env) : Option World :=
  match s.wrappers k with
  | some w =>
    if w.status ≠ .new ∧ w.status ≠ .stub then some (s.fail k)
    else
      let s := s.put k { w with primed := false }
      if w.status = .new then
        if e.raw = false then some (s.fail k)
        else
          let r := s.nextRaw
          if e.transfer = false then some (((s.newRaw { back := none, stack := .idle }).deleteRaw r).fail k)
          else (s.newRaw { back := none, stack := .main k }).pytealetMain r k e.track
      else
        match w.tealet with
        | some r => if e.transfer = false then some (s.fail k) else s.enter r (some k) e.track
        | none => none
  | none => none

/-- `pytealet_switch` -/
def switch (k : Nat) (e : Env) : Option World :=
  match s.wrappers k with
  | some w =>
    if w.status.switchable = false then some (s.fail k)
    else
      match w.tealet with
      | some r => if e.transfer = false then some (s.fail k) else s.enter r none e.track
      | none => none
  | none => none

/-- `PyTealetApi_Throw` -/
def throw (k : Nat) (e : Env) : Option World :=
  match s.wrappers k with
  | some w =>
    if w.status = .exit ∨ e.object = false then some (s.fail k)
    else if w.status.switchable then
      if w.tealet = none then some (s.fail k) else s.switch k e
    else s.run k e
  | none => none

/-- The end of `pytealet_main`.  `returnTo` is what `resolve_target` answers, `fallback` that
`tealet_exit` gives up its target for the main tealet. -/
def exit (returnTo : Option Nat) (fallback : Bool) (e : Env) : Option World :=
  match s.raws s.current with
  | some { stack := .main dest, .. } =>
    if s.call.any (·.owner = s.current) then none
    else
      let accepted := fun k => k ≠ dest && (s.wrappers k).any (·.status.switchable)
      let target := (returnTo.filter accepted).getD s.main
      match s.wrappers dest with
      | some w =>
        let s₁ :=
          (s.put dest { w with status := .exit, tracked := false, tealet := none }).deleteRaw
            s.current
        match (s₁.wrappers target).bind (·.tealet) with
        | some r => s₁.enter (if fallback then 0 else r) none e.track
        | none => none
      | none => none
  | _ => none

/-! ## The factory -/

/-- The end of the replacement in `PyTealet_GetOrCreateMain`. -/
def replaceMain (old replacement : Nat) : Option World :=
  match s.wrappers old, s.wrappers replacement with
  | some w, some t =>
    match w.tealet with
    | some r =>
      match s.raws r with
      | some raw =>
        some
          { ((s.put replacement { t with tealet := some r, status := .run }).putRaw r
              { raw with back := some replacement }).put old { w with tealet := none, status := .exit } with
            main := replacement
            mainVersion := s.version }
      | none => none
    | none => none
  | _, _ => none

/-- A failed `set_tealet_factory` puts the factory back. -/
def restoreFactory (undo : Option (Bool × Nat)) : World :=
  match undo with
  | some (custom, version) => { s with custom := custom, version := version }
  | none => s

/-- `PyTealet_GetOrCreateMain`, where there is a main wrapper. -/
def getOrCreateMain (undo : Option (Bool × Nat)) (e : Env) : Option World :=
  if s.mainVersion = s.version then some s
  else if s.custom then
    if s.call.isSome then some (s.restoreFactory undo)
    else some { s with call := some { owner := s.current, purpose := .replaceMain s.main undo } }
  else if e.object = false then some (s.restoreFactory undo)
  else (s.newWrapper true).replaceMain s.main s.nextWrapper

/-- `module_set_tealet_factory` -/
def setFactory (custom : Bool) (e : Env) : Option World :=
  { s with custom := custom, version := s.version + 1 }.getOrCreateMain (some (s.custom, s.version)) e

/-- `pytealet_new_impl` -/
def new (exact : Bool) (e : Env) : Option World :=
  if s.call.isNone ∧ s.mainVersion ≠ s.version then none
  else if e.object = false then some s
  else some (s.newWrapper exact)

/-- `pytealet_duplicate_impl`, up to the call of the factory. -/
def duplicate (src : Nat) (e : Env) : Option World :=
  match s.wrappers src with
  | some w =>
    if w.status ≠ .new ∧ w.status ≠ .stub then some (s.fail src)
    else if w.exact ∧ s.custom = true then
      if s.call.isSome then some (s.fail src)
      else some { s with call := some { owner := s.current, purpose := .duplicate src } }
    else if w.exact ∧ s.call.isNone ∧ s.mainVersion ≠ s.version then none
    else if e.object = false then some (s.fail src)
    else (s.newWrapper w.exact).finishDuplicate src s.nextWrapper e
  | none => none

/-- The factory returns a wrapper, or raises, or returns something else:
`PyTealet_CreateConfiguredWrapper`. -/
def factoryReturn (created : Option Nat) (e : Env) : Option World :=
  match s.call with
  | some { owner, purpose } =>
    if owner ≠ s.current then none
    else
      let s := { s with call := none }
      let usable := fun k => (s.wrappers k).any fun w => w.status = .new ∧ w.tealet = none
      match created.filter usable, purpose with
      | some k, .duplicate src => s.finishDuplicate src k e
      | some k, .replaceMain old _ => s.replaceMain old k
      | none, .duplicate src => some (s.fail src)
      | none, .replaceMain _ undo => some (s.restoreFactory undo)
  | none => none

/-! ## Garbage -/

/-- C code holds a reference: the main wrapper, a running wrapper, and the source of a `duplicate`
that waits for the factory. -/
def held (k : Nat) : Bool :=
  k = s.main || (s.wrappers k).any (·.status = .run) || s.call.any (·.purpose = .duplicate k)

/-- `pytealet_clear` -/
def clear (k : Nat) : Option World :=
  match s.wrappers k with
  | some w =>
    if w.status = .primed then
      match w.tealet with
      | some r =>
        some
          ((s.deleteRaw r).put k { w with tracked := false, tealet := none, status := .exit, primed := false })
      | none => some (s.put k { w with primed := false })
    else some (s.put k { w with primed := false })
  | none => none

/-- `pytealet_dealloc` -/
def dealloc (k : Nat) : Option World :=
  match s.clear k with
  | some s =>
    let s₁ := { s with wrappers := update s.wrappers k none }
    match (s.wrappers k).bind (·.tealet) with
    | some r => some (if r = 0 then s₁ else s₁.deleteRaw r)
    | none => some s₁
  | none => none

end World

/-! ## Runs -/

inductive Act where
  | new (exact : Bool) (e : Env)
  | stub (k : Nat) (e : Env)
  | setStub (target source : Nat) (e : Env)
  | duplicate (src : Nat) (e : Env)
  | prime (k : Nat) (e : Env)
  | run (k : Nat) (e : Env)
  | switch (k : Nat) (e : Env)
  | throw (k : Nat) (e : Env)
  | exit (returnTo : Option Nat) (fallback : Bool) (e : Env)
  | getOrCreateMain (e : Env)
  | setFactory (custom : Bool) (e : Env)
  /-- Another thread sets the factory. -/
  | foreignFactory (custom : Bool)
  | factoryReturn (created : Option Nat) (e : Env)
  /-- The collector clears a wrapper, and frees one. -/
  | clear (k : Nat)
  | dealloc (k : Nat)

def act (s : World) : Act → Option World
  | .new exact e => s.new exact e
  | .stub k e => if s.mainVersion = s.version then s.stub k e else none
  | .setStub target source e => s.setStub target source e
  | .duplicate src e => s.duplicate src e
  | .prime k e => s.prime k e
  | .run k e => s.run k e
  | .switch k e => s.switch k e
  | .throw k e => s.throw k e
  | .exit returnTo fallback e => s.exit returnTo fallback e
  | .getOrCreateMain e => s.getOrCreateMain none e
  | .setFactory custom e => s.setFactory custom e
  | .foreignFactory custom => some { s with custom := custom, version := s.version + 1 }
  | .factoryReturn created e => s.factoryReturn created e
  | .clear k => if s.held k then none else s.clear k
  | .dealloc k => if s.held k then none else s.dealloc k

def step (s : World) (a : Act) : Option World :=
  act { s with failed := none } a

end Pytealet.Tealet.Wrappers
