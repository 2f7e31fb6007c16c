import Pytealet.Lib.Transition
import Mathlib.Data.List.Basic

/-!
# Lineage — the tealets of one thread, as `pytealet.c` runs them

The wrappers of a lineage are numbered; number 0 is the main tealet.  One of them is current.  A
transfer saves the exception state of the thread in the wrapper of the current tealet and restores
it from the wrapper of the target; a stub or a primed tealet has a saved state of its own before it
first runs.

An exception that is queued gets a token.  The lineage has one pending token: the tealet that
resumes next raises its exception.  When there is a fallback, the tealet keeps the token in flight,
and an exception that it does not catch leads to the fallback.

`libtealet` decides whether a transfer succeeds.  What Python code does between two calls is any
sequence of steps of the current tealet: frames that push and pop an exception slot, and exceptions
that are handled.  An overridden `resolve_target` is such code too.  Allocations do not fail, and
tokens do not wrap around.
-/

namespace Pytealet.Tealet

open Lib Lib.Transition

/-! ## Exceptions -/

/-- The exceptions that `resolve_target` tells apart: `TealetExit`; `SystemExit` and
`KeyboardInterrupt`; others. -/
inductive Kind
  | tealetExit
  | systemExit
  | other
  deriving DecidableEq, Repr

/-- The class of an exception, its `__cause__` and its `__context__`. -/
structure Links (ε : Type*) where
  kind : ε → Kind
  cause : ε → Option ε
  context : ε → Option ε

variable {ε : Type*}

/-- An exception is put on the stack of `PyTealetThrow_ExceptionChainContains`, which has 256
places. -/
def pushChain (stack : List ε) : Option ε → List ε
  | some e => if stack.length < 256 then e :: stack else stack
  | none => stack

/-- Its loop, at most `steps` times. -/
def chainLoop [DecidableEq ε] (links : Links ε) (needle : ε) : Nat → List ε → Bool
  | 0, _ => false
  | _ + 1, [] => false
  | steps + 1, cursor :: stack =>
    if cursor = needle then true
    else
      -- the context is looked at before the cause
      chainLoop links needle steps
        (pushChain (pushChain stack (links.cause cursor)) (links.context cursor))

/-- `PyTealetThrow_ExceptionChainContains`. -/
def exceptionChainContains [DecidableEq ε] (links : Links ε) (raised needle : ε) : Bool :=
  chainLoop links needle 256 [raised]

/-! ## The state -/

/-- `state` of a wrapper. -/
inductive Status
  | new
  | stub
  | run
  | exit
  | primed
  deriving DecidableEq, Repr

/-- `PYTEALET_STATE_IS_SWITCHABLE`. -/
def Status.switchable : Status → Bool
  | .run | .primed => true
  | _ => false

/-- What `exc_info` can point to: the slot of the thread state, `tstate->exc_state`; the slot of the
saved state of a wrapper, `tstate.frame_data.exc_state`; or the slot of a running frame. -/
inductive Slot
  | own
  | saved (k : Nat)
  | frame (f : Nat)
  deriving DecidableEq, Repr

/-- `exc_info` and `exc_state` of the thread state. -/
structure Tstate (ε : Type*) where
  excInfo : Slot
  excState : Option ε
  deriving DecidableEq, Repr

/-- `PyTealetTstate`. -/
structure SavedTstate (ε : Type*) where
  hasState : Bool
  excInfo : Slot
  excState : Option ε
  deriving DecidableEq, Repr

/-- The slot of a running frame, with the tealet that runs it.  A frame that runs again has a new
slot. -/
structure FrameSlot (ε : Type*) where
  value : Option ε
  previous : Slot
  owner : Nat
  deriving DecidableEq, Repr

/-- `PyTealetObject`. -/
structure Wrapper (ε : Type*) where
  status : Status
  tstate : SavedTstate ε
  inflight : Option Nat
  deriving DecidableEq, Repr

/-- A record of `throw_records`. -/
structure Record (ε : Type*) where
  exc : ε
  fallback : Option Nat
  deriving DecidableEq, Repr

/-- What happens to exceptions: one is queued for a tealet; a tealet resumes, and raises an
exception or carries it in a `PanicError`; a tealet resumes and its trace hook raises; a transfer
fails. -/
inductive Event (ε : Type*)
  | queued (token target : Nat) (e : ε)
  | resumed (k : Nat) (raised : Option (Nat × ε))
  | traced (k : Nat)
  | failed
  deriving DecidableEq, Repr

/-- The wrappers, the thread state, the slots of frames and the part of `PyTealetMainData` that
keeps exceptions.  `log` is kept for the statements only, the latest event last. -/
structure State (ε : Type*) where
  wrappers : List (Wrapper ε)
  current : Nat
  tstate : Tstate ε
  frames : List (FrameSlot ε)
  nextToken : Nat
  pending : Option Nat
  records : List (Nat × Record ε)
  log : List (Event ε)
  deriving DecidableEq, Repr

/-- `PyTealetTstate_Init`. -/
def SavedTstate.init : SavedTstate ε where
  hasState := false
  excInfo := .own
  excState := none

/-- `pytealet_new_impl`. -/
def Wrapper.fresh (status : Status) : Wrapper ε where
  status := status
  tstate := .init
  inflight := none

/-- The main tealet runs. -/
def init : State ε where
  wrappers := [.fresh .run]
  current := 0
  tstate := { excInfo := .own, excState := none }
  frames := []
  nextToken := 0
  pending := none
  records := []
  log := []

/-- `PyTealetTstate_GetFrame` into wrapper `k`: a pointer to the slot of the thread state becomes
one to the slot of the saved state. -/
def Tstate.getFrame (t : Tstate ε) (k : Nat) : SavedTstate ε where
  hasState := true
  excInfo := if t.excInfo = .own then .saved k else t.excInfo
  excState := t.excState

/-- `PyTealetTstate_PutFrame` from wrapper `k`. -/
def SavedTstate.putFrame (t : SavedTstate ε) (k : Nat) : Tstate ε where
  excInfo := if t.excInfo = .saved k then .own else t.excInfo
  excState := t.excState

/-- `PyTealetTstate_Frame_Setup` of the saved state of wrapper `k`, after `PyTealetTstate_Copy`. -/
def SavedTstate.setup (k : Nat) : SavedTstate ε where
  hasState := true
  excInfo := .saved k
  excState := none

/-- `PyTealetTstate_Frame_Setup` of the thread state, and `PyTealetTstate_Frame_Cleanup`. -/
def Tstate.setup : Tstate ε where
  excInfo := .own
  excState := none

/-- `PyTealetTstate_Duplicate`: the saved state is copied as it is. -/
def SavedTstate.duplicate (t : SavedTstate ε) : SavedTstate ε :=
  { t with hasState := true }

namespace State

def update (s : State ε) (k : Nat) (f : Wrapper ε → Wrapper ε) : State ε :=
  { s with wrappers := s.wrappers.modify k f }

def setStatus (s : State ε) (k : Nat) (status : Status) : State ε :=
  s.update k fun w => { w with status := status }

def switchable (s : State ε) (k : Nat) : Bool :=
  match s.wrappers[k]? with
  | some w => w.status.switchable
  | none => false

def note (s : State ε) (e : Event ε) : State ε :=
  { s with log := s.log ++ [e] }

/-- `PyTealetTstate_Save` into the current wrapper; also what `PyTealetTstate_Copy` saves in it. -/
def save (s : State ε) : State ε :=
  s.update s.current fun w => { w with tstate := s.tstate.getFrame s.current }

/-- `PyTealetTstate_Restore` from wrapper `k`, which becomes current. -/
def restore (s : State ε) (k : Nat) : State ε :=
  match s.wrappers[k]? with
  | some w =>
    { s.update k (fun w => { w with tstate := { w.tstate with hasState := false } }) with
      tstate := w.tstate.putFrame k
      current := k }
  | none => s

/-! ## The registry -/

/-- `PyTealetThrow_RegistryPop`. -/
def registryPop (s : State ε) (token : Option Nat) : State ε :=
  match token with
  | some t => { s with records := s.records.filter fun r => r.1 != t }
  | none => s

/-- `PyTealetThrow_RegistrySet`. -/
def registrySet (s : State ε) (token : Nat) (r : Record ε) : State ε :=
  { s with records := (token, r) :: s.records.filter fun r => r.1 != token }

/-- The record of the pending token, if there is one. -/
def pendingRecord (s : State ε) : Option (Nat × Record ε) :=
  match s.pending with
  | some t => (s.records.lookup t).map fun r => (t, r)
  | none => none

/-- The pending token is popped. -/
def popPending (s : State ε) : State ε :=
  { s.registryPop s.pending with pending := none }

/-- The token that wrapper `k` has in flight is popped. -/
def popInflight (s : State ε) (k : Nat) : State ε :=
  match s.wrappers[k]? with
  | some w => (s.registryPop w.inflight).update k fun w => { w with inflight := none }
  | none => s

/-- The last part of `pytealet_set_pending_exception_inner`: the new exception overrides the pending
one, and the one that the target has in flight. -/
def queue (s : State ε) (target : Nat) (e : ε) (fallback : Option Nat) : State ε :=
  let s₁ := s.popPending.popInflight target
  let token := s₁.nextToken + 1
  let s₂ : State ε := { s₁ with nextToken := token, pending := some token }
  (s₂.registrySet token { exc := e, fallback := fallback }).note (.queued token target e)

/-- `pytealet_set_pending_exception_inner`; `none` is an error.  A target is not its own
fallback. -/
def setPendingInner (s : State ε) (target : Nat) (e : ε) (fallback : Option Nat) : Option (State ε) :=
  match s.wrappers[target]? with
  | some w =>
    if w.status.switchable || w.status = .new || w.status = .stub then
      if fallback = some target then some (s.queue target e none)
      -- after this check nothing fails
      else if fallback.all s.switchable then some (s.queue target e fallback)
      else none
    else
      none
  | none => none

/-- The current tealet has `token` in flight, if there is a fallback. -/
def keepInflight (s : State ε) (token : Nat) (r : Record ε) : State ε :=
  match r.fallback with
  | some _ =>
    -- the record was popped with the pending token, and is set again under it
    ((s.popInflight s.current).registrySet token r).update s.current fun w =>
      { w with inflight := some token }
  | none => s

/-- `PyTealetThrow_MaybeRaisePending` in the current tealet. -/
def maybeRaisePending (s : State ε) : State ε :=
  match s.pendingRecord with
  | some (token, r) =>
    (s.popPending.keepInflight token r).note (.resumed s.current (some (token, r.exc)))
  | none => s.popPending.note (.resumed s.current none)

/-- A panic reaches the current tealet: `PyTealetThrow_TakePendingException`. -/
def takePending (s : State ε) : State ε :=
  s.popPending.note (.resumed s.current (s.pendingRecord.map fun r => (r.1, r.2.exc)))

/-- The record of the token that the current tealet has in flight. -/
def inflightRecord (s : State ε) : Option (Record ε) :=
  match s.wrappers[s.current]? with
  | some w =>
    match w.inflight with
    | some t => s.records.lookup t
    | none => none
  | none => none

/-- `PyTealetThrow_TakeRedirectTarget`. -/
def takeRedirectTarget [DecidableEq ε] (s : State ε) (links : Links ε) (raised : ε) :
    Option Nat × State ε :=
  let target :=
    match s.inflightRecord with
    | some r => if exceptionChainContains links raised r.exc then r.fallback.filter s.switchable else none
    | none => none
  -- the token is popped whether or not there is a redirect
  (target, s.popInflight s.current)

/-! ## Transfers -/

end State

/-- What becomes of a transfer: it fails; it succeeds; or it succeeds and the trace hook raises. -/
inductive Transfer
  | fails
  | succeeds
  | hookRaises
  deriving DecidableEq, Repr

namespace State

/-- The target has become current: `PyTealetTrace_OnResume`, then the pending exception. -/
def resume (s : State ε) (x : Transfer) : State ε :=
  match x with
  | .hookRaises => s.note (.traced s.current)
  | _ => s.maybeRaisePending

/-- The current tealet is left for `k`, which has run or has a saved state. -/
def transfer (s : State ε) (k : Nat) : State ε :=
  (s.save.restore k).setStatus k .run

/-- A transfer fails: the state of the current tealet is restored, and
`PyTealetThrow_ClearPendingException`. -/
def transferFails (s : State ε) : State ε :=
  (s.save.restore s.current).popPending.note .failed

/-- `pytealet_switch`.  A panic is seen where the target resumes from a call of its own; a primed
target enters `pytealet_main`. -/
def switch (s : State ε) (k : Nat) (panic : Bool) (x : Transfer) : State ε :=
  match s.wrappers[k]? with
  | some w =>
    if w.status.switchable then
      if x = .fails then s.transferFails
      -- the error is what the target gets from its own `tealet_switch`
      else if panic && w.status = .run then (s.transfer k).takePending
      else (s.transfer k).resume x
    else
      s
  | none => s

/-- `PyTealetApi_Run` and `pytealet_main`; `callable` is whether the function is. -/
def run (s : State ε) (k : Nat) (callable : Bool) (x : Transfer) : State ε :=
  match s.wrappers[k]? with
  | some w =>
    if (w.status = .new || w.status = .stub) && (callable || s.pending.isSome) then
      if x = .fails then s.transferFails
      else if w.status = .stub then (s.transfer k).resume x
      else
        -- a new tealet has no saved state: the thread state is set up afresh
        (({ s.save with current := k, tstate := .setup } : State ε).setStatus k .run).resume x
    else
      s
  | none => s

/-- `PyTealetApi_Throw`, with the `return_target` resolved. -/
def throw (s : State ε) (k : Nat) (e : ε) (fallback : Option Nat) (panic : Bool) (x : Transfer) :
    State ε :=
  if s.switchable k then
    match s.setPendingInner k e fallback with
    | some s₁ => s₁.switch k panic x
    | none => s
  else if panic then s
  else
    -- `run` is called without a function
    match s.setPendingInner k e fallback with
    | some s₁ => s₁.run k false x
    | none => s

end State

/-! ## The end of a tealet -/

/-- How the worker ends: it returns a tealet or something else, or it raises. -/
inductive Worker (ε : Type*)
  | returned (target : Option Nat)
  | raised (e : ε) (links : Links ε)

/-- `resolve_target`: the default, or an overridden one with its result. -/
inductive Hook (ε : Type*)
  | default (w : Worker ε)
  | override (target : Option Nat)

namespace State

/-- The checks on the target of an exit. -/
def exitTarget (s : State ε) : Option Nat → Option Nat
  | some k => if s.switchable k && k != s.current then some k else none
  | none => none

/-- `pytealet_resolve_target`, with the exit target of the worker's exception. -/
def resolveTarget (s : State ε) (w : Worker ε) (excTarget : Option Nat) : Option (Nat × State ε) :=
  match w with
  | .returned target => (s.exitTarget target).map fun k => (k, s)
  | .raised e links =>
    if links.kind e = .systemExit then
      -- the exception goes on in the main tealet
      match s.exitTarget (some 0), s.setPendingInner 0 e none with
      | some k, some s₁ => some (k, s₁)
      | _, _ => none
    else
      (s.exitTarget (some (excTarget.getD 0))).map fun k => (k, s)

/-- `pytealet_apply_resolve_target`: after an error the exit leads to the main tealet. -/
def applyResolveTarget [DecidableEq ε] (s : State ε) : Hook ε → Nat × State ε
  | .default (.returned target) =>
    (s.resolveTarget (.returned target) none).getD (0, s)
  | .default (.raised e links) =>
    -- the redirect is taken before the hook is called, and is not put back
    let r := s.takeRedirectTarget links e
    (r.2.resolveTarget (.raised e links) r.1).getD (0, r.2)
  | .override target => ((s.exitTarget target).getD 0, s)

/-- The current tealet is gone: `PyTealetTstate_Frame_Cleanup`, `PyTealetTstate_Save` and
`PyTealetTstate_Drop`. -/
def finish (s : State ε) : State ε :=
  let s₁ : State ε := { s with tstate := .setup }
  s₁.save.update s.current fun w => { w with status := .exit, tstate := { w.tstate with hasState := false } }

/-- The exit leads to `k`; or it cannot, and `TEALET_XFER_NOFAIL` leads to the main tealet with a
panic. -/
def exitTo (s : State ε) (k : Nat) (x : Transfer) : State ε :=
  if x = .fails then ((s.finish.restore 0).setStatus 0 .run).takePending
  else ((s.finish.restore k).setStatus k .run).resume x

end State

/-! ## Steps -/

/-- The calls of the current tealet, and what its frames do.  `unwind` is an exception that leaves a
worker whose `resolve_target` is overridden. -/
inductive Act (ε : Type*)
  | create
  | stub (k : Nat)
  | duplicate (k : Nat)
  | setStub (k source : Nat)
  | prime (k : Nat)
  | setPending (k : Nat) (e : ε) (fallback : Option Nat)
  | switch (k : Nat) (panic : Bool) (x : Transfer)
  | run (k : Nat) (callable : Bool) (x : Transfer)
  | throw (k : Nat) (e : ε) (fallback : Option Nat) (panic : Bool) (x : Transfer)
  | unwind (e : ε) (links : Links ε)
  | exit (hook : Hook ε) (x : Transfer)
  | pushFrame
  | popFrame
  | handle (e : Option ε)

namespace State

/-- `pytealet_stub_impl`, and `pytealet_prime_primed` of a new tealet. -/
def spawn (s : State ε) (k : Nat) (status : Status) : State ε :=
  s.update k fun w => { w with status := status, tstate := .setup k }

/-- The frame that runs handles `e`, or has handled its exception. -/
def handle (s : State ε) (e : Option ε) : State ε :=
  match s.tstate.excInfo with
  | .own => { s with tstate := { s.tstate with excState := e } }
  | .saved k => s.update k fun w => { w with tstate := { w.tstate with excState := e } }
  | .frame f => { s with frames := s.frames.modify f fun slot => { slot with value := e } }

/-- A frame begins to run, and its slot is pushed. -/
def pushFrame (s : State ε) : State ε :=
  { s with
    tstate := { s.tstate with excInfo := .frame s.frames.length }
    frames := s.frames ++ [{ value := none, previous := s.tstate.excInfo, owner := s.current }] }

end State

def step [DecidableEq ε] (s : State ε) : Act ε → Option (State ε)
  | .create => some { s with wrappers := s.wrappers ++ [.fresh .new] }
  | .stub k =>
    match s.wrappers[k]? with
    | some w => some (if w.status = .new then s.spawn k .stub else s)
    | none => none
  | .duplicate k =>
    match s.wrappers[k]? with
    | some w =>
      if w.status = .new then some { s with wrappers := s.wrappers ++ [.fresh .new] }
      else if w.status = .stub then
        -- `exc_info` of the copy still points into the wrapper of `k`
        some { s with
          wrappers := s.wrappers ++
            [{ status := .stub, tstate := w.tstate.duplicate, inflight := none }] }
      else some s
    | none => none
  | .setStub k source =>
    match s.wrappers[k]?, s.wrappers[source]? with
    | some w, some src =>
      if w.status = .new && src.status = .stub then
        some (s.update k fun w =>
          { w with status := .stub, tstate := src.tstate.duplicate, inflight := none })
      else some s
    | _, _ => none
  | .prime k =>
    match s.wrappers[k]? with
    | some w =>
      some (if w.status = .new then s.spawn k .primed
        else if w.status = .stub then s.setStatus k .primed
        else s)
    | none => none
  | .setPending k e fallback => some ((s.setPendingInner k e fallback).getD s)
  | .switch k panic x => some (s.switch k panic x)
  | .run k callable x => some (s.run k callable x)
  | .throw k e fallback panic x => some (s.throw k e fallback panic x)
  | .unwind e links =>
    -- the main tealet has no worker
    if s.current = 0 then none else some (s.takeRedirectTarget links e).2
  | .exit hook x =>
    if s.current = 0 then none
    else
      let r := s.applyResolveTarget hook
      some (r.2.exitTo r.1 x)
  | .pushFrame => some s.pushFrame
  | .popFrame =>
    match s.tstate.excInfo with
    | .frame f =>
      -- the slot stays where it is; nothing refers to it any more
      match s.frames[f]? with
      | some slot => some { s with tstate := { s.tstate with excInfo := slot.previous } }
      | none => none
    | _ => none
  | .handle e => some (s.handle e)

/-! ## What the functions do -/

section Rules

variable {s s' : State ε} {k : Nat}

theorem update_getElem? (s : State ε) (k : Nat) (f : Wrapper ε → Wrapper ε) (j : Nat) :
    (s.update k f).wrappers[j]? = (s.wrappers[j]?).map fun w => if k = j then f w else w := by
  simp [State.update, List.getElem?_modify]

theorem update_other {j : Nat} (f : Wrapper ε → Wrapper ε) (hj : j ≠ k) :
    (s.update k f).wrappers[j]? = s.wrappers[j]? := by
  have hkj : k ≠ j := fun heq => hj heq.symm
  rw [update_getElem?]
  cases s.wrappers[j]? with
  | none => rfl
  | some w => simp [hkj]

theorem setPendingInner_eq_some {e : ε} {fallback : Option Nat}
    (h : s.setPendingInner k e fallback = some s') : ∃ fallback', s' = s.queue k e fallback' := by
  unfold State.setPendingInner at h
  split at h
  · split at h
    · split at h
      · exact ⟨none, (Option.some.inj h).symm⟩
      · split at h
        · exact ⟨fallback, (Option.some.inj h).symm⟩
        · cases h
    · cases h
  · cases h

theorem switchable_iff : s.switchable k = true ↔
    ∃ w, s.wrappers[k]? = some w ∧ w.status.switchable = true := by
  unfold State.switchable
  split
  · rename_i w hw
    simp [hw]
  · rename_i hw
    simp [hw]

theorem exitTarget_eq_some {target : Option Nat} (h : s.exitTarget target = some k) :
    s.switchable k = true ∧ k ≠ s.current := by
  cases target with
  | none => cases h
  | some j =>
    by_cases hj : (s.switchable j && j != s.current) = true
    · simp only [State.exitTarget, hj, if_true, Option.some.injEq] at h
      subst h
      simpa using hj
    · simp [State.exitTarget, hj] at h

/-! ## The exceptions of the lineage do not matter -/

/-- What the wrappers hold apart from the tokens. -/
def Wrapper.core (w : Wrapper ε) : Status × SavedTstate ε :=
  (w.status, w.tstate)

/-- The states differ in the exceptions that are queued or in flight only. -/
structure SameThread (s s' : State ε) : Prop where
  tstate : s'.tstate = s.tstate
  frames : s'.frames = s.frames
  current : s'.current = s.current
  wrappers : s'.wrappers.map Wrapper.core = s.wrappers.map Wrapper.core

theorem SameThread.refl (s : State ε) : SameThread s s :=
  ⟨rfl, rfl, rfl, rfl⟩

theorem SameThread.trans {s₁ s₂ s₃ : State ε} (h : SameThread s₁ s₂) (h' : SameThread s₂ s₃) :
    SameThread s₁ s₃ :=
  ⟨h'.tstate.trans h.tstate, h'.frames.trans h.frames, h'.current.trans h.current,
    h'.wrappers.trans h.wrappers⟩

theorem SameThread.wrapper (h : SameThread s s') {w' : Wrapper ε} (hw : s'.wrappers[k]? = some w') :
    ∃ w, s.wrappers[k]? = some w ∧ w.status = w'.status ∧ w.tstate = w'.tstate := by
  have hget : (s'.wrappers.map Wrapper.core)[k]? = some w'.core := by simp [hw]
  rw [h.wrappers, List.getElem?_map, Option.map_eq_some_iff] at hget
  rcases hget with ⟨w, hw, hcore⟩
  have hparts := Prod.ext_iff.1 hcore
  exact ⟨w, hw, hparts.1, hparts.2⟩

theorem SameThread.symm (h : SameThread s s') : SameThread s' s :=
  ⟨h.tstate.symm, h.frames.symm, h.current.symm, h.wrappers.symm⟩

theorem sameThread_update (s : State ε) (k : Nat) {f : Wrapper ε → Wrapper ε}
    (hf : ∀ w, (f w).core = w.core) : SameThread s (s.update k f) := by
  refine ⟨rfl, rfl, rfl, ?_⟩
  refine List.ext_getElem? ?_
  intro j
  rw [List.getElem?_map, List.getElem?_map, update_getElem?, Option.map_map]
  refine Option.map_congr ?_
  intro w _
  simp only [Function.comp]
  split
  · exact hf w
  · rfl

theorem sameThread_registryPop (s : State ε) (token : Option Nat) : SameThread s (s.registryPop token) := by
  cases token with
  | none => exact .refl s
  | some t => exact ⟨rfl, rfl, rfl, rfl⟩

theorem sameThread_popPending (s : State ε) : SameThread s s.popPending :=
  (sameThread_registryPop s s.pending).trans ⟨rfl, rfl, rfl, rfl⟩

theorem sameThread_popInflight (s : State ε) (k : Nat) : SameThread s (s.popInflight k) := by
  unfold State.popInflight
  split
  · rename_i w _
    exact (sameThread_registryPop s w.inflight).trans (sameThread_update _ k fun _ => rfl)
  · exact .refl s

theorem sameThread_queue (s : State ε) (k : Nat) (e : ε) (fallback : Option Nat) :
    SameThread s (s.queue k e fallback) :=
  ((sameThread_popPending s).trans (sameThread_popInflight _ k)).trans ⟨rfl, rfl, rfl, rfl⟩

theorem sameThread_setPendingInner {e : ε} {fallback : Option Nat}
    (h : s.setPendingInner k e fallback = some s') : SameThread s s' := by
  rcases setPendingInner_eq_some h with ⟨fallback', rfl⟩
  exact sameThread_queue s k e fallback'

theorem sameThread_keepInflight (s : State ε) (token : Nat) (r : Record ε) :
    SameThread s (s.keepInflight token r) := by
  unfold State.keepInflight
  split
  · have hpop := sameThread_popInflight s s.current
    have hset : SameThread (s.popInflight s.current) ((s.popInflight s.current).registrySet token r) :=
      ⟨rfl, rfl, rfl, rfl⟩
    exact (hpop.trans hset).trans (sameThread_update _ _ fun _ => rfl)
  · exact .refl s

theorem sameThread_note (s : State ε) (e : Event ε) : SameThread s (s.note e) :=
  ⟨rfl, rfl, rfl, rfl⟩

theorem sameThread_maybeRaisePending (s : State ε) : SameThread s s.maybeRaisePending := by
  unfold State.maybeRaisePending
  split
  · exact ((sameThread_popPending s).trans (sameThread_keepInflight _ _ _)).trans (sameThread_note _ _)
  · exact (sameThread_popPending s).trans (sameThread_note _ _)

theorem sameThread_takePending (s : State ε) : SameThread s s.takePending :=
  (sameThread_popPending s).trans (sameThread_note _ _)

theorem sameThread_resume (s : State ε) (x : Transfer) : SameThread s (s.resume x) := by
  cases x with
  | hookRaises => exact ⟨rfl, rfl, rfl, rfl⟩
  | fails => exact sameThread_maybeRaisePending s
  | succeeds => exact sameThread_maybeRaisePending s

/-! ## What a step can do -/

/-- What a step can do.  The act is kept where a stub is duplicated. -/
inductive Move [DecidableEq ε] (s : State ε) : Act ε → State ε → Prop
  | stays (a : Act ε) : Move s a s
  | adds (a : Act ε) : Move s a { s with wrappers := s.wrappers ++ [.fresh .new] }
  | spawns (a : Act ε) {k : Nat} {w : Wrapper ε} (status : Status) (hw : s.wrappers[k]? = some w)
      (hnew : w.status = .new) : Move s a (s.spawn k status)
  | duplicates {k : Nat} {w : Wrapper ε} (hw : s.wrappers[k]? = some w) (hstub : w.status = .stub) :
      Move s (.duplicate k)
        { s with
          wrappers := s.wrappers ++
            [{ status := .stub, tstate := w.tstate.duplicate, inflight := none }] }
  | setsStub {k source : Nat} {w src : Wrapper ε} (hw : s.wrappers[k]? = some w)
      (hsrc : s.wrappers[source]? = some src) (hnew : w.status = .new) (hstub : src.status = .stub) :
      Move s (.setStub k source)
        (s.update k fun w =>
          { w with status := .stub, tstate := src.tstate.duplicate, inflight := none })
  | primes (a : Act ε) {k : Nat} {w : Wrapper ε} (hw : s.wrappers[k]? = some w)
      (hstub : w.status = .stub) : Move s a (s.setStatus k .primed)
  | queues (a : Act ε) (k : Nat) (e : ε) (fallback : Option Nat) : Move s a (s.queue k e fallback)
  | switches (a : Act ε) (k : Nat) (panic : Bool) (x : Transfer) : Move s a (s.switch k panic x)
  | runs (a : Act ε) (k : Nat) (callable : Bool) (x : Transfer) : Move s a (s.run k callable x)
  | throws (a : Act ε) (k : Nat) (e : ε) (fallback : Option Nat) (panic : Bool) (x : Transfer) :
      Move s a (s.throw k e fallback panic x)
  | unwinds (a : Act ε) : Move s a (s.popInflight s.current)
  | exits (a : Act ε) (hook : Hook ε) (x : Transfer) (hmain : s.current ≠ 0) :
      Move s a ((s.applyResolveTarget hook).2.exitTo (s.applyResolveTarget hook).1 x)
  | pushes (a : Act ε) : Move s a s.pushFrame
  | pops (a : Act ε) {f : Nat} {slot : FrameSlot ε} (hinfo : s.tstate.excInfo = .frame f)
      (hslot : s.frames[f]? = some slot) :
      Move s a { s with tstate := { s.tstate with excInfo := slot.previous } }
  | handles (a : Act ε) (e : Option ε) : Move s a (s.handle e)

theorem step_move [DecidableEq ε] {a : Act ε} (hs : step s a = some s') : Move s a s' := by
  cases a with
  | create =>
    cases hs
    exact .adds _
  | stub k =>
    unfold step at hs
    dsimp only at hs
    split at hs
    · rename_i w hw
      cases hs
      split
      · rename_i hnew
        exact .spawns _ .stub hw hnew
      · exact .stays _
    · cases hs
  | duplicate k =>
    unfold step at hs
    dsimp only at hs
    split at hs
    · rename_i w hw
      split at hs
      · cases hs
        exact .adds _
      · split at hs
        · rename_i hstub
          cases hs
          exact .duplicates hw hstub
        · cases hs
          exact .stays _
    · cases hs
  | setStub k source =>
    unfold step at hs
    dsimp only at hs
    split at hs
    · rename_i w src hw hsrc
      split at hs
      · rename_i hboth
        simp only [Bool.and_eq_true, decide_eq_true_eq] at hboth
        cases hs
        exact .setsStub hw hsrc hboth.1 hboth.2
      · cases hs
        exact .stays _
    · cases hs
  | prime k =>
    unfold step at hs
    dsimp only at hs
    split at hs
    · rename_i w hw
      cases hs
      split
      · rename_i hnew
        exact .spawns _ .primed hw hnew
      · split
        · rename_i hstub
          exact .primes _ hw hstub
        · exact .stays _
    · cases hs
  | setPending k e fallback =>
    cases hs
    cases hq : s.setPendingInner k e fallback with
    | none => exact .stays _
    | some s₁ =>
      rcases setPendingInner_eq_some hq with ⟨fallback', rfl⟩
      exact .queues _ k e fallback'
  | switch k panic x =>
    cases hs
    exact .switches _ k panic x
  | run k callable x =>
    cases hs
    exact .runs _ k callable x
  | throw k e fallback panic x =>
    cases hs
    exact .throws _ k e fallback panic x
  | unwind e links =>
    unfold step at hs
    dsimp only at hs
    split at hs
    · cases hs
    · cases hs
      exact .unwinds _
  | exit hook x =>
    unfold step at hs
    dsimp only at hs
    split at hs
    · cases hs
    · rename_i hmain
      cases hs
      exact .exits _ hook x hmain
  | pushFrame =>
    cases hs
    exact .pushes _
  | popFrame =>
    unfold step at hs
    dsimp only at hs
    split at hs
    · rename_i f hinfo
      split at hs
      · rename_i slot hslot
        cases hs
        exact .pops _ hinfo hslot
      · cases hs
    · cases hs
  | handle e =>
    cases hs
    exact .handles _ e

end Rules

end Pytealet.Tealet
