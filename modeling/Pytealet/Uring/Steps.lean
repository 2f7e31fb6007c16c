import Pytealet.Lib.Transition
import Pytealet.Uring.SendAll

/-!
# Steps — CQEs of the kernel, their packaging, and the runs of a ring

A CQE is consumed (`consume_cqe` stages it), then a worker builds its delivery object, then the
worker finishes the in-flight bookkeeping; other workers may act in between.  Consumption and the
kernel's posting of the CQE are one step: nothing of the ring sees a CQE earlier.
-/

namespace Pytealet.Uring

open Lib.Transition

namespace Ring

variable (r : Ring)

/-! ## In-flight bookkeeping -/

def completionAuxStageCqe (c : Nat) (wantToDecref : Bool) : Ring :=
  r.setBits c fun b =>
    { b with auxRefcount := b.auxRefcount + 1, auxDecref := b.auxDecref || wantToDecref }

def completionAuxFinishCqe (c : Nat) : Ring × Bool :=
  let r := r.setBits c fun b => { b with auxRefcount := b.auxRefcount - 1 }
  if (r.bits c).auxRefcount = 0 ∧ (r.bits c).auxDecref = true then
    (r.setBits c fun b => { b with auxDecref := false }, true)
  else
    (r, false)

def sendAllCqeIsTerminal (c : Nat) (res : Int) : Bool :=
  (r.bits c).abandon || res ≤ 0 || (r.handle c).length ≤ (r.bits c).offset ||
    (r.sendAllRemaining c : Int) ≤ res

def completionPrepInFlightRef (c : Nat) (res : Int) (more notif : Bool) : Ring :=
  if (r.handle c).multishot then r.completionAuxStageCqe c (!more)
  else if isZeroCopySendKind (r.kind c) then
    r.completionAuxStageCqe c (if (r.bits c).poison then true else notif)
  else if r.kind c = .sendAll then r.completionAuxStageCqe c (r.sendAllCqeIsTerminal c res)
  else r

def completionFinishInFlightRef (c : Nat) : Ring × Bool :=
  if (r.handle c).multishot = true ∨ isZeroCopySendKind (r.kind c) = true ∨ r.kind c = .sendAll then
    r.completionAuxFinishCqe c
  else
    (r, true)

/-- The end of `package_ready_completion`. -/
def finishPackage (c : Nat) : Ring :=
  match r.completionFinishInFlightRef c with
  | (r, true) =>
    (r.setBits c fun b => { b with inFlight := b.inFlight - 1, released := b.released + 1 }).pendingDec
  | (r, false) => r

/-! ## CQEs -/

/-- `consume_cqe` for a CQE of the request `sqe`. -/
def consumeCqe (sqe : Sqe) (res : Int) (more notif : Bool) : Ring :=
  match sqe.data with
  | .nowait _ _ => r
  | .linkTimeout => r.pendingDec
  | .op c =>
    let r := r.completionPrepInFlightRef c res more notif
    { r with staged := r.staged ++ [⟨c, res, more, notif⟩] }

def buildCompletionResult (s : Staged) (fate : BuildFate) : Ring × Delivery :=
  let silenced := r.kind s.c = .recvMultishot && (r.bits s.c).noDeliverMulti
  if (r.handle s.c).multishot && s.more then
    -- a shell is delivered, and the armed handle stays as it is
    (r, if !fate.memory then .failed .noMemory else if silenced then .internal else .ready)
  else if r.kind s.c = .sendAll then r.sendAllOnCqe s.c s.res fate
  else if isZeroCopySendKind (r.kind s.c) && s.notif then (r, .internal)
  else
    let r := r.setRes s.c s.res
    (r, if !fate.memory then .failed .noMemory
      else if r.skipSuccessOmitDelivery s.c s.res || silenced then .internal else .ready)

end Ring

/-- What the kernel posts: more than one CQE only for a multishot or zero-copy request, a
notification as its last one, and for a send of `n > 0` bytes an error or `1..n`. -/
def kernelAnswers (sqe : Sqe) (res : Int) (more notif : Bool) : Bool :=
  (!more || sqe.multi) && (!notif || !more) &&
    match sqe.len with
    | none => true
    | some n => res ≤ n && (n = 0 || res ≠ 0)

/-! ## Actions -/

inductive Act where
  | setSkipSuccess (c : Nat) (on : Bool)
  | setSkipAll (c : Nat) (on : Bool)
  | setTimeout (c : Nat) (on : Bool)
  | setNoDeliverMulti (c : Nat) (on : Bool)
  | prepare (items : List (Option Nat × Fate))
  | directClose (fd : Int) (enter : Enter)
  | directShutdown (fd : Int) (enter : Enter)
  | directCancel (target : Nat) (enter : Enter)
  | directPollRemove (enter : Enter)
  /-- `submit()`, or any other flush that publishes. -/
  | submit (taken : Nat)
  /-- `abort_queue(c)`, up to the cancel that it posts next. -/
  | abortQueue (c : Nat) (fd : Int)
  /-- The kernel posts a CQE of request `i` and it is consumed. -/
  | cqe (i : Nat) (res : Int) (more notif : Bool)
  /-- A nowait request ends without a CQE. -/
  | silent (i : Nat)
  | build (i : Nat) (fate : BuildFate)
  | finish (i : Nat)

def isNowait (sqe : Sqe) : Bool :=
  match sqe.data with
  | .nowait _ _ => true
  | _ => false

def step (r : Ring) : Act → Option Ring
  | .setSkipSuccess c on =>
    if (r.bits c).isAccepted = false ∧ (on = true → nowaitKindOk (r.kind c) = true) then
      some (r.setBits c fun b => { b with skipSuccess := on, skipAll := on && b.skipAll })
    else none
  | .setSkipAll c on =>
    if (r.bits c).isAccepted = false ∧ (on = true → nowaitKindOk (r.kind c) = true) then
      some (r.setBits c fun b => { b with skipSuccess := on || b.skipSuccess, skipAll := on })
    else none
  | .setTimeout c on =>
    if (r.bits c).prepared = false then some (r.setBits c fun b => { b with timeout := on }) else none
  | .setNoDeliverMulti c on => some (r.setBits c fun b => { b with noDeliverMulti := on })
  | .prepare items => some (r.prepare items).1
  | .directClose fd enter => some (r.tryDirectCloseNowait fd enter).1
  | .directShutdown fd enter => some (r.tryDirectShutdownNowait fd enter).1
  | .directCancel target enter => some (r.tryDirectCancelNowait target enter).1
  | .directPollRemove enter => some (r.tryDirectPollRemoveNowait enter).1
  | .submit taken => some (r.enterKernel taken)
  | .abortQueue c fd => some (r.abortPipeline c fd)
  | .cqe i res more notif =>
    match r.kernel[i]? with
    | none => none
    | some sqe =>
      if kernelAnswers sqe res more notif then
        let r := if more then r else { r with kernel := r.kernel.eraseIdx i }
        some (r.consumeCqe sqe res more notif)
      else none
  | .silent i =>
    match r.kernel[i]? with
    | none => none
    | some sqe => if isNowait sqe then some { r with kernel := r.kernel.eraseIdx i } else none
  | .build i fate =>
    match r.staged[i]? with
    | none => none
    | some s =>
      let r := { r with staged := r.staged.eraseIdx i, built := r.built ++ [s.c] }
      some (r.buildCompletionResult s fate).1
  | .finish i =>
    match r.built[i]? with
    | none => none
    | some c => some ({ r with built := r.built.eraseIdx i }.finishPackage c)

end Pytealet.Uring
