import Mathlib.Algebra.Order.Ring.Nat
import Pytealet.Uring.Ring

/-!
# Prepare — how an operation gets its SQE

`prepare_one_constructed_ex` with the helpers it calls, the batch loop over it, and the direct posts
of nowait operations.  What the environment decides during a call (memory, and how an
`io_uring_enter` that makes room ends) is a `Fate`.
-/

namespace Pytealet.Uring

/-- How `sq_ensure_space` goes: the SQEs that the kernel takes, and whether the enter succeeds. -/
structure Enter where
  taken : Nat := 0
  ok : Bool := true
  deriving DecidableEq, Repr

structure Fate where
  /-- Memory for a slot of the fd table. -/
  slot : Bool := true
  /-- Memory for `fifo_grow`. -/
  fifo : Bool := true
  /-- Memory for the timespec of a link timeout. -/
  timer : Bool := true
  enter : Enter := {}
  deriving DecidableEq, Repr

inductive Room where
  | room
  | short
  | error (e : Err)
  deriving DecidableEq, Repr

def constructedKindReady (h : Handle) : Bool :=
  match h.kind with
  | .send | .sendZc | .sendAll | .recv | .read | .write | .sendto | .recvmsg | .sendmsg | .sendmsgZc
  | .connect | .recvBuf | .recvMultishot => 0 ≤ h.fd
  | .openat | .statx | .statxFdsize | .accept | .poll | .pollMultishot | .close | .shutdown
  | .socket => h.constructed
  | .cancel | .pollRemove => h.target.isSome

namespace Ring

variable (r : Ring)

/-! ## Room in the submission queue -/

def sqSpaceLeft : Nat :=
  r.entries - r.sq.length

def sqEnsureSpace (need : Nat) (enter : Enter) : Ring × Room :=
  let r := r.enterKernel enter.taken
  if !enter.ok then (r, .error .enter)
  else if need ≤ r.sqSpaceLeft then (r, .room)
  else (r, .error .stuck)

/-- `sq_prepare_room`; `always` is `URING_API_SQ_ENTER_ALWAYS`. -/
def sqPrepareRoom (need : Nat) (always : Bool) (enter : Enter) : Ring × Room :=
  if r.entries < need then (r, .error .tooSmall)
  else if need ≤ r.sqSpaceLeft then (r, .room)
  else if !always && !r.makeRoom then (r, .short)
  else r.sqEnsureSpace need enter

/-- `reserve_link_timeout_sqes`, only for a completion with a link timeout, then the room that
`get_sqe_try` asks for. -/
def reserveSqes (c : Nat) (flushIfFull : Bool) (enter : Enter) : Ring × Room :=
  match if (r.bits c).timeout then r.sqPrepareRoom 2 flushIfFull enter else (r, .room) with
  | (r, .room) => r.sqPrepareRoom 1 flushIfFull enter
  | (r, .short) => (r, .short)
  | (r, .error e) => (r, .error e)

/-! ## Filling an SQE -/

def completionSqeFd (c : Nat) : Int :=
  if (r.bits c).poison then -1 else (r.handle c).fd

def sendAllRemaining (c : Nat) : Nat :=
  (r.handle c).length - (r.bits c).offset

/-- `send_all_fill_sqe`; the length field of an SQE has 32 bits. -/
def sendAllFillSqe (c : Nat) (laterLeg : Bool) : Sqe :=
  if !laterLeg && (r.bits c).abandon then { data := .op c }
  else { data := .op c, fd := r.completionSqeFd c, len := some (r.sendAllRemaining c % 2 ^ 32) }

/-- The switch of `prepare_one_constructed_ex`.  A poisoned zero-copy send is one copying send. -/
def fillSqe (c : Nat) : Sqe :=
  match r.kind c with
  | .sendAll => r.sendAllFillSqe c false
  | .send | .sendmsg | .shutdown => { data := .op c, fd := r.completionSqeFd c }
  | .sendZc | .sendmsgZc =>
    { data := .op c, fd := r.completionSqeFd c, multi := !(r.bits c).poison }
  | .cancel | .pollRemove => { data := .op c }
  | _ => { data := .op c, fd := (r.handle c).fd, multi := (r.handle c).multishot }

/-- The abandon mark that a cancel puts on a `send_all`. -/
def abandonTarget (c : Nat) : Ring :=
  match r.kind c, (r.handle c).target with
  | .cancel, some t =>
    if r.kind t = .sendAll then r.setBits t fun b => { b with abandon := true } else r
  | _, _ => r

/-- `fill_link_timeout`, after the SQE of the operation; without memory that SQE is taken back. -/
def fillLinkTimeout (memory : Bool) : Ring × Bool :=
  if memory then ((r.push { data := .linkTimeout }).pendingInc, true)
  else ({ r with sq := r.sq.dropLast }, false)

/-! ## The abortive mark on the way to an SQE -/

/-- `stage_a_copy_abortive`; the second component is `poisoned_here`. -/
def stageACopyAbortive (c : Nat) : Ring × Bool :=
  match r.conflictFd c with
  | none => (r, false)
  | some fd =>
    match r.slots fd with
    | none => (r, false)
    | some slot =>
      if slot.abortive = true ∧ r.kind c ≠ .close ∧ r.kind c ≠ .cancel ∧
          completionKindConflicts (r.kind c) = true then
        (r.setBits c fun b => { b with poison := true }, true)
      else
        (r, false)

def undoUnacceptedPoison (c : Nat) (poisonedHere fromParked : Bool) : Ring :=
  if poisonedHere && !fromParked && !(r.bits c).isAccepted then
    r.setBits c fun b => { b with poison := false }
  else
    r

/-- What an SQE for `c` does to the slot: a `send_all` becomes the active one, and a close clears
the mark (`stage_a_discharge_close`). -/
def slotAfterIssue (c : Nat) (slot : Slot) : Slot :=
  match r.kind c with
  | .sendAll => { slot with active := some c }
  | .close =>
    if 0 ≤ (r.handle c).fd ∧ slot.abortive = true ∧ slot.active = none then
      { slot with abortive := false }
    else
      slot
  | _ => slot

/-- The close found the mark and no FIFO behind it: the slot is freed. -/
def freesAfterIssue (c : Nat) (slot : Slot) : Bool :=
  r.kind c = .close && 0 ≤ (r.handle c).fd && slot.abortive && slot.active = none && slot.fifo = []

def noteIssue (c : Nat) (fromParked : Bool) : Ring :=
  match r.conflictFd c with
  | none => r
  | some fd =>
    let r' := r.write fd ((r.slots fd).map (r.slotAfterIssue c))
      (.issue (.op c) (r.kind c) (r.fillSqe c).fd fromParked)
    if (r.slots fd).any (r.freesAfterIssue c) then r'.fdTableTryFree fd else r'

/-! ## Parking -/

def enqueueConflict (c : Nat) (fate : Fate) : Ring × Option Err :=
  match r.conflictFd c with
  | none => (r, some .noConflictFd)
  | some fd =>
    match r.fdTableGet fd fate.slot with
    | none => (r, some .noMemory)
    | some r =>
      let r := (r.takeParkRef c).setBits c fun b => { b with conflictQueued := true }
      if fate.fifo then
        let slot := (r.slots fd).getD {}
        ((r.write fd (some { slot with fifo := slot.fifo ++ [c] }) (.park c)).noteAccepted c, none)
      else
        let r := r.setBits c fun b => { b with conflictQueued := false }
        (r.dropParkedRingRef c, some .noMemory)

/-! ## `prepare_one_constructed_ex` -/

/-- The checks before anything is touched. -/
def refusal (c : Nat) (fromParked : Bool) : Option Err :=
  if !constructedKindReady (r.handle c) then some .notConstructed
  else if !fromParked && (r.bits c).isAccepted then some .alreadyPrepared
  else if (r.bits c).skipSuccess && !nowaitKindOk (r.kind c) then some .skipSuccessKind
  else none

/-- Failure after the poison bit was copied and the slot of a `send_all` was made. -/
def failFill (c : Nat) (poisonedHere fromParked : Bool) (e : Err) : Ring × Option Err :=
  let r := r.undoUnacceptedPoison c poisonedHere fromParked
  if r.kind c = .sendAll then (r.fdTableTryFree (r.handle c).fd, some e) else (r, some e)

/-- The SQE of `c` is in the queue and stays there. -/
def acceptFill (c : Nat) (fromParked : Bool) : Ring :=
  let r' := r.setBits c fun b => { b with prepared := true }
  let r' := if r.completionCountsPending c && !fromParked then r'.takeInFlightRef c else r'
  (if fromParked then r' else r'.noteAccepted c).noteIssue c fromParked

def nowaitAdvisoryFd (c : Nat) : Int :=
  match r.kind c with
  | .close | .shutdown | .sendAll => (r.handle c).fd
  | _ => -1

/-- The SQE of `c`: a tagged nowait carries its kind and descriptor in place of the completion. -/
def stampSqe (c : Nat) : Sqe :=
  if r.completionCountsPending c then r.fillSqe c
  else { r.fillSqe c with data := .nowait (r.kind c) (r.nowaitAdvisoryFd c) }

/-- From the two room checks on. -/
def fillOne (c : Nat) (poisonedHere fromParked flushIfFull : Bool) (fate : Fate) :
    Ring × Option Err :=
  match r.reserveSqes c flushIfFull fate.enter with
  | (r, .short) => r.failFill c poisonedHere fromParked .queueFull
  | (r, .error e) => r.failFill c poisonedHere fromParked e
  | (r, .room) =>
    let r := (r.push (r.stampSqe c)).abandonTarget c
    if (r.bits c).timeout then
      match r.fillLinkTimeout fate.timer with
      | (r, true) => (r.acceptFill c fromParked, none)
      | (r, false) => r.failFill c poisonedHere fromParked .noMemory
    else
      (r.acceptFill c fromParked, none)

/-- An operation that does not park. -/
def submitOne (c : Nat) (fromParked flushIfFull : Bool) (fate : Fate) : Ring × Option Err :=
  let (r, poisonedHere) := r.stageACopyAbortive c
  if r.kind c = .sendAll then
    match r.fdTableGet (r.handle c).fd fate.slot with
    | none => (r.undoUnacceptedPoison c poisonedHere fromParked, some .noMemory)
    | some r => r.fillOne c poisonedHere fromParked flushIfFull fate
  else
    r.fillOne c poisonedHere fromParked flushIfFull fate

def prepareOneConstructedEx (c : Nat) (fromParked flushIfFull : Bool) (fate : Fate) :
    Ring × Option Err :=
  match r.refusal c fromParked with
  | some e => (r, some e)
  | none =>
    let r := if fromParked then r else r.abandonTarget c
    if !fromParked && r.shouldEnqueueConflict c then r.enqueueConflict c fate
    else r.submitOne c fromParked flushIfFull fate

/-- `prepare_one_constructed` -/
def prepareOne (c : Nat) (fate : Fate) : Ring × Option Err :=
  r.prepareOneConstructedEx c false false fate

/-- `prepare_constructed`: the items in order, up to the first failure.  An item that is no
completion object is `none`. -/
def prepareConstructed (r : Ring) : List (Option Nat × Fate) → Ring × Option Err
  | [] => (r, none)
  | (none, _) :: _ => (r, some .notCompletion)
  | (some c, fate) :: items =>
    match r.prepareOne c fate with
    | (r, none) => prepareConstructed r items
    | (r, some e) => (r, some e)

/-- `UringApiRing_prepare_impl` -/
def prepare (items : List (Option Nat × Fate)) : Ring × Option Err :=
  if !r.initialized then (r, some .closed) else r.prepareConstructed items

/-! ## Direct nowait posts -/

/-- `nowait_post_or_defer`: posted, deferred to a completion (`short`), or failed. -/
def nowaitPostOrDefer (mustPark : Bool) (sqe : Sqe) (enter : Enter) : Ring × Room :=
  if mustPark then (r, .short)
  else
    match r.sqPrepareRoom 1 false enter with
    | (r, .room) => (r.push sqe, .room)
    | (r, .short) => (r, .short)
    | (r, .error e) => (r, .error e)

/-- Nothing in progress on an abortive slot. -/
def idleAbortive (fd : Int) : Bool :=
  (r.slots fd).any fun slot => slot.abortive && slot.active = none && slot.fifo = []

def tryDirectCloseNowait (fd : Int) (enter : Enter) : Ring × Room :=
  if !r.initialized then (r, .error .closed)
  else
    let discharge := r.idleAbortive fd
    match r.nowaitPostOrDefer (r.nowaitFdOpMustPark fd) { data := .nowait .close fd, fd := fd } enter with
    | (r, .room) =>
      let after := (r.slots fd).map fun slot =>
        if discharge then { slot with abortive := false } else slot
      let r := r.write fd after (.issue (.nowait .close fd) .close fd false)
      (if discharge then r.fdTableTryFree fd else r, .room)
    | (r, .short) => (r, .short)
    | (r, .error e) => (r, .error e)

def tryDirectShutdownNowait (fd : Int) (enter : Enter) : Ring × Room :=
  if !r.initialized then (r, .error .closed)
  else
    let sqeFd := if r.idleAbortive fd then -1 else fd
    match r.nowaitPostOrDefer (r.nowaitFdOpMustPark fd) { data := .nowait .shutdown fd, fd := sqeFd }
        enter with
    | (r, .room) => (r.write fd (r.slots fd) (.issue (.nowait .shutdown fd) .shutdown sqeFd false), .room)
    | (r, .short) => (r, .short)
    | (r, .error e) => (r, .error e)

def tryDirectCancelNowait (target : Nat) (enter : Enter) : Ring × Room :=
  if !r.initialized then (r, .error .closed)
  else
    let r := if r.kind target = .sendAll then
        r.setBits target fun b => { b with abandon := true } else r
    r.nowaitPostOrDefer (r.nowaitCancelMustPark target) { data := .nowait .cancel (-1) } enter

def tryDirectPollRemoveNowait (enter : Enter) : Ring × Room :=
  if !r.initialized then (r, .error .closed)
  else r.nowaitPostOrDefer false { data := .nowait .pollRemove (-1) } enter

end Ring

end Pytealet.Uring
