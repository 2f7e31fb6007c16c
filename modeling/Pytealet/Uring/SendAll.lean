import Pytealet.Uring.Prepare

/-!
# SendAll — legs of a `send_all` and the drain of a conflict FIFO

A `send_all` stays the active operation of its descriptor until its last leg.  Its completion then
copies the FIFO of the descriptor to the submission queue, up to the next `send_all`.
-/

namespace Pytealet.Uring

def enomem : Int := 12
def eio : Int := 5
def ecanceled : Int := 125
def intMax : Nat := 2147483647

/-- What becomes of a CQE that is packaged. -/
inductive Delivery where
  | ready
  | internal
  | failed (e : Err)
  deriving DecidableEq, Repr

/-- What the environment decides while one CQE is packaged. -/
structure BuildFate where
  /-- Memory for the result objects. -/
  memory : Bool := true
  /-- The next leg of a `send_all`. -/
  leg : Fate := {}
  /-- The copies off the FIFO. -/
  drain : List Fate := []
  deriving DecidableEq, Repr

inductive Leg where
  | filled
  | abandoned
  | failed (e : Err)
  deriving DecidableEq, Repr

namespace Ring

variable (r : Ring)

/-! ## The drain -/

/-- `fd_table_fifo_pop`, and the queued bit of what was popped. -/
def popParked (fd : Int) : Ring :=
  match r.slots fd with
  | none => r
  | some slot =>
    match slot.fifo with
    | [] => r
    | c :: rest =>
      (r.write fd (some { slot with fifo := rest }) (.pop c)).setBits c
        fun b => { b with conflictQueued := false }

/-- `drain_fd_slot`; every pass takes one entry, so the length of the FIFO bounds the loop. -/
def drainFdSlot (fd : Int) : Nat → Ring → List Fate → Ring × Option Err
  | 0, r, _ => (r.fdTableTryFree fd, none)
  | n + 1, r, fates =>
    match r.slots fd with
    | none => (r, none)
    | some slot =>
      match slot.fifo with
      | [] => (r.fdTableTryFree fd, none)
      | c :: _ =>
        if slot.active ≠ none ∧ r.isCancelOfActive c slot = false then
          (r.fdTableTryFree fd, none)
        else
          match r.prepareOneConstructedEx c true true (fates.headD {}) with
          | (r, none) => drainFdSlot fd n (r.popParked fd) fates.tail
          | (r, some e) => ({ r with drainErrors := r.drainErrors ++ [e] }, some e)

def sendAllReleaseActive (c : Nat) (fates : List Fate) : Ring × Option Err :=
  let fd := (r.handle c).fd
  match r.slots fd with
  | none => (r, none)
  | some slot =>
    if slot.active = some c then
      -- only a nowait drain that failed marks the descriptor
      let failed := (r.bits c).res < 0 && (r.bits c).skipAll
      let released : Slot :=
        { slot with
          active := none
          abortive := slot.abortive || failed
          markedUnder := if slot.abortive then slot.markedUnder else none }
      let r := r.write fd (some released) (.release c (r.bits c).res (r.bits c).skipAll)
      if slot.fifo = [] then (r.fdTableTryFree fd, none)
      else drainFdSlot fd slot.fifo.length r fates
    else
      (r, none)

/-! ## Legs -/

def noteLeg (c : Nat) : Ring :=
  r.write (r.handle c).fd (r.slots (r.handle c).fd) (.leg c (r.sendAllFillSqe c true).fd)

def sendAllTryNextLeg (c : Nat) (fate : Fate) : Ring × Leg :=
  if !r.initialized then (r, .failed .closed)
  else if (r.bits c).abandon then (r, .abandoned)
  else
    match r.reserveSqes c true fate.enter with
    | (r, .short) => (r, .failed .queueFull)
    | (r, .error e) => (r, .failed e)
    | (r, .room) =>
      let r' := r.push (r.sendAllFillSqe c true)
      if (r.bits c).timeout then
        match r'.fillLinkTimeout fate.timer with
        | (r', true) => (r'.noteLeg c, .filled)
        | (r', false) => (r', .failed .noMemory)
      else
        (r'.noteLeg c, .filled)

/-! ## The CQE of a leg -/

def skipSuccessOmitDelivery (c : Nat) (res : Int) : Bool :=
  if (r.bits c).skipAll then true
  else if !(r.bits c).skipSuccess then false
  else 0 ≤ res

def setAuxDecref (c : Nat) : Ring :=
  r.setBits c fun b => { b with auxDecref := true }

def setRes (c : Nat) (res : Int) : Ring :=
  r.setBits c fun b => { b with res := res }

/-- `send_all_abort_unparked`: the leg was not submitted. -/
def sendAllAbortUnparked (c : Nat) (e : Err) (fates : List Fate) : Ring × Delivery :=
  let r := (r.setAuxDecref c).setRes c (if e = .noMemory then -enomem else -eio)
  ((r.sendAllReleaseActive c fates).1, .failed e)

/-- The end of `send_all_on_cqe`: record the result, release the descriptor, say what is
delivered. -/
def sendAllComplete (c : Nat) (res : Int) (fate : BuildFate) : Ring × Delivery :=
  let r := r.setRes c res
  if 0 ≤ res ∧ fate.memory = false then
    ((r.sendAllReleaseActive c fate.drain).1, .failed .noMemory)
  else
    match r.sendAllReleaseActive c fate.drain with
    | (r, some e) => (r, .failed e)
    | (r, none) => (r, if r.skipSuccessOmitDelivery c res then .internal else .ready)

/-- A cancel won over the next leg.  A partial success was staged as not terminal when the mark came
after that. -/
def sendAllCancelled (c : Nat) (res : Int) (fate : BuildFate) : Ring × Delivery :=
  (if 0 < res then r.setAuxDecref c else r).sendAllComplete c (-ecanceled) fate

def sendAllOnCqe (c : Nat) (res : Int) (fate : BuildFate) : Ring × Delivery :=
  let r := r.setBits c fun b => { b with offset := b.offset + res.toNat }
  if res < 0 then r.sendAllComplete c res fate
  else if r.sendAllRemaining c = 0 then
    r.sendAllComplete c (min (r.bits c).offset intMax : Nat) fate
  else if (r.bits c).abandon then r.sendAllCancelled c res fate
  else
    match r.sendAllTryNextLeg c fate.leg with
    | (r, .filled) => (r, .internal)
    | (r, .abandoned) => r.sendAllCancelled c res fate
    | (r, .failed e) => r.sendAllAbortUnparked c e fate.drain

end Ring

end Pytealet.Uring
