import Mathlib.Logic.Function.Basic
import Mathlib.Data.Int.Basic
import Mathlib.Tactic.Simps.Basic

/-!
# Ring — completions, the per-fd table and the submission queue

The state of one `_uring_api.Ring` session, at the granularity of its critical section.

* A completion object is a number; `Handle` is what its constructor fixes, `Bits` what changes.
* `slots` is the fd table: the active `send_all` of a descriptor, its abortive mark and its conflict
  FIFO.
* `sq` holds the SQEs that the kernel has not taken, `kernel` the requests that still owe a CQE.
* `staged` are CQEs that were consumed and not packaged, `built` those whose delivery object is
  built and whose in-flight bookkeeping is still to come.

`log` is history: every write of the fd table and every SQE that is given to an operation, with the
slot before and after it; `accepted` and `drainErrors` are history too.  No function of the ring
reads them.
-/

namespace Pytealet.Uring

/-! ## Completions -/

/-- `UringApiPendingKind`, without the wake NOP of `break_wait`. -/
inductive Kind where
  | recv | recvMultishot | send | sendto | recvmsg | accept | connect | cancel | shutdown | close
  | sendmsg | socket | sendZc | sendmsgZc | recvBuf | poll | pollMultishot | pollRemove | read | write
  | openat | statx | statxFdsize | sendAll
  deriving DecidableEq, Repr

/-- The kinds whose constructors may set `URING_API_C_MULTISHOT`. -/
def Kind.mayRepeat : Kind → Bool
  | .recvMultishot | .pollMultishot | .accept => true
  | _ => false

def isZeroCopySendKind : Kind → Bool
  | .sendZc | .sendmsgZc => true
  | _ => false

def completionKindConflicts : Kind → Bool
  | .send | .sendAll | .sendZc | .sendmsg | .sendmsgZc | .close | .shutdown => true
  | _ => false

/-- `completion_kind_allows_skip_success` and `nowait_kind_ok`, which list the same kinds. -/
def nowaitKindOk : Kind → Bool
  | .close | .shutdown | .cancel | .pollRemove | .sendAll => true
  | _ => false

/-- What the constructor of a completion fixes. -/
structure Handle where
  kind : Kind
  fd : Int := -1
  /-- The `constructed` flag of the scalar, path and statx states. -/
  constructed : Bool := true
  /-- `cancel_target`, of a cancel or a poll_remove. -/
  target : Option Nat := none
  multishot : Bool := false
  /-- `view.len` of the kinds that have a buffer. -/
  length : Nat := 0
  multishot_kind : multishot = true → kind.mayRepeat = true := by decide
  deriving DecidableEq

/-- The bits, counters and fields of a completion that change. -/
structure Bits where
  skipSuccess : Bool := false
  skipAll : Bool := false
  /-- `has_link_timeout` -/
  timeout : Bool := false
  noDeliverMulti : Bool := false
  abandon : Bool := false
  prepared : Bool := false
  conflictQueued : Bool := false
  poison : Bool := false
  auxDecref : Bool := false
  auxRefcount : Int := 0
  /-- Bytes of a `send_all` that the kernel has taken. -/
  offset : Nat := 0
  res : Int := 0
  /-- In-flight references of the ring: those of `take_in_flight_ref` that are not dropped. -/
  inFlight : Int := 0
  /-- How often packaging has dropped the in-flight reference. -/
  released : Nat := 0
  deriving DecidableEq

def Bits.isAccepted (b : Bits) : Bool :=
  b.prepared || b.conflictQueued

/-! ## Submission queue entries -/

inductive UserData where
  | op (c : Nat)
  | nowait (kind : Kind) (fd : Int)
  | linkTimeout
  deriving DecidableEq, Repr

structure Sqe where
  data : UserData
  /-- The descriptor that the kernel acts on. -/
  fd : Int := -1
  /-- A multishot or zero-copy request: the kernel may post more than one CQE for it. -/
  multi : Bool := false
  /-- The length field of a `send_all` leg. -/
  len : Option Nat := none
  deriving DecidableEq, Repr

/-! ## The fd table -/

structure Slot where
  active : Option Nat := none
  abortive : Bool := false
  fifo : List Nat := []
  /-- History: the `send_all` that was active when the abortive mark was set. -/
  markedUnder : Option Nat := none
  deriving DecidableEq, Repr

/-- Why a slot was written, or which operation got an SQE: a completion, or a nowait operation that
has none. -/
inductive Cause where
  | opened
  | freed
  | park (c : Nat)
  | pop (c : Nat)
  | issue (op : UserData) (kind : Kind) (sqeFd : Int) (parked : Bool)
  | leg (c : Nat) (sqeFd : Int)
  | release (c : Nat) (res : Int) (skipAll : Bool)
  | abort (c : Nat)
  deriving DecidableEq, Repr

structure Entry where
  fd : Int
  before : Option Slot
  after : Option Slot
  cause : Cause
  deriving DecidableEq, Repr

/-- Why a call fails. -/
inductive Err where
  | closed            -- "ring is closed"
  | notCompletion     -- "prepare() items must be Completion objects"
  | notConstructed    -- "prepare() only accepts constructed completions"
  | alreadyPrepared   -- "completion is already prepared"
  | skipSuccessKind   -- "skip_success is only valid for close, shutdown, cancel, poll_remove, and send_all"
  | noConflictFd      -- "conflict enqueue is missing an fd"
  | noMemory          -- MemoryError
  | queueFull         -- SubmissionQueueFull "no submission queue entries available"
  | tooSmall          -- "requested %u free submission queue slots, but sq_entries is %u"
  | stuck             -- "failed to obtain an io_uring SQE slot after flushing …"
  | enter             -- OSError of io_uring_submit
  deriving DecidableEq, Repr

structure Staged where
  c : Nat
  res : Int
  more : Bool := false
  notif : Bool := false
  deriving DecidableEq, Repr

structure Ring where
  initialized : Bool := true
  entries : Nat
  makeRoom : Bool := true
  handle : Nat → Handle
  bits : Nat → Bits := fun _ => {}
  slots : Int → Option Slot := fun _ => none
  sq : List Sqe := []
  kernel : List Sqe := []
  staged : List Staged := []
  built : List Nat := []
  pendingCount : Int := 0
  log : List Entry := []
  /-- History: the completions in the order in which `prepare` accepted them. -/
  accepted : List Nat := []
  /-- History: the errors of FIFO drains that failed. -/
  drainErrors : List Err := []

/-- A ring after `__init__`, with the completions that the session will construct. -/
def Ring.init (entries : Nat) (makeRoom : Bool) (handle : Nat → Handle) : Ring :=
  { entries := entries, makeRoom := makeRoom, handle := handle }

namespace Ring

variable (r : Ring)

def kind (c : Nat) : Kind :=
  (r.handle c).kind

@[simps -fullyApplied]
def setBits (c : Nat) (f : Bits → Bits) : Ring :=
  { r with bits := Function.update r.bits c (f (r.bits c)) }

/-- All writes of the fd table, and the SQEs that are given to operations on `fd`. -/
@[simps -fullyApplied]
def write (fd : Int) (after : Option Slot) (cause : Cause) : Ring :=
  { r with
    slots := Function.update r.slots fd after
    log := r.log ++ [⟨fd, r.slots fd, after, cause⟩] }

@[simps -fullyApplied]
def noteAccepted (c : Nat) : Ring :=
  { r with accepted := r.accepted ++ [c] }

@[simps -fullyApplied]
def push (sqe : Sqe) : Ring :=
  { r with sq := r.sq ++ [sqe] }

/-- The kernel takes the first `n` SQEs of the queue. -/
@[simps -fullyApplied]
def enterKernel (n : Nat) : Ring :=
  { r with sq := r.sq.drop n, kernel := r.kernel ++ r.sq.take n }

/-! ## Reference and pending counts -/

/-- `send_all` always counts; `skip_all` of the other kinds is a tagged SQE and does not. -/
def completionCountsPending (c : Nat) : Bool :=
  if r.kind c = .sendAll then true else !(r.bits c).skipAll

@[simps -fullyApplied]
def pendingInc : Ring :=
  { r with pendingCount := r.pendingCount + 1 }

@[simps -fullyApplied]
def pendingDec : Ring :=
  { r with pendingCount := r.pendingCount - 1 }

def takeInFlightRef (c : Nat) : Ring :=
  (r.setBits c fun b => { b with inFlight := b.inFlight + 1 }).pendingInc

/-- `drop_parked_ring_ref`; the plain reference of a tagged nowait is not counted. -/
def dropParkedRingRef (c : Nat) : Ring :=
  if r.completionCountsPending c then
    (r.setBits c fun b => { b with inFlight := b.inFlight - 1 }).pendingDec
  else
    r

/-- `take_park_ref` of a new park. -/
def takeParkRef (c : Nat) : Ring :=
  if r.completionCountsPending c then r.takeInFlightRef c else r

/-! ## Lookups -/

/-- `completion_conflict_fd`: a cancel takes the descriptor of its target.  Targets are constructed
before the cancel, so the recursion is bounded by the completion's number. -/
def conflictFdFrom (handle : Nat → Handle) : Nat → Nat → Option Int
  | 0, _ => none
  | n + 1, c =>
    match (handle c).kind with
    | .send | .sendAll | .sendZc | .recv | .sendto | .sendmsg | .sendmsgZc | .recvmsg
    | .close | .shutdown => some (handle c).fd
    | .cancel | .pollRemove =>
      match (handle c).target with
      | some t => conflictFdFrom handle n t
      | none => none
    | _ => none

def conflictFd (c : Nat) : Option Int :=
  conflictFdFrom r.handle (c + 1) c

def isCancelOfActive (c : Nat) (slot : Slot) : Bool :=
  r.kind c = .cancel && slot.active.isSome && (r.handle c).target = slot.active

/-- The operation has to wait behind what the descriptor already has in progress. -/
def shouldEnqueueConflict (c : Nat) : Bool :=
  match r.conflictFd c with
  | none => false
  | some fd =>
    match r.slots fd with
    | none => false
    | some slot =>
      if slot.active = none ∧ slot.fifo = [] then false
      else if r.isCancelOfActive c slot then false
      else if completionKindConflicts (r.kind c) then true
      else if r.kind c ≠ .cancel then false
      else
        match (r.handle c).target with
        | none => false
        | some t => (r.bits t).conflictQueued

def nowaitCancelMustPark (target : Nat) : Bool :=
  match r.conflictFd target with
  | none => false
  | some fd =>
    match r.slots fd with
    | none => false
    | some slot =>
      if slot.active = none ∧ slot.fifo = [] then false
      else if slot.active = some target then false
      else (r.bits target).conflictQueued

def nowaitFdOpMustPark (fd : Int) : Bool :=
  match r.slots fd with
  | none => false
  | some slot => slot.active ≠ none || slot.fifo ≠ []

/-! ## Slots -/

/-- `fd_table_get`: the slot, made when it is not there; `alloc` is whether memory suffices. -/
def fdTableGet (fd : Int) (alloc : Bool) : Option Ring :=
  match r.slots fd with
  | some _ => some r
  | none => if alloc then some (r.write fd (some {}) .opened) else none

def fdTableTryFree (fd : Int) : Ring :=
  match r.slots fd with
  | none => r
  | some slot =>
    if slot.abortive = true ∨ slot.active ≠ none ∨ slot.fifo ≠ [] then r
    else r.write fd none .freed

/-- `fd_table_abort_pipeline`, where the scan of the table has come to the slot of `fd`: `c` is on
its FIFO or is its active `send_all`. -/
def abortPipeline (c : Nat) (fd : Int) : Ring :=
  match r.slots fd with
  | none => r
  | some slot =>
    if c ∈ slot.fifo ∨ slot.active = some c then
      r.write fd
        (some { slot with
          abortive := true
          markedUnder := if slot.abortive then slot.markedUnder else slot.active })
        (.abort c)
    else
      r

/-! ## Updates keep what they do not name -/

section Frame

variable (c : Nat) (f : Bits → Bits) (fd : Int) (after : Option Slot) (cause : Cause) (sqe : Sqe) (n : Nat)

@[simp]
theorem conflictFd_write : (r.write fd after cause).conflictFd = r.conflictFd := rfl

@[simp]
theorem kind_write : (r.write fd after cause).kind = r.kind := rfl

@[simp]
theorem kind_enterKernel : (r.enterKernel n).kind = r.kind := rfl

theorem completionCountsPending_congr {r r' : Ring} {d : Nat} (hhandle : r'.handle = r.handle)
    (hskip : (r'.bits d).skipAll = (r.bits d).skipAll) :
    r'.completionCountsPending d = r.completionCountsPending d := by
  unfold completionCountsPending kind
  rw [hhandle, hskip]

end Frame

end Ring

end Pytealet.Uring
