import Pytealet.Lib.Transition
import Pytealet.Lib.Heapq
import Mathlib.Data.List.Basic
import Mathlib.Algebra.Order.Group.Unbundled.Int

/-!
# RecvIterBuffer — the inbound queue of `io_buffers.py`

A `RecvIterBuffer` starts legs of `recv_many`.  A leg numbers its deliveries from the base it was
started with; they are marshalled to the scheduler and may arrive there in any order.  A
`ReorderBuffer` hands them on by index, into the queue `_ready` of the consumer.  A leg ends with a
delivery without `more`: with data, at the end of the stream, with `ENOBUFS`, or with another error.
After data or `ENOBUFS` the next `take_next` of the consumer starts another leg, once the pool is at
low water.

The buffer is used on one thread; the steps are what happens between two switches.  While
`recv_many` runs, the call that started it is in one of the phases `opening`, `resuming` and
`returning`.  A leg that completes before `recv_many` returns is a delivery that arrives before the
next step of the consumer.

`Trace` is kept for the statements only.
-/

namespace Pytealet.Io.RecvIter

open Lib Lib.Transition

/-! ## Deliveries -/

/-- The exceptions that are told apart: `OSError` with `ENOBUFS`, with `ECANCELED`, and others. -/
inductive Exc (ε : Type*)
  | enobufs
  | cancelled
  | other (e : ε)
  deriving DecidableEq, Repr

/-- `MultishotDelivery`. -/
structure Delivery (β ε : Type*) where
  index : Int
  value : Option (List β)
  exception : Option (Exc ε)
  more : Bool
  deriving DecidableEq, Repr

/-- What the io layer completes: data (at least one byte), with the flag `more`; the end of the
stream; or an error. -/
inductive Completion (β ε : Type*)
  | data (byte : β) (bytes : List β) (more : Bool)
  | eof
  | error (e : Exc ε)
  deriving DecidableEq, Repr

variable {β ε : Type*}

def recvManyCqe (index : Int) : Completion β ε → Delivery β ε
  | .data byte bytes more =>
    { index := index, value := some (byte :: bytes), exception := none, more := more }
  | .eof => { index := index, value := some [], exception := none, more := false }
  | .error e => { index := index, value := some [], exception := some e, more := false }

namespace Delivery

/-- `_is_enobufs_delivery`. -/
def isEnobufs (d : Delivery β ε) : Bool :=
  match d.exception with
  | some .enobufs => true
  | _ => false

/-- The value is not empty. -/
def hasData (d : Delivery β ε) : Bool :=
  match d.value with
  | some (_ :: _) => true
  | _ => false

/-- `take_next` raises, or returns `None`. -/
def terminal (d : Delivery β ε) : Bool :=
  d.exception.isSome || !d.hasData

/-- The chunk of a delivery that is not a terminal. -/
def chunk (d : Delivery β ε) : List (List β) :=
  if d.terminal then [] else [d.value.getD []]

/-- `ENOBUFS` after `close` is a cancellation. -/
def cancelled (d : Delivery β ε) : Delivery β ε :=
  { d with exception := some .cancelled, more := false }

end Delivery

/-! ## The buffer -/

/-- The fields of the buffer and of its `ReorderBuffer` (`delivered` and `heap`).  A handle is the
number of the leg. -/
structure Buffer (β ε : Type*) where
  delivered : Int
  heap : Array (Delivery β ε)
  ready : List (Delivery β ε)
  pressurePending : Bool
  nextBase : Int
  currentOperation : Option Nat
  recvEnded : Bool
  closed : Bool
  deriving DecidableEq, Repr

namespace Buffer

def empty : Buffer β ε where
  delivered := 0
  heap := #[]
  ready := []
  pressurePending := false
  nextBase := 0
  currentOperation := none
  recvEnded := false
  closed := false

/-- `_schedule_resubmit`, with `arm_next_index`. -/
def scheduleResubmit (b : Buffer β ε) (baseSequence : Int) : Buffer β ε :=
  { b with
    nextBase := baseSequence
    currentOperation := none
    delivered := baseSequence - 1 }

/-- The last part of `_on_ordered_delivery`: a leg that is not followed by another. -/
def finishLeg (b : Buffer β ε) (finish : Bool) (d : Delivery β ε) : Buffer β ε :=
  if finish && !(d.hasData && !b.closed) then
    { b with currentOperation := none, recvEnded := true }
  else
    b

/-- `_on_ordered_delivery`; the flag is whether the consumer is notified. -/
def onOrderedDelivery (b : Buffer β ε) (d : Delivery β ε) : Buffer β ε × Bool :=
  if d.isEnobufs then
    if b.closed then
      -- the leg was cancelled; the consumer sees that, not the exhausted pool
      (({ b with ready := b.ready ++ [d.cancelled] } : Buffer β ε).finishLeg (!d.more) d.cancelled,
        true)
    else
      -- nothing is put into `_ready`: the index of the `ENOBUFS` is used by the next leg
      ({ b.scheduleResubmit d.index with pressurePending := true }, !b.pressurePending)
  else
    let b₁ : Buffer β ε := { b with ready := b.ready ++ [d] }
    let b₂ := if !d.more && d.hasData && !b.closed then b₁.scheduleResubmit (d.index + 1) else b₁
    (b₂.finishLeg (!d.more) d, true)

/-- The callback of `_deliver_now`, and the count. -/
def handOff (b : Buffer β ε) (d : Delivery β ε) : Buffer β ε × Bool :=
  let r := b.onOrderedDelivery d
  -- `arm_next_index` has made up for this increment
  ({ r.1 with delivered := r.1.delivered + 1 }, r.2)

/-- The loop of `_deliver_now`: the heap is handed on as far as it goes.  Its size is fuel
enough. -/
def drain : Nat → Buffer β ε → Buffer β ε × Bool
  | 0, b => (b, false)
  | fuel + 1, b =>
    match b.heap[0]? with
    | none => (b, false)
    | some root =>
      if root.index = b.delivered then
        match Heapq.heappop Delivery.index b.heap with
        | none => (b, false)
        | some (pending, rest) =>
          let r := ({ b with heap := rest } : Buffer β ε).handOff pending
          let r' := drain fuel r.1
          (r'.1, r.2 || r'.2)
      else
        (b, false)

/-- `ReorderBuffer.deliver`. -/
def deliver (b : Buffer β ε) (d : Delivery β ε) : Buffer β ε × Bool :=
  if d.index = b.delivered then
    let r := b.handOff d
    let r' := drain r.1.heap.size r.1
    (r'.1, r.2 || r'.2)
  else
    ({ b with heap := Heapq.heappush Delivery.index b.heap d }, false)

/-- `_should_resubmit`; `low` is `_pool_at_low_water`. -/
def shouldResubmit (b : Buffer β ε) (low : Bool) : Bool :=
  b.ready.isEmpty && b.heap.isEmpty && low

/-- `consume_pressure_resume` starts a leg. -/
def resumes (b : Buffer β ε) (low : Bool) : Bool :=
  !(b.closed || b.recvEnded || b.currentOperation.isSome || !b.shouldResubmit low)

end Buffer

/-- What `_take_next_ready` finds. -/
inductive Item (β ε : Type*)
  | pressure
  | delivery (d : Delivery β ε)
  deriving DecidableEq, Repr

/-- `_take_next_ready`; whether the delivery is raised or returned is told by `terminal`. -/
def Buffer.takeNextReady (b : Buffer β ε) : Option (Item β ε × Buffer β ε) :=
  if b.pressurePending then
    some (.pressure, { b with pressurePending := false })
  else
    match b.ready with
    | d :: ready => some (.delivery d, { b with ready := ready })
    | [] => none

/-! ## The consumer and the legs -/

/-- Where the consumer is: in the constructor, inside `recv_many`; between two calls of `take_next`;
in the first `consume_pressure_resume`, inside `recv_many`; about to test the predicate; parked;
woken; in the second `consume_pressure_resume`, inside `recv_many` and with the item in hand; or
done, after a terminal. -/
inductive Phase (β ε : Type*)
  | opening (base : Int)
  | idle
  | resuming (base : Int)
  | checking
  | parked
  | woken
  | returning (base : Int) (item : Item β ε)
  | finished
  deriving DecidableEq, Repr

namespace Phase

/-- `PulseEvent.set`. -/
def wake : Phase β ε → Phase β ε
  | .parked => .woken
  | p => p

/-- The base of the leg that `recv_many` is about to start. -/
def base : Phase β ε → Option Int
  | .opening base | .resuming base | .returning base _ => some base
  | _ => none

/-- The delivery in hand. -/
def hand : Phase β ε → List (Delivery β ε)
  | .returning _ (.delivery d) => [d]
  | _ => []

end Phase

/-- A leg that is live: its number, and the index of its next delivery. -/
structure Leg where
  id : Nat
  next : Int
  deriving DecidableEq, Repr

/-- The deliveries of all legs in the order in which they were received, with the numbers of their
legs; those that the consumer took from `_ready`; and those that it was given. -/
structure Trace (β ε : Type*) where
  emitted : List (Nat × Delivery β ε)
  taken : List (Delivery β ε)
  given : List (Delivery β ε)
  deriving DecidableEq, Repr

/-- The buffer, the consumer, the legs, the deliveries on their way to the scheduler, and the number
of legs so far. -/
structure State (β ε : Type*) where
  buf : Buffer β ε
  phase : Phase β ε
  legs : List Leg
  flight : List (Delivery β ε)
  started : Nat
  trace : Trace β ε
  deriving DecidableEq, Repr

/-- The constructor, inside its call of `recv_many`. -/
def init : State β ε where
  buf := .empty
  phase := .opening 0
  legs := []
  flight := []
  started := 0
  trace := { emitted := [], taken := [], given := [] }

/-! ## Steps -/

/-- What `recv_many` does: it arms a leg, it finds the pool exhausted and delivers `ENOBUFS` at
once, or it raises. -/
inductive Armed
  | armed
  | refused
  | raises
  deriving DecidableEq, Repr

/-- What can happen next.  `low` is what `_pool_at_low_water` says. -/
inductive Act (β ε : Type*)
  | arm (r : Armed)
  | emit (k : Nat) (c : Completion β ε)
  | handle (k : Nat)
  | takeNext (low : Bool)
  | check (low : Bool)
  | close
  deriving DecidableEq, Repr

namespace State

/-- A delivery arrives on the scheduler. -/
def deliver (s : State β ε) (d : Delivery β ε) : State β ε :=
  let r := s.buf.deliver d
  { s with
    buf := r.1
    phase := if r.2 then s.phase.wake else s.phase }

/-- `set_op` of a new leg: it is stored, unless the buffer is closed and the leg is cancelled. -/
def setOp (s : State β ε) : State β ε :=
  { s with
    buf := if s.buf.closed then s.buf else { s.buf with currentOperation := some s.started }
    started := s.started + 1 }

/-- `recv_many` arms a leg. -/
def armed (s : State β ε) (base : Int) : State β ε :=
  { s.setOp with legs := s.legs ++ [⟨s.started, base⟩] }

/-- `recv_many` delivers `ENOBUFS`. -/
def refused (s : State β ε) (base : Int) : State β ε :=
  let d : Delivery β ε := recvManyCqe base (.error .enobufs)
  let s₁ : State β ε :=
    { s.setOp with trace := { s.trace with emitted := s.trace.emitted ++ [(s.started, d)] } }
  s₁.deliver d

/-- `recv_many` raises. -/
def raises (s : State β ε) : State β ε :=
  { s with buf := { s.buf with currentOperation := none } }

/-- `take_next` returns, or raises the exception of the delivery. -/
def give (s : State β ε) : Item β ε → State β ε
  | .pressure => { s with phase := .idle }
  | .delivery d =>
    { s with
      phase := if d.terminal then .finished else .idle
      trace := { s.trace with given := s.trace.given ++ [d] } }

/-- The second `consume_pressure_resume`; an exception is raised before it. -/
def resumeWith (s : State β ε) (low : Bool) (item : Item β ε) : State β ε :=
  let raised :=
    match item with
    | .pressure => false
    | .delivery d => d.exception.isSome
  if !raised && s.buf.resumes low then
    { s with phase := .returning s.buf.nextBase item }
  else
    s.give item

/-- The predicate of `swait_for`, and what follows. -/
def check (s : State β ε) (low : Bool) : State β ε :=
  match s.buf.takeNextReady with
  | none => { s with phase := .parked }
  | some (.pressure, b) => ({ s with buf := b } : State β ε).resumeWith low .pressure
  | some (.delivery d, b) =>
    ({ s with
      buf := b
      trace := { s.trace with taken := s.trace.taken ++ [d] } } : State β ε).resumeWith low
        (.delivery d)

def close (s : State β ε) : State β ε :=
  if s.buf.closed then s
  else
    let b : Buffer β ε := { s.buf with closed := true, pressurePending := false }
    match b.currentOperation with
    | some _ => { s with buf := { b with currentOperation := none } }
    | none =>
      -- no leg will end any more, so the terminal is delivered here
      ({ s with buf := b } : State β ε).deliver
        { index := b.delivered, value := none, exception := some .cancelled, more := false }

end State

def step (s : State β ε) : Act β ε → Option (State β ε)
  | .arm r =>
    match s.phase, r with
    | .opening base, .armed => some { s.armed base with phase := .idle }
    | .opening base, .refused => some (({ s with phase := .idle } : State β ε).refused base)
    | .opening _, .raises => some { s.raises with phase := .finished }
    | .resuming base, .armed => some { s.armed base with phase := .checking }
    | .resuming base, .refused => some (({ s with phase := .checking } : State β ε).refused base)
    | .resuming _, .raises => some { s.raises with phase := .idle }
    | .returning base item, .armed => some ((s.armed base).give item)
    | .returning base item, .refused => some ((s.refused base).give item)
    | .returning _ _, .raises => some { s.raises with phase := .idle }
    | _, _ => none
  | .emit k c =>
    match s.legs[k]? with
    | some leg =>
      let d := recvManyCqe leg.next c
      some
        { s with
          -- a leg is over with its first delivery without `more`
          legs := if d.more then s.legs.set k ⟨leg.id, leg.next + 1⟩ else s.legs.eraseIdx k
          flight := s.flight ++ [d]
          trace := { s.trace with emitted := s.trace.emitted ++ [(leg.id, d)] } }
    | none => none
  | .handle k =>
    match s.flight[k]? with
    | some d => some (({ s with flight := s.flight.eraseIdx k } : State β ε).deliver d)
    | none => none
  | .takeNext low =>
    match s.phase with
    | .idle =>
      if s.buf.resumes low then
        -- the predicate is tested when `recv_many` has returned
        some { s with phase := .resuming s.buf.nextBase }
      else
        some (s.check low)
    | _ => none
  | .check low =>
    match s.phase with
    | .checking | .woken => some (s.check low)
    | _ => none
  | .close => some s.close

end Pytealet.Io.RecvIter
