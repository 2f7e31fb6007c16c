import Pytealet.Lib.Transition
import Pytealet.Lib.Tally
import Mathlib.Data.List.Basic
import Mathlib.Algebra.Order.Group.Unbundled.Int

/-!
# SendBuffer — the outbound queue of `io_buffers.py`

A `SendBuffer` collects the bytes of `write` and hands them to the io layer in legs.  Its fields are
read and written under the lock of a condition variable; the calls of the io layer, and the waits of
`drain` and `flush`, are outside of it.  So a call of the buffer is a sequence of critical sections
with io calls between them, and calls of other tealets, completions and errors come in between.

A call that is under way is a stack of frames, the innermost first: a frame is the point at which
the call goes on.  A submit whose leg completes before it returns runs the completion callback on
its own stack.  An exception unwinds the stack up to the `except` of `on_done`.

`Trace` is kept for the statements only: the bytes of the accepted writes, the bytes handed over (to
a leg or to a thief), and what was asked of the socket.
-/

namespace Pytealet.Io.SendBuffer

open Lib Lib.Transition

/-! ## Data -/

/-- The two calls that wait on the condition. -/
inductive Wait
  | drain
  | flush
  deriving DecidableEq, Repr

/-- The exceptions that the buffer makes itself, and the classes of exceptions that it tests for:
`OSError`, and `KeyboardInterrupt` or `SystemExit`. -/
structure Errors (ε : Type*) where
  closed : ε
  afterEof : ε
  limits : ε
  isOSError : ε → Bool
  isInterrupt : ε → Bool

/-- The fields of the buffer. -/
structure Buffer (β ε : Type*) where
  pending : Option (List β)
  pendingBytes : Nat
  inFlightBytes : Nat
  active : Bool
  sendError : Option ε
  closed : Bool
  eofPending : Bool
  writeEofDone : Bool
  closeWhenIdle : Bool
  highWater : Int
  lowWater : Int
  minWrite : Nat
  deriving DecidableEq, Repr

/-- Where a call goes on.  The frames of `_submit_leg` are `submit` (the io call is next), `failed`
(the io call has raised), `finish` (`sock_send_nowait` has returned) and `inCall` (a completion runs
inside `sock_sendall_cb`); those of a completion are `complete` (`_on_leg_complete`), `onDone`, and
`handler`, the `except` of `on_done`.  `fireForget` and `closeQuiet` are `_on_fire_forget_error`;
`check` is the second section of `drain` and `flush`; and `steal`, `arm`, `sendClose` and
`close true` are the steps of `wait_closed` of the stream writer. -/
inductive Frame (β ε : Type*)
  | submit (chunk : List β) (wait : Bool)
  | failed (chunk : List β) (e : ε)
  | finish
  | inCall (callbackError : Option ε)
  | complete (exception : Option ε)
  | onDone
  | handler (e : ε)
  | fireForget (e : ε)
  | close (writer : Bool)
  | closeQuiet
  | check (w : Wait)
  | parked (w : Wait) (notified : Bool)
  | steal
  | arm
  | sendClose (chunk : List β)
  deriving DecidableEq, Repr

/-- What an io call does: it returns, it raises, or (a leg of `sock_sendall_cb`) its completion runs
before it returns. -/
inductive Reply (ε : Type*)
  | ok
  | raises (e : ε)
  | eager (exception : Option ε)
  deriving DecidableEq, Repr

/-- The exception of a reply. -/
def Reply.fault {ε : Type*} : Reply ε → Option ε
  | .raises e => some e
  | _ => none

/-- What held when `sock_shutdown_nowait(SHUT_WR)` was called. -/
structure Shot (β : Type*) where
  eofPending : Bool
  reserved : Nat
  pending : List β
  legFailed : Bool
  handedOver : List β
  accepted : List β
  deriving DecidableEq, Repr

structure Trace (β : Type*) where
  accepted : List β
  handedOver : List β
  legFailed : Bool
  atEof : Option (List β)
  shutdowns : List (Shot β)
  closes : Nat
  armed : Bool
  deriving DecidableEq, Repr

/-- The buffer, the calls under way, the legs of `sock_sendall_cb` whose completion has not come
yet, the legs of `sock_send_nowait` that may still report an error, the socket, and the flag
`_closed` of the stream writer. -/
structure State (β ε : Type*) where
  buf : Buffer β ε
  calls : List (List (Frame β ε))
  awaiting : Nat
  silent : Nat
  sockOpen : Bool
  writerClosed : Bool
  trace : Trace β
  deriving DecidableEq, Repr

variable {β ε : Type*}

def init (highWater lowWater : Int) (minWrite : Nat) : State β ε where
  buf :=
    { pending := none, pendingBytes := 0, inFlightBytes := 0, active := false, sendError := none,
      closed := false, eofPending := false, writeEofDone := false, closeWhenIdle := false,
      highWater := highWater, lowWater := lowWater, minWrite := minWrite }
  calls := []
  awaiting := 0
  silent := 0
  sockOpen := true
  writerClosed := false
  trace :=
    { accepted := [], handedOver := [], legFailed := false, atEof := none, shutdowns := [],
      closes := 0, armed := false }

/-! ## Fields -/

namespace Buffer

/-- The backlog. -/
def held (b : Buffer β ε) : List β :=
  b.pending.getD []

/-- `_drain_ready` and `_flush_ready`, when there is no error to raise. -/
def ready (b : Buffer β ε) : Wait → Bool
  | .drain => decide (((b.pendingBytes + b.inFlightBytes : Nat) : Int) ≤ b.lowWater)
  | .flush => !b.active && b.pendingBytes == 0 && b.inFlightBytes == 0

def appendPending (b : Buffer β ε) (data : List β) : Buffer β ε :=
  match b.pending with
  | none => { b with pending := some data, pendingBytes := data.length }
  | some pending =>
    { b with pending := some (pending ++ data), pendingBytes := (pending ++ data).length }

def prependPending (b : Buffer β ε) (chunk : List β) : Buffer β ε :=
  match b.pending with
  | none => { b with pending := some chunk, pendingBytes := chunk.length }
  | some pending =>
    { b with pending := some (chunk ++ pending), pendingBytes := (chunk ++ pending).length }

def takePending (b : Buffer β ε) : Buffer β ε × Option (List β) :=
  match b.pending with
  | none => ({ b with pending := none, pendingBytes := 0 }, none)
  -- an empty backlog is dropped, and makes no leg
  | some [] => ({ b with pending := none, pendingBytes := 0 }, none)
  | some (x :: xs) =>
    ({ b with pending := none, pendingBytes := 0, inFlightBytes := (x :: xs).length },
      some (x :: xs))

def reserveLeg (b : Buffer β ε) (force : Bool) : Buffer β ε × Option (List β) :=
  if b.active = true ∨ b.sendError.isSome = true then
    (b, none)
  else if b.held = [] then
    (b, none)
  else if force = false ∧ b.pendingBytes < b.minWrite then
    -- the bytes are held back until there are more of them
    (b, none)
  else
    takePending { b with active := true }

def markEof (b : Buffer β ε) : Buffer β ε :=
  { b with eofPending := true }

/-- `_maybe_shutdown` calls `sock_shutdown_nowait`. -/
def shuts (b : Buffer β ε) : Bool :=
  !b.writeEofDone && b.eofPending && !b.active && b.pendingBytes == 0 && b.inFlightBytes == 0

/-- `_maybe_shutdown`, where that call raises `fault`. -/
def maybeShutdown (b : Buffer β ε) (x : Errors ε) (fault : Option ε) : Buffer β ε :=
  if b.shuts then
    { b with
      writeEofDone := true
      -- an `OSError` is remembered as well as raised
      sendError := (fault.filter x.isOSError).or b.sendError }
  else
    b

/-- The exception that `_maybe_shutdown` raises. -/
def shutdownError (b : Buffer β ε) (fault : Option ε) : Option ε :=
  if b.shuts then fault else none

end Buffer

/-! ## Critical sections -/

/-- What a critical section leaves: the fields, whether it has notified the waiters and called
`sock_shutdown_nowait`, and how its call goes on: with these frames, or with an exception. -/
structure Section (β ε : Type*) where
  buf : Buffer β ε
  notify : Bool
  shut : Bool
  next : Except ε (List (Frame β ε))

/-- A section that changes nothing. -/
def Section.pass (b : Buffer β ε) (next : Except ε (List (Frame β ε))) : Section β ε where
  buf := b
  notify := false
  shut := false
  next := next

/-- The frames of a leg that was reserved, if any. -/
def submitFrames (wait : Bool) : Option (List β) → List (Frame β ε)
  | some chunk => [.submit chunk wait]
  | none => []

/-- The section of `write`. -/
def writeSection (x : Errors ε) (b : Buffer β ε) (data : List β) : Section β ε :=
  match b.sendError with
  | some e => .pass b (.error e)
  | none =>
    if b.closed then
      .pass b (.error x.closed)
    else if b.eofPending then
      .pass b (.error x.afterEof)
    else
      let r := (b.appendPending data).reserveLeg false
      -- the leg is submitted outside of the lock
      .pass r.1 (.ok (submitFrames true r.2))

/-- The first section of `drain`. -/
def drainSection (b : Buffer β ε) : Section β ε :=
  match b.sendError with
  | some e => .pass b (.error e)
  | none =>
    let r := b.reserveLeg true
    let overHigh := r.1.highWater < ((r.1.pendingBytes + r.1.inFlightBytes : Nat) : Int)
    .pass r.1 (.ok (submitFrames false r.2 ++ if overHigh then [.check .drain] else []))

/-- The first section of `flush`. -/
def flushSection (b : Buffer β ε) : Section β ε :=
  match b.sendError with
  | some e => .pass b (.error e)
  | none =>
    let r := b.reserveLeg true
    .pass r.1 (.ok (submitFrames false r.2 ++ [.check .flush]))

/-- The second section of `drain` and `flush`, and the section of a waiter that was notified: the
predicate raises, holds, or the tealet parks. -/
def checkSection (b : Buffer β ε) (w : Wait) : Section β ε :=
  match b.sendError with
  | some e => .pass b (.error e)
  | none => .pass b (.ok (if b.ready w then [] else [.parked w false]))

/-- `write_eof` with no leg to send. -/
def shutdownSection (x : Errors ε) (b : Buffer β ε) (fault : Option ε) : Section β ε where
  buf := b.maybeShutdown x fault
  notify := true
  shut := b.shuts
  next :=
    match b.shutdownError fault with
    | some e => .error e
    | none => .ok []

/-- The section of `write_eof`; `fault` is what `sock_shutdown_nowait` raises. -/
def writeEofSection (x : Errors ε) (b : Buffer β ε) (fault : Option ε) : Section β ε :=
  if b.closed then
    .pass b (.error x.closed)
  else
    match b.sendError with
    | some e => .pass b (.error e)
    | none =>
      if b.eofPending then
        .pass b (.ok [])
      else
        -- what is held back is sent first, and the leg shuts down when it ends
        match b.markEof.reserveLeg true with
        | (b', none) => shutdownSection x b' fault
        | (b', some chunk) =>
          { buf := b', notify := true, shut := false, next := .ok [.submit chunk false] }

/-- `close`. -/
def closeSection (b : Buffer β ε) : Section β ε :=
  if b.closed then
    .pass b (.ok [])
  else
    { buf := { b with closed := true }, notify := true, shut := false, next := .ok [] }

def defaultHighWater : Int :=
  64 * 1024

/-- The limits `(high, low)` that `_set_write_buffer_limits` works out. -/
def writeBufferLimits (high low : Option Int) : Int × Int :=
  let high' :=
    match high, low with
    | some h, _ => h
    | none, some l => 4 * l
    | none, none => defaultHighWater
  (high', low.getD (high' / 4))

/-- `set_write_buffer_limits`. -/
def limitsSection (x : Errors ε) (b : Buffer β ε) (high low : Option Int) : Section β ε :=
  let limits := writeBufferLimits high low
  if limits.1 < limits.2 ∨ limits.2 < 0 then
    .pass b (.error x.limits)
  else
    { buf := { b with highWater := limits.1, lowWater := limits.2 }
      notify := true
      shut := false
      next := .ok [] }

/-- The `except` of `_submit_leg` around the io call. -/
def failedSection (b : Buffer β ε) (chunk : List β) (e : ε) : Section β ε where
  buf :=
    { b.prependPending chunk with
      active := false
      inFlightBytes := 0
      sendError := some e }
  notify := true
  shut := false
  next := .error e

/-- The buffer becomes idle: it shuts down the write side if it must, and the call closes the socket
if the buffer was armed. -/
def goIdle (x : Errors ε) (b : Buffer β ε) (fault : Option ε) : Section β ε :=
  let b₁ : Buffer β ε := { b with active := false }
  match b₁.shutdownError fault with
  | some e =>
    -- `_maybe_shutdown` raises before `close_now` is read
    { buf := b₁.maybeShutdown x fault, notify := true, shut := b₁.shuts, next := .error e }
  | none =>
    { buf := { b₁.maybeShutdown x fault with closeWhenIdle := false }
      notify := true
      shut := b₁.shuts
      next := .ok (if b₁.closeWhenIdle then [.close false] else []) }

/-- The end of a leg: the backlog becomes the next leg, or the buffer becomes idle. -/
def endLeg (x : Errors ε) (b : Buffer β ε) (wait : Bool) (fault : Option ε) : Section β ε :=
  match b.takePending with
  | (b', some chunk) =>
    { buf := b', notify := true, shut := false, next := .ok [.submit chunk wait] }
  | (b', none) => goIdle x b' fault

/-- The section of `_submit_leg` after `sock_send_nowait`. -/
def finishSection (x : Errors ε) (b : Buffer β ε) (fault : Option ε) : Section β ε :=
  match b.sendError with
  | some _ =>
    { buf := { b with active := false, inFlightBytes := 0 }
      notify := true
      shut := false
      next := .ok [] }
  | none => endLeg x { b with inFlightBytes := 0 } false fault

/-- The section of `_on_leg_complete`. -/
def completeSection (x : Errors ε) (b : Buffer β ε) (exception : Option ε) (fault : Option ε) :
    Section β ε :=
  let b₁ : Buffer β ε := { b with inFlightBytes := 0, sendError := exception.or b.sendError }
  match b₁.sendError with
  | none => endLeg x b₁ true fault
  -- the backlog stays where it is
  | some _ => goIdle x b₁ fault

/-- The `except` of `on_done`. -/
def handlerSection (b : Buffer β ε) (e : ε) : Section β ε where
  buf :=
    { b with
      sendError := b.sendError.or (some e)
      -- another leg may be under way already
      active := if b.inFlightBytes = 0 then false else b.active }
  notify := true
  shut := false
  next := .ok []

/-- The section of `_on_fire_forget_error`. -/
def fireForgetSection (b : Buffer β ε) (e : ε) : Section β ε where
  buf :=
    { b with
      sendError := b.sendError.or (some e)
      closed := true
      active := false
      inFlightBytes := 0 }
  notify := true
  shut := false
  next := .ok [.closeQuiet]

/-- `steal_pending` of `wait_closed`: `sock_send_close` is next if bytes were stolen. -/
def stealSection (b : Buffer β ε) : Section β ε :=
  match b.sendError with
  | some e => .pass b (.error e)
  | none =>
    if b.active then
      .pass b (.ok [.arm])
    else
      .pass { b with pending := none, pendingBytes := 0 }
        (.ok (if b.held = [] then [.arm] else [.sendClose b.held]))

/-- The bytes that `steal_pending` takes. -/
def stolen (b : Buffer β ε) : List β :=
  if b.sendError.isSome = true ∨ b.active = true then [] else b.held

/-- `arm_close_when_idle` of `wait_closed`: an idle buffer is closed by the caller. -/
def armSection (b : Buffer β ε) : Section β ε :=
  match b.sendError with
  | some e => .pass b (.error e)
  | none =>
    if b.active = false ∧ b.held = [] then
      .pass b (.ok [.close true])
    else
      .pass { b with closeWhenIdle := true } (.ok [])

/-! ## Steps -/

/-- An exception leaves the frames up to the `except` of `on_done`.  It passes through
`sock_sendall_cb`: a completion has started there, so the chunk is not restored. -/
def unwind (e : ε) : List (Frame β ε) → List (Frame β ε)
  | [] => []
  | .onDone :: rest => .handler e :: rest
  | _ :: rest => unwind e rest

/-- `on_done` leaves its exception to the submit in which it runs. -/
def leaveError (e : ε) : List (Frame β ε) → List (Frame β ε)
  | .inCall _ :: rest => .inCall (some e) :: rest
  | rest => rest

def Frame.notify : Frame β ε → Frame β ε
  | .parked w _ => .parked w true
  | f => f

/-- `notify_all` sets the event of every waiter. -/
def notifyAll (calls : List (List (Frame β ε))) : List (List (Frame β ε)) :=
  calls.map (List.map Frame.notify)

def Section.stack (sec : Section β ε) (rest : List (Frame β ε)) : List (Frame β ε) :=
  match sec.next with
  | .ok frames => frames ++ rest
  | .error e => unwind e rest

/-- A leg is reserved and its io call has not succeeded. -/
def Frame.reserves : Frame β ε → Bool
  | .submit _ _ | .failed _ _ => true
  | _ => false

/-- A leg is under way in this frame. -/
def Frame.isLeg : Frame β ε → Bool
  | .submit _ _ | .failed _ _ | .finish | .complete _ => true
  | _ => false

/-- The bytes of a leg that is reserved. -/
def Frame.chunk : Frame β ε → List β
  | .submit chunk _ | .failed chunk _ => chunk
  | _ => []

def legCount (call : List (Frame β ε)) : Nat :=
  call.countP Frame.isLeg

def chunkOf (call : List (Frame β ε)) : List β :=
  call.flatMap Frame.chunk

namespace State

/-- The legs that are reserved or await completion. -/
def legs (s : State β ε) : Nat :=
  s.awaiting + tally legCount s.calls

def reservedLegs (s : State β ε) : Nat :=
  tally (List.countP Frame.reserves) s.calls

/-- The bytes that are reserved. -/
def reserved (s : State β ε) : List β :=
  s.calls.flatMap chunkOf

/-- Call `k` runs a critical section and goes on over `rest`. -/
def enter (s : State β ε) (k : Nat) (rest : List (Frame β ε)) (sec : Section β ε) : State β ε :=
  { s with
    buf := sec.buf
    calls :=
      if sec.notify then notifyAll (s.calls.set k (sec.stack rest))
      else s.calls.set k (sec.stack rest)
    trace :=
      if sec.shut then
        { s.trace with
          shutdowns :=
            { eofPending := sec.buf.eofPending
              reserved := s.reservedLegs
              pending := sec.buf.held
              legFailed := s.trace.legFailed
              handedOver := s.trace.handedOver
              accepted := s.trace.accepted } :: s.trace.shutdowns }
      else s.trace }

/-- Call `k` goes on without the lock. -/
def goOn (s : State β ε) (k : Nat) (stack : List (Frame β ε)) : State β ε :=
  { s with calls := s.calls.set k stack }

/-- A call, or a callback, begins. -/
def spawn (s : State β ε) (stack : List (Frame β ε)) : State β ε :=
  { s with calls := s.calls ++ [stack] }

/-- The socket is closed, if it is open. -/
def shut (s : State β ε) : State β ε :=
  if s.sockOpen then
    { s with
      sockOpen := false
      trace := { s.trace with closes := s.trace.closes + 1 } }
  else s

def accept (s : State β ε) (data : List β) : State β ε :=
  { s with trace := { s.trace with accepted := s.trace.accepted ++ data } }

def handOver (s : State β ε) (chunk : List β) : State β ε :=
  { s with trace := { s.trace with handedOver := s.trace.handedOver ++ chunk } }

/-- A leg is known to have failed. -/
def fail (s : State β ε) (failed : Bool) : State β ε :=
  { s with trace := { s.trace with legFailed := s.trace.legFailed || failed } }

end State

/-- The calls of the buffer and of the writer. -/
inductive Op (β ε : Type*)
  | write (data : List β)
  | drain
  | flush
  | writeEof (fault : Option ε)
  | close
  | setLimits (high low : Option Int)
  | stealPending
  | waitClosed
  deriving DecidableEq, Repr

/-- What can happen next: a call begins, a leg completes, a leg of `sock_send_nowait` reports an
error, call `k` takes its next step (`reply` is what its io call does), or an exception is thrown
into a tealet that is parked. -/
inductive Act (β ε : Type*)
  | call (op : Op β ε)
  | completed (exception : Option ε)
  | sendFailed (e : ε)
  | run (k : Nat) (reply : Reply ε)
  | throw (k : Nat)
  deriving DecidableEq, Repr

/-- A new call runs its first section. -/
def State.begin (s : State β ε) (sec : Section β ε) : State β ε :=
  (s.spawn []).enter s.calls.length [] sec

def call (x : Errors ε) (s : State β ε) : Op β ε → State β ε
  | .write [] => s
  | .write (d :: data) =>
    let s₁ := s.begin (writeSection x s.buf (d :: data))
    if s.buf.sendError = none ∧ s.buf.closed = false ∧ s.buf.eofPending = false then
      s₁.accept (d :: data)
    else
      s₁
  | .drain => s.begin (drainSection s.buf)
  | .flush => s.begin (flushSection s.buf)
  | .writeEof fault =>
    let s₁ := s.begin (writeEofSection x s.buf fault)
    -- the bytes accepted up to the first `write_eof`
    if s.buf.eofPending = false ∧ s₁.buf.eofPending = true then
      { s₁ with trace := { s₁.trace with atEof := some s₁.trace.accepted } }
    else
      s₁
  | .close => s.begin (closeSection s.buf)
  | .setLimits high low => s.begin (limitsSection x s.buf high low)
  | .stealPending =>
    { s.handOver (stolen s.buf) with
      buf :=
        if s.buf.sendError.isSome = true ∨ s.buf.active = true then s.buf
        else { s.buf with pending := none, pendingBytes := 0 } }
  | .waitClosed =>
    if s.writerClosed then s
    else
      let sec := closeSection s.buf
      s.begin { sec with next := .ok [.steal] }

/-- Call `k`, at frame `f` over `rest`, takes its next step. -/
def run (x : Errors ε) (s : State β ε) (k : Nat) (rest : List (Frame β ε)) (reply : Reply ε) :
    Frame β ε → Option (State β ε)
  | .submit chunk false =>
    match reply with
    | .ok =>
      let s₁ := (s.goOn k (.finish :: rest)).handOver chunk
      some { s₁ with silent := s.silent + 1 }
    | .raises e => some (s.goOn k (.failed chunk e :: rest))
    | .eager _ => none
  | .submit chunk true =>
    match reply with
    | .ok =>
      let s₁ := (s.goOn k rest).handOver chunk
      some { s₁ with awaiting := s.awaiting + 1 }
    | .raises e => some (s.goOn k (.failed chunk e :: rest))
    | .eager exception =>
      some ((s.goOn k (.complete exception :: .onDone :: .inCall none :: rest)).handOver chunk)
  | .failed chunk e => some ((s.fail true).enter k rest (failedSection s.buf chunk e))
  | .finish => some (s.enter k rest (finishSection x s.buf reply.fault))
  | .inCall callbackError =>
    match reply, callbackError with
    | .raises e, _ => some (s.goOn k (unwind e rest))
    | _, some e => some (s.goOn k (unwind e rest))
    | _, none => some (s.goOn k rest)
  | .complete exception =>
    some ((s.fail exception.isSome).enter k rest
      (completeSection x s.buf exception reply.fault))
  | .onDone => some (s.goOn k rest)
  | .handler e =>
    let s₁ := s.enter k rest (handlerSection s.buf e)
    if x.isInterrupt e then
      match reply with
      -- the scheduler or the io layer may swallow it
      | .ok => some s₁
      | _ => some (s.enter k rest { handlerSection s.buf e with next := .error e })
    else
      some (s.enter k (leaveError e rest) (handlerSection s.buf e))
  | .fireForget e => some ((s.fail true).enter k rest (fireForgetSection s.buf e))
  | .close writer =>
    match reply, s.sockOpen with
    | .raises e, true => some (s.shut.goOn k (unwind e rest))
    | _, _ => some { s.shut.goOn k rest with writerClosed := s.writerClosed || writer }
  | .closeQuiet => some (s.shut.goOn k rest)
  | .check w => some (s.enter k rest (checkSection s.buf w))
  | .parked w true => some (s.enter k rest (checkSection s.buf w))
  | .parked _ false => none
  | .steal => some ((s.enter k rest (stealSection s.buf)).handOver (stolen s.buf))
  | .arm =>
    let s₁ := s.enter k rest (armSection s.buf)
    if s.buf.sendError = none then
      some
        { s₁ with
          writerClosed := s.writerClosed || s₁.buf.closeWhenIdle
          trace := { s₁.trace with armed := true } }
    else
      some s₁
  | .sendClose _ =>
    match reply, s.sockOpen with
    | .raises e, _ => some (s.goOn k (unwind e rest))
    | _, true => some { s.shut.goOn k rest with writerClosed := true }
    | _, false => none

def step (x : Errors ε) (s : State β ε) : Act β ε → Option (State β ε)
  | .call op => some (call x s op)
  | .completed exception =>
    if 0 < s.awaiting then
      some { s.spawn [.complete exception, .onDone] with awaiting := s.awaiting - 1 }
    else
      none
  | .sendFailed e =>
    if 0 < s.silent then
      some { s.spawn [.fireForget e] with silent := s.silent - 1 }
    else
      none
  | .run k reply =>
    match s.calls[k]? with
    | some (f :: rest) => run x s k rest reply f
    | _ => none
  | .throw k =>
    match s.calls[k]? with
    -- `swait` takes its waiter out of the deque and the exception leaves `drain` or `flush`
    | some (.parked _ _ :: _) => some (s.goOn k [])
    | _ => none

/-! ## What a call can do -/

/-- What becomes of call `k`, at frame `f` over `rest`, in its next step. -/
inductive Ran (x : Errors ε) (s : State β ε) (k : Nat) (rest : List (Frame β ε)) (reply : Reply ε) :
    Frame β ε → State β ε → Prop
  | sent (chunk : List β) :
      Ran x s k rest reply (.submit chunk false)
        { (s.goOn k (.finish :: rest)).handOver chunk with silent := s.silent + 1 }
  | submitted (chunk : List β) :
      Ran x s k rest reply (.submit chunk true)
        { (s.goOn k rest).handOver chunk with awaiting := s.awaiting + 1 }
  | eager (chunk : List β) (exception : Option ε) :
      Ran x s k rest reply (.submit chunk true)
        ((s.goOn k (.complete exception :: .onDone :: .inCall none :: rest)).handOver chunk)
  | refused (chunk : List β) (wait : Bool) (e : ε) :
      Ran x s k rest reply (.submit chunk wait) (s.goOn k (.failed chunk e :: rest))
  | failed (chunk : List β) (e : ε) :
      Ran x s k rest reply (.failed chunk e) ((s.fail true).enter k rest (failedSection s.buf chunk e))
  | finish : Ran x s k rest reply .finish (s.enter k rest (finishSection x s.buf reply.fault))
  | returned (callbackError : Option ε) : Ran x s k rest reply (.inCall callbackError) (s.goOn k rest)
  | raised (callbackError : Option ε) (e : ε) :
      Ran x s k rest reply (.inCall callbackError) (s.goOn k (unwind e rest))
  | complete (exception : Option ε) :
      Ran x s k rest reply (.complete exception)
        ((s.fail exception.isSome).enter k rest (completeSection x s.buf exception reply.fault))
  | done : Ran x s k rest reply .onDone (s.goOn k rest)
  | handled (e : ε) (next : Except ε (List (Frame β ε)))
      (hnext : next = (handlerSection s.buf e).next ∨ next = .error e) :
      Ran x s k rest reply (.handler e) (s.enter k rest { handlerSection s.buf e with next := next })
  | reported (e : ε) :
      Ran x s k rest reply (.handler e) (s.enter k (leaveError e rest) (handlerSection s.buf e))
  | fireForget (e : ε) :
      Ran x s k rest reply (.fireForget e) ((s.fail true).enter k rest (fireForgetSection s.buf e))
  | closeRaises (writer : Bool) (e : ε) :
      Ran x s k rest reply (.close writer) (s.shut.goOn k (unwind e rest))
  | closes (writer : Bool) :
      Ran x s k rest reply (.close writer)
        { s.shut.goOn k rest with writerClosed := s.writerClosed || writer }
  | closeQuiet : Ran x s k rest reply .closeQuiet (s.shut.goOn k rest)
  | check (w : Wait) : Ran x s k rest reply (.check w) (s.enter k rest (checkSection s.buf w))
  | woken (w : Wait) : Ran x s k rest reply (.parked w true) (s.enter k rest (checkSection s.buf w))
  | steal :
      Ran x s k rest reply .steal ((s.enter k rest (stealSection s.buf)).handOver (stolen s.buf))
  | armed (hnone : s.buf.sendError = none) :
      Ran x s k rest reply .arm
        { s.enter k rest (armSection s.buf) with
          writerClosed := s.writerClosed || (s.enter k rest (armSection s.buf)).buf.closeWhenIdle
          trace := { (s.enter k rest (armSection s.buf)).trace with armed := true } }
  | armFails (herr : s.buf.sendError ≠ none) :
      Ran x s k rest reply .arm (s.enter k rest (armSection s.buf))
  | sendRaises (chunk : List β) (e : ε) :
      Ran x s k rest reply (.sendClose chunk) (s.goOn k (unwind e rest))
  | sendCloses (chunk : List β) :
      Ran x s k rest reply (.sendClose chunk) { s.shut.goOn k rest with writerClosed := true }

theorem ran_of_run {x : Errors ε} {s s' : State β ε} {k : Nat} {rest : List (Frame β ε)}
    {reply : Reply ε} {f : Frame β ε} (hs : run x s k rest reply f = some s') :
    Ran x s k rest reply f s' := by
  cases f with
  | submit chunk wait =>
    cases wait with
    | false =>
      cases reply with
      | ok =>
        cases hs
        exact .sent chunk
      | raises e =>
        cases hs
        exact .refused chunk false e
      | eager exception => cases hs
    | true =>
      cases reply with
      | ok =>
        cases hs
        exact .submitted chunk
      | raises e =>
        cases hs
        exact .refused chunk true e
      | eager exception =>
        cases hs
        exact .eager chunk exception
  | failed chunk e =>
    cases hs
    exact .failed chunk e
  | finish =>
    cases hs
    exact .finish
  | inCall callbackError =>
    cases reply <;> cases callbackError <;> cases hs
    all_goals first
      | exact .returned _
      | exact .raised _ _
  | complete exception =>
    cases hs
    exact .complete exception
  | onDone =>
    cases hs
    exact .done
  | handler e =>
    simp only [run] at hs
    split at hs
    · split at hs
      · cases hs
        exact .handled e _ (Or.inl rfl)
      · cases hs
        exact .handled e _ (Or.inr rfl)
    · cases hs
      exact .reported e
  | fireForget e =>
    cases hs
    exact .fireForget e
  | close writer =>
    simp only [run] at hs
    split at hs
    · cases hs
      exact .closeRaises writer _
    · cases hs
      exact .closes writer
  | closeQuiet =>
    cases hs
    exact .closeQuiet
  | check w =>
    cases hs
    exact .check w
  | parked w notified =>
    cases notified with
    | true =>
      cases hs
      exact .woken w
    | false => cases hs
  | steal =>
    cases hs
    exact .steal
  | arm =>
    simp only [run] at hs
    split at hs
    · rename_i hnone
      cases hs
      exact .armed hnone
    · rename_i herr
      cases hs
      exact .armFails herr
  | sendClose chunk =>
    simp only [run] at hs
    split at hs
    · cases hs
      exact .sendRaises chunk _
    · cases hs
      exact .sendCloses chunk
    · cases hs

end Pytealet.Io.SendBuffer
