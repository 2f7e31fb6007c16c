import Pytealet.Lib.Transition
import Pytealet.Selector.Table

/-!
# Selector.Machine — the calls of the selector proactor, step by step

The fd table of `SelectorProactor` is guarded by one re-entrant lock, and the callbacks of completed
operations run inside that lock, so they may call the proactor again before the call that completed
them has returned.

A state therefore holds two kinds of code in progress:

* `stack` is the control stack of the thread that holds the lock, innermost frame first.  The lock
  is free exactly when the stack is empty.
* `loose` is what other threads still have to do after they released the lock:
  `_run_or_enqueue_write` runs its operation outside the lock, and `_selector_stop_handle` reports
  the cancellation there.

A frame of `user` code on top of the stack may make any call of the proactor.  The answers of the
operating system (what a socket call returns, whether the selector accepts an update) are part of
the actions.
-/

namespace Pytealet.Selector

/-! ## Code in progress -/

/-- Exceptions, as far as the handlers of the proactor tell them apart. -/
inductive Exc
  /-- `BlockingIOError` and `InterruptedError` -/
  | blocking
  /-- any other `OSError` -/
  | os
  /-- any other `Exception` -/
  | exception
  /-- a `BaseException` that is no `Exception` -/
  | base
deriving DecidableEq, Repr

inductive Frame
  /-- a completion callback, with whatever it calls outside the proactor -/
  | user
  /-- the loop of `_drain_write_queue` on an entry object -/
  | drain (entry : Nat)
  /-- `_remove_handle` after the drain -/
  | removeTail (fd : Nat)
  /-- a call of `_finish_selector_oneshot` that has not tested `_done` yet -/
  | finish (h : Handle)
  /-- the same call, past the test -/
  | invoke (h : Handle)
  /-- `run()` of a shutdown or close that found the write side idle -/
  | run (h : Handle)
  /-- `_selector_stop_handle` after `_remove_handle`, with its `removed` -/
  | stopTail (h : Handle) (removed : Bool)
  /-- `poll_many`'s step after its delivery: `_next_index` becomes `index + 1` -/
  | advance (h : Handle) (index : Nat)
  /-- `_step_continuous_fd_operation` after the step, with the step's `done` -/
  | streamTail (h : Handle) (done : Bool)
  /-- the handler of an exception raised by a stream's step -/
  | failStream (h : Handle)
  /-- `_finish_with_terminal_delivery` at `_next_index` -/
  | endStream (h : Handle)
deriving DecidableEq, Repr

/-- An exception leaves the frames up to the first one that handles it: calling user code sees it
and may go on, the drain loop swallows every `Exception`, `_selector_stop_handle` keeps an `OSError`
as its registration error, and a stream's step is ended by it. -/
def unwind (e : Exc) : List Frame → List Frame
  | [] => []
  | .user :: st => .user :: st
  | .drain en :: st => if e = .base then unwind e st else .drain en :: st
  | .stopTail h _ :: st =>
    match e with
    | .blocking | .os => .stopTail h true :: st
    | .exception | .base => unwind e st
  | .streamTail h _ :: st =>
    match e with
    | .blocking => .streamTail h false :: st
    | .os | .exception => .failStream h :: st
    | .base => unwind e st
  | _ :: st => unwind e st

inductive Effect
  | bytes (chunk : List UInt8)
  | shutdown (how : Nat)
  | close
deriving DecidableEq, Repr

/-- A delivery of a stream, by its index and its `more` flag. -/
structure Delivery where
  index : Nat
  more : Bool
deriving DecidableEq, Repr

structure State where
  /-- `_closed` of the proactor -/
  closed : Bool := false
  closedSocks : Sock → Bool := fun _ => false
  /-- `_fd_slots` -/
  table : Table := .empty
  /-- the selector's own map -/
  keys : Nat → Option Mask := fun _ => none
  /-- operations submitted so far -/
  count : Nat := 0
  accepted : Handle → Bool := fun _ => false
  done : Handle → Bool := fun _ => false
  /-- how often the callback of an operation has been called -/
  invoked : Handle → Nat := fun _ => 0
  /-- `offset` of a `send_all` -/
  offset : Handle → Nat := fun _ => 0
  /-- `_next_index` of a stream -/
  nextIndex : Handle → Nat := fun _ => 0
  deliveries : Handle → List Delivery := fun _ => []
  /-- effects on the descriptors, oldest first -/
  wire : List (Handle × Effect) := []
  stack : List Frame := []
  loose : List Frame := []

/-- The operation is on a socket, and the socket is closed. -/
def Handle.closedIn (closed : Sock → Bool) (h : Handle) : Bool :=
  match h.op.sock? with
  | some k => closed k
  | none => false

/-! ## The selector and the fd table -/

namespace State

def selectorMaskForFd (s : State) (fd : Nat) : Mask :=
  ⟨(s.table.entryAt fd).reader.isSome, (s.table.entryAt fd).writer.isSome⟩

/-- `_update_selector_registration`.  `fails` is what the selector answers to a `register`, or to a
`modify` that changes the events; a selector drops the key when it raises.  The second component
says whether the error was raised. -/
def updateSelectorRegistration (s : State) (fd : Nat) (fails : Bool) : State × Bool :=
  let mask := s.selectorMaskForFd fd
  if s.closed then (s, false)
  else
    match s.keys fd with
    | none =>
      if mask.nonzero then
        if fails then (s, true)
        else ({ s with keys := Function.update s.keys fd (some mask) }, false)
      else (s, false)
    | some old =>
      if mask.nonzero then
        if old = mask then (s, false)
        else if fails then ({ s with keys := Function.update s.keys fd none }, true)
        else ({ s with keys := Function.update s.keys fd (some mask) }, false)
      else ({ s with keys := Function.update s.keys fd none }, false)

/-- Raises `e` in the code below the frames of the current call. -/
def raise (s : State) (e : Exc) : State :=
  { s with stack := unwind e s.stack }

/-- `_update_selector_registration`, with its `OSError` raised to the caller. -/
def update (s : State) (fd : Nat) (fails : Bool) : State :=
  match s.updateSelectorRegistration fd fails with
  | (s', true) => s'.raise .os
  | (s', false) => s'

def push (s : State) (fs : List Frame) : State :=
  { s with stack := fs ++ s.stack }

def writeBusy (s : State) (fd : Nat) : Bool :=
  (s.table.entryAt fd).writer.isSome || !(s.table.entryAt fd).writeQueue.isEmpty

def enqueueWrite (s : State) (h : Handle) : State :=
  { s with table := s.table.enqueueWrite h }

def reserve (s : State) (h : Handle) : State :=
  { s with table := s.table.reserve h }

/-- `_check_fd_slot_available` for every slot the operation needs. -/
def slotTaken (s : State) (h : Handle) : Bool :=
  h.op.mask.read && (s.table.entryAt h.fd).reader.isSome ||
    h.op.mask.write && (s.table.entryAt h.fd).writer.isSome

/-- `_remove_handle`, up to the drain, with `k removed` to be done after it.  The source looks
through the whole table; a handle is only ever put in the entry of its own descriptor. -/
def removeHandle (s : State) (h : Handle) (k : Bool → List Frame) : State :=
  match s.table.slots h.fd with
  | none => s.push (k false)
  | some e =>
    if (s.table.entries e).Has h then
      let drain := if (s.table.entries e).writer = some h then [Frame.drain e] else []
      { s with table := s.table.clear e h }.push (drain ++ Frame.removeTail h.fd :: k true)
    else s.push (k false)

/-! ## Attempts -/

end State

inductive Outcome
  | blocked
  | finished
  | failed
deriving DecidableEq, Repr

/-- What the operating system answers to one attempt: the counts the `send` calls return, and how
the attempt ends. -/
structure Try where
  sents : List Nat := []
  outcome : Outcome := .finished
deriving DecidableEq, Repr

/-- The loop of `send_all`'s attempt: the offset it leaves, the chunks it sent and how it ended.
The `send` after the last count raises. -/
def sendLoop (data : List UInt8) (offset : Nat) : List Nat → Outcome → Nat × List (List UInt8) × Outcome
  | [], fin =>
    if offset < data.length then (offset, [], if fin = .failed then .failed else .blocked)
    else (offset, [], .finished)
  | sent :: sents, fin =>
    if offset < data.length then
      if sent = 0 then (offset, [], .blocked)
      else
        let chunk := (data.drop offset).take sent
        match sendLoop data (offset + chunk.length) sents fin with
        | (offset', chunks, out) => (offset', chunk :: chunks, out)
    else (offset, [], .finished)

/-- One call of the operation's `attempt`, from the offset it has reached: the new offset, the
effects and the outcome. -/
def Op.attempt (op : Op) (offset : Nat) (t : Try) : Nat × List Effect × Outcome :=
  match op with
  | .send _ data =>
    match t.outcome with
    | .finished => (offset, [.bytes (data.take (t.sents.headD 0))], .finished)
    | out => (offset, [], out)
  | .sendAll _ data =>
    match sendLoop data offset t.sents t.outcome with
    | (offset', chunks, out) => (offset', chunks.map .bytes, out)
  | _ => (offset, [], t.outcome)

namespace State

def attempt (s : State) (h : Handle) (t : Try) : State × Outcome :=
  match h.op.attempt (s.offset h) t with
  | (offset, effects, out) =>
    ({ s with
        offset := Function.update s.offset h offset
        wire := s.wire ++ effects.map fun x => (h, x) }, out)

/-- `sock.fileno()` is `-1`. -/
def sockClosed (s : State) (h : Handle) : Bool :=
  h.closedIn s.closedSocks

/-- `_check_open`, `_check_socket` or `_check_fd`, and `_check_fd_slot_available`. -/
def refuses (s : State) (h : Handle) : Bool :=
  s.closed || s.sockClosed h || h.op.emptyMask || s.slotTaken h

inductive Started
  | parked
  | ended
  | raised (e : Exc)
deriving DecidableEq, Repr

/-- `_prepare_socket_operation` and `_prepare_fd_operation`. -/
def prepareOperation (s : State) (h : Handle) (t : Try) (fails : Bool) : State × Started :=
  if s.refuses h then (s, .raised .exception)
  else
    match s.attempt h t with
    | (s₁, .blocked) =>
      match (s₁.reserve h).updateSelectorRegistration h.fd fails with
      | (s₂, true) => (s₂, .raised .os)
      | (s₂, false) => (s₂, .parked)
    | (s₁, _) => (s₁, .ended)

/-- The operation's callback is called, with no handle to mark. -/
def callBack (s : State) (h : Handle) : State :=
  { s with invoked := Function.update s.invoked h (s.invoked h + 1) }

/-- `run()` of a shutdown or close, up to its callback.  On a socket that is closed already the call
has no effect on the descriptor. -/
def runDirect (s : State) (h : Handle) (t : Try) : State :=
  match h.op with
  | .shutdown k how _ =>
    if !s.closedSocks k && t.outcome = .finished then
      { s with wire := s.wire ++ [(h, .shutdown how)] }
    else s
  | .closeSocket k _ =>
    if s.closedSocks k then s
    else
      { s with
        wire := s.wire ++ [(h, .close)]
        closedSocks := Function.update s.closedSocks k true }
  | _ => s

/-- All of `run()`: the callback, or what the delivery exception handler does with the error of a
`shutdown_nowait`. -/
def callSync (s : State) (h : Handle) (t : Try) : State × List Frame :=
  if h.op.callback then ((s.runDirect h t).callBack h, [.user])
  else if t.outcome = .failed then (s.runDirect h t, [.user])
  else (s.runDirect h t, [])

/-- `_emit_delivery`. -/
def emit (s : State) (h : Handle) (d : Delivery) : State :=
  { s with deliveries := Function.update s.deliveries h (s.deliveries h ++ [d]) }

/-- A stream's `step`, and what its driver does with an outcome that delivers nothing. -/
def stepContinuous (s : State) (h : Handle) (t : Try) (fails : Bool) : State :=
  match t.outcome with
  | .blocked => s.update h.fd fails
  | .finished =>
    match h.op with
    | .pollMany _ _ =>
      (s.emit h ⟨s.nextIndex h, true⟩).push
        [.user, .advance h (s.nextIndex h), .streamTail h false]
    | _ => (s.emit h ⟨h.op.baseSequence, false⟩).push [.user, .streamTail h true]
  | .failed =>
    match h.op with
    | .single _ true _ => (s.emit h ⟨h.op.baseSequence, false⟩).push [.user, .streamTail h true]
    | _ => s.push [.failStream h]

/-! ## The calls of the proactor -/

/-- Registers the next handle; `ok` says whether the call returns it. -/
def issue (s : State) (h : Handle) (ok : Bool) : State :=
  { s with
    count := s.count + 1
    accepted := Function.update s.accepted h ok
    nextIndex := Function.update s.nextIndex h h.op.baseSequence }

/-- `start()` of a send outside the queue, and every submission that does not queue. -/
def submitOneshot (s : State) (h : Handle) (t : Try) (fails : Bool) : State :=
  match s.prepareOperation h t fails with
  | (s', .parked) => s'.issue h true
  | (s', .ended) => (s'.issue h true).push [.finish h]
  | (s', .raised e) => (s'.issue h false).raise e

/-- `send` and `send_all`. -/
def submitSend (s : State) (h : Handle) (t : Try) (fails : Bool) : State :=
  if s.closed then s.issue h false
  else if !s.sockClosed h && s.writeBusy h.fd then (s.enqueueWrite h).issue h true
  else s.submitOneshot h t fails

/-- A frame of the calling thread that needs no lock of its own: on the stack when the thread holds
the lock already, loose otherwise. -/
def outside (s : State) (fs : List Frame) : State :=
  if s.stack = [] then { s with loose := s.loose ++ fs } else s.push fs

/-- A callback of the calling thread under no lock of this call. -/
def userOutside (s : State) : State :=
  if s.stack = [] then s else s.push [.user]

/-- `_run_or_enqueue_write`.  The lock is released before `run()`. -/
def runOrEnqueueWrite (s : State) (h : Handle) : State :=
  if s.sockClosed h then (s.issue h true).outside [.run h]
  else if s.closed then s.issue h false
  else if s.writeBusy h.fd then (s.enqueueWrite h).issue h true
  else (s.issue h true).outside [.run h]

/-- `_prepare_socket_continuous_operation` and `_prepare_fd_continuous_operation`.  Only `poll_many`
makes its first step here; `recv_many` delivers `ENOBUFS` at once when its pool is full. -/
def submitStream (s : State) (h : Handle) (t : Try) (fails : Bool) : State :=
  match h.op, t.outcome with
  | .single _ true b, .failed => ((s.issue h true).emit h ⟨b, false⟩).userOutside
  | .pollMany _ _, .finished | .pollMany _ _, .failed =>
    if s.refuses h then s.issue h false
    else ((s.reserve h).issue h true).stepContinuous h t fails
  | _, _ =>
    if s.refuses h then s.issue h false
    else
      match (s.reserve h).updateSelectorRegistration h.fd fails with
      | (s', true) => (s'.issue h false).raise .os
      | (s', false) => s'.issue h true

def submit (s : State) (op : Op) (t : Try) (fails : Bool) : State :=
  let h : Handle := ⟨s.count, op⟩
  match op with
  | .send _ [] =>
    -- nothing to send: no operation is made, and the callback runs under no lock of this call
    s.userOutside
  | .send _ _ | .sendAll _ _ => s.submitSend h t fails
  | .shutdown _ _ _ | .closeSocket _ _ => s.runOrEnqueueWrite h
  | .oneshot _ _ | .poll _ _ => s.submitOneshot h t fails
  | .single _ _ _ | .pollMany _ _ => s.submitStream h t fails

/-- `_step_fd_operation` for an operation with an `attempt`. -/
def stepOneshot (s : State) (h : Handle) (t : Try) (fails : Bool) : State :=
  match s.attempt h t with
  | (s₁, .blocked) => s₁.update h.fd fails
  | (s₁, _) => s₁.removeHandle h fun _ => [.finish h]

/-- `_step_fd_operation`, one event of a `select` result. -/
def stepFdOperation (s : State) (fd : Nat) (event : Event) (t : Try) (fails : Bool) : State :=
  match (match event with
    | .read => (s.table.entryAt fd).reader
    | .write => (s.table.entryAt fd).writer) with
  | none => s
  | some h =>
    if h.op.stream then s.stepContinuous h t fails
    else if s.done h then s
    else s.stepOneshot h t fails

/-- `_selector_stop_handle`: `cancel`, `cancel_nowait`, `stop_poll` and the timer of a `recv`. -/
def selectorStopHandle (s : State) (h : Handle) : State :=
  if !h.op.stream && s.done h then s
  else s.removeHandle h fun removed => [.stopTail h removed]

/-! ## The frames -/

/-- What `_drain_write_queue` does with the item it has taken from the queue. -/
def runItem (s : State) (h : Handle) (t : Try) (fails : Bool) : State :=
  if h.op.direct then (s.callSync h t).1.push (s.callSync h t).2
  else if s.done h then s
  else
    match s.prepareOperation h t fails with
    | (s', .parked) => s'
    | (s', _) => s'.push [.finish h]

/-- One turn of the loop of `_drain_write_queue`; `rest` is the stack below its frame. -/
def drainWriteQueue (s : State) (e : Nat) (rest : List Frame) (t : Try) (fails : Bool) : State :=
  match (s.table.entries e).writeQueue, (s.table.entries e).writer with
  | h :: _, none => { s with table := s.table.popleft e }.runItem h t fails
  | _, _ => { s with stack := rest }

/-- The end of `_remove_handle`. -/
def removeTail (s : State) (fd : Nat) (fails : Bool) : State :=
  if hempty : (s.table.entryAt fd).empty then
    { s with table := s.table.delete fd hempty }.update fd fails
  else s.update fd fails

/-- What `_selector_stop_handle` still has to do once it has released the lock. -/
def stopReport (h : Handle) (removed : Bool) : List Frame :=
  if h.op.stream then if removed then [.endStream h] else []
  else [.finish h]

/-- The part of a frame that needs no lock: reports, and `run()`. -/
def report (s : State) (f : Frame) (t : Try) : Option (State × List Frame) :=
  match f with
  | .finish h => some (if s.done h then (s, []) else (s, [.invoke h]))
  | .invoke h => some ({ s with done := Function.update s.done h true }.callBack h, [.user])
  | .run h => some (s.callSync h t)
  | .endStream h => some (s.emit h ⟨s.nextIndex h, false⟩, [.user])
  | _ => none

/-- The lock holder goes on with the innermost frame. -/
def go (s : State) (t : Try) (fails : Bool) : Option State :=
  match s.stack with
  | [] | .user :: _ => none
  | .drain e :: st => some (s.drainWriteQueue e st t fails)
  | .removeTail fd :: st => some ({ s with stack := st }.removeTail fd fails)
  | .stopTail h removed :: st =>
    some ({ s with stack := st }.outside (stopReport h removed))
  | .advance h i :: st => some { s with stack := st, nextIndex := Function.update s.nextIndex h (i + 1) }
  | .streamTail h true :: st => some ({ s with stack := st }.removeHandle h fun _ => [])
  | .streamTail h false :: st => some ({ s with stack := st }.update h.fd fails)
  | .failStream h :: st => some ({ s with stack := st }.removeHandle h fun _ => [.endStream h])
  | f :: st => (s.report f t).map fun (s', fs) => { s' with stack := fs ++ st }

/-- Another thread goes on with what it does outside the lock; its callbacks hold no lock. -/
def goLoose (s : State) (i : Nat) (t : Try) : Option State :=
  match s.loose[i]? with
  | none => none
  | some f => (s.report f t).map fun (s', fs) =>
    { s' with loose := (s.loose.eraseIdx i) ++ fs.filter (· ≠ .user) }

end State

/-! ## Steps -/

inductive Action
  | submit (op : Op) (t : Try) (fails : Bool)
  | ready (fd : Nat) (event : Event) (t : Try) (fails : Bool)
  | stop (h : Handle)
  /-- the lock holder goes on -/
  | go (t : Try) (fails : Bool)
  /-- the callback on top of the stack returns -/
  | back
  /-- the callback on top of the stack raises -/
  | throw (e : Exc)
  /-- another thread goes on -/
  | loose (i : Nat) (t : Try)
  /-- the program closes a socket itself -/
  | closeSock (k : Sock)
  | close
deriving DecidableEq, Repr

/-- A call can be made by any thread while the lock is free, and by the callback that runs in it. -/
def State.callable (s : State) : Bool :=
  match s.stack with
  | [] | .user :: _ => true
  | _ => false

def step (s : State) : Action → Option State
  | .submit op t fails => if s.callable then some (s.submit op t fails) else none
  | .ready fd event t fails => if s.callable then some (s.stepFdOperation fd event t fails) else none
  | .stop h =>
    if s.callable && !h.op.direct && h.id < s.count then some (s.selectorStopHandle h) else none
  | .go t fails => s.go t fails
  | .back =>
    match s.stack with
    | .user :: st => some { s with stack := st }
    | _ => none
  | .throw e =>
    match s.stack with
    | .user :: st => some { s with stack := unwind e st }
    | _ => none
  | .loose i t => s.goLoose i t
  | .closeSock k => some { s with closedSocks := Function.update s.closedSocks k true }
  | .close => if s.callable then some { s with closed := true } else none

def init : State := {}

end Pytealet.Selector
