import Mathlib.Data.List.Count
import Pytealet.Lib.Tally
import Pytealet.Lib.Transition

/-!
# Serve — the workers of `serve_completions` and a host that waits for them

A call of `serve_completions` is an agent with a `Phase`; one of its steps is what it does between
two changes of a lock or of a critical section.  The calls share the staged queue, the waiter role,
the worker count and the submission queue.  The host goes round `note_driver_waiting(True)`,
`submit()`, `wait_idle()`, `note_driver_waiting(False)`.

A CQE is a number: the place at which it was taken from the completion queue.
-/

namespace Pytealet.Uring.Serve

open Lib Lib.Transition

/-! ## What the calls share -/

structure Shared where
  autoSubmit : Bool := true
  sqpoll : Bool := false
  /-- `cqe_queue` -/
  queue : List Nat := []
  cap : Nat := 0
  /-- `cqe_waiting` -/
  waiting : Bool := false
  /-- `delivery_stop_requested` -/
  stopRequested : Bool := false
  /-- `delivery_active_workers` -/
  active : Nat := 0
  /-- `receive_state` is DELIVERING. -/
  delivering : Bool := false
  /-- The SQEs that are not published, and whether each is waitable. -/
  sq : List Bool := []
  sqWaitable : Bool := false
  /-- `waiting_depth` of the idle park. -/
  depth : Nat := 0
  /-- The latch of the idle park: the host has blocked. -/
  blocks : Bool := false
  /-- History: how many CQEs were taken from the completion queue. -/
  taken : Nat := 0
  /-- History: which call processed which CQE. -/
  processed : List (Nat × Nat) := []
  deriving DecidableEq

/-! ## The phases of a call -/

/-- The variables of `waiter_consume_burst`. -/
structure Harvest where
  /-- The worker count at the start of the burst. -/
  n : Nat
  /-- The CQE of the reap: whether it is for a completion. -/
  first : Option Bool
  pushed : Bool := false
  callbackFailed : Bool := false
  deriving DecidableEq

/-- Where a CQE is handled. -/
inductive Ctx where
  /-- Off the staged queue. -/
  | take
  /-- By the waiter itself, which is alone. -/
  | inline (h : Harvest)
  /-- In `finish_leftover_cqes`. -/
  | leftover (rest : List Nat) (failed : Bool)
  deriving DecidableEq

/-- What `ring_should_we_submit` reads. -/
inductive Question where
  | hasBlocked
  | isWaiting
  | waiterActive
  deriving DecidableEq

inductive Stage where
  /-- The CQE is in a variable of the call. -/
  | package (c : Nat)
  /-- Packaging and callback; `moved` is that the publish count moved, `house` the housekeeping
  count. -/
  | callback (moved house : Bool)
  | publish (moved house failed : Bool)
  /-- The decision is taken, and `again` taken a second time. -/
  | ask (q : Question) (again failed : Bool)
  | flush (failed : Bool)
  deriving DecidableEq

/-- The loop of the unique kernel waiter. -/
inductive Wait where
  | top
  | flush
  /-- In `io_uring_wait_cqe`. -/
  | reap
  | count (first : Bool)
  | loop (h : Harvest)
  | peek (h : Harvest)
  | push (h : Harvest) (c : Nat)
  | stopCheck (h : Harvest)
  deriving DecidableEq

inductive Phase where
  | claim
  /-- On the condition variable, and not woken. -/
  | asleep
  | work (ctx : Ctx) (stage : Stage)
  | waiter (w : Wait)
  | release (failed : Bool)
  | wake (failed : Bool)
  /-- Before the worker count is read on the way out. -/
  | check (failed : Bool)
  | takeAll (failed : Bool)
  /-- Before `delivery_mark_exited`. -/
  | leave (failed : Bool)
  | left (failed : Bool)
  deriving DecidableEq

inductive Handled where
  | ok
  | callbackFailed
  | packageFailed
  deriving DecidableEq

/-- What the environment decides in one step of a call. -/
structure Env where
  /-- The allocation or the reap of this step succeeds. -/
  ok : Bool := true
  /-- What the completion queue shows: nothing, or a CQE and whether it is for a completion. -/
  cqe : Option Bool := none
  /-- How many SQEs `io_uring_submit` takes; `none` is an error. -/
  submit : Option Nat := some 0
  /-- The handler fills an SQE: waitable, and housekeeping. -/
  fill : Option (Bool × Bool) := none
  /-- The submission queue is full, and the fill enters to make room. -/
  full : Bool := false
  result : Handled := .ok
  deriving DecidableEq

/-- The next phase, the shared state, and whether the condition variable is broadcast. -/
structure Turn where
  phase : Phase
  shared : Shared
  broadcast : Bool := false

namespace Shared

variable (s : Shared)

/-- `delivery_should_stop` -/
def shouldStop : Bool :=
  s.stopRequested || !s.delivering

/-- `ring_flush_pending` -/
def flushPending (submit : Option Nat) : Shared × Bool :=
  if s.sqpoll = false ∧ s.sq = [] then ({ s with sqWaitable := false }, true)
  else
    match submit with
    | none => (s, false)
    | some n =>
      let sq := if s.sqpoll then [] else s.sq.drop n
      ({ s with sq := sq, sqWaitable := s.sqWaitable && sq ≠ [] }, true)

/-- An SQE is filled and kept. -/
def fill (waitable : Bool) : Shared :=
  { s with sq := s.sq ++ [waitable], sqWaitable := s.sqWaitable || waitable }

/-- The room for an SQE. -/
def makeRoom (full : Bool) (submit : Option Nat) : Shared × Bool :=
  if full then s.flushPending submit else (s, true)

/-- `cqe_fifo_ensure`; `memory` is whether the allocation of `cqe_fifo_grow` succeeds. -/
def fifoEnsure (memory : Bool) : Option Shared :=
  if s.queue.length < s.cap then some s
  else if memory then some { s with cap := if s.cap = 0 then 4 else s.cap * 2 }
  else none

end Shared

/-! ## One CQE -/

/-- The leftovers are handled one after the other. -/
def nextLeftover : List Nat → Bool → Phase
  | [], failed => .leave failed
  | c :: rest, failed => .work (.leftover rest failed) (.package c)

/-- After the publish: `failed` says that packaging or the callback failed, `unpublished` that the
flush did. -/
def Ctx.done (failed unpublished : Bool) : Ctx → Phase
  | .take => if failed || unpublished then .wake true else .claim
  | .inline h =>
    let h := { h with callbackFailed := h.callbackFailed || failed }
    if unpublished && !h.callbackFailed then .release true else .waiter (.stopCheck h)
  | .leftover rest already => nextLeftover rest (already || failed || unpublished)

/-- `process_staged_cqe`, and `apply_ready_cqe` of a waiter that is alone. -/
def handle (s : Shared) (i : Nat) (ctx : Ctx) (e : Env) : Stage → Turn
  | .package c =>
    { phase := .work ctx (.callback false false),
      shared := { s with processed := s.processed ++ [(i, c)] } }
  | .callback moved house =>
    match e.fill with
    | some (waitable, housekeeping) =>
      match s.makeRoom e.full e.submit with
      | (s, true) =>
        { phase := .work ctx (.callback (moved || waitable || s.sqpoll) (house || housekeeping))
          shared := s.fill waitable }
      | (s, false) => { phase := .work ctx (.callback moved house), shared := s }
    | none =>
      match e.result, ctx with
      | .packageFailed, .inline _ => { phase := .release true, shared := s }
      | result, ctx => { phase := .work ctx (.publish moved house (result ≠ .ok)), shared := s }
  | .publish moved house failed =>
    if s.delivering = false then { phase := ctx.done failed false, shared := s }
    else if s.autoSubmit then
      if moved = false then { phase := ctx.done failed false, shared := s }
      else if s.sqpoll then { phase := .work ctx (.flush failed), shared := s }
      else { phase := .work ctx (.ask .hasBlocked false failed), shared := s }
    else if house then { phase := .work ctx (.flush failed), shared := s }
    else { phase := ctx.done failed false, shared := s }
  | .ask .hasBlocked again failed =>
    { phase := .work ctx (.ask (if s.blocks then .isWaiting else .waiterActive) again failed), shared := s }
  | .ask .isWaiting again failed =>
    if s.depth = 0 then { phase := ctx.done failed false, shared := s }
    else { phase := .work ctx (.ask .waiterActive again failed), shared := s }
  | .ask .waiterActive again failed =>
    if s.waiting = false then { phase := ctx.done failed false, shared := s }
    else if again then { phase := .work ctx (.flush failed), shared := s }
    else { phase := .work ctx (.ask .hasBlocked true failed), shared := s }
  | .flush failed =>
    match s.flushPending e.submit with
    | (s, ok) => { phase := ctx.done failed (!ok), shared := s }

/-! ## The waiter -/

/-- The burst is over. -/
def Harvest.done (h : Harvest) : Phase :=
  if h.callbackFailed then .release true
  else if 1 < h.n ∧ h.pushed = true then .release false
  else .waiter .top

/-- The inner loop of `serve_completions` and `waiter_consume_burst`. -/
def harvest (s : Shared) (e : Env) : Wait → Turn
  | .top =>
    if s.shouldStop then { phase := .release false, shared := s }
    else { phase := .waiter (if s.autoSubmit then .flush else .reap), shared := s }
  | .flush =>
    if s.sqpoll || s.sqWaitable then
      match s.flushPending e.submit with
      | (s, true) => { phase := .waiter .reap, shared := s }
      | (s, false) => { phase := .release true, shared := s }
    else { phase := .waiter .reap, shared := s }
  | .reap =>
    if e.ok = false then { phase := .release true, shared := s }
    else
      match e.cqe with
      | none => { phase := .waiter .top, shared := s }
      | some first => { phase := .waiter (.count first), shared := s }
  | .count first => { phase := .waiter (.loop { n := s.active, first := some first }), shared := s }
  | .loop h =>
    if 1 < h.n then
      match s.fifoEnsure e.ok with
      | some s => { phase := .waiter (.peek h), shared := s }
      | none => { phase := .release true, shared := s }
    else { phase := .waiter (.peek h), shared := s }
  | .peek h =>
    match h.first.or e.cqe with
    | none => { phase := h.done, shared := s }
    | some false => { phase := .waiter (.loop { h with first := none }), shared := s }
    | some true =>
      { phase :=
          if 1 < h.n then .waiter (.push { h with first := none } s.taken)
          else .work (.inline { h with first := none }) (.package s.taken)
        shared := { s with taken := s.taken + 1 } }
  | .push h c =>
    match s.fifoEnsure e.ok with
    | some s =>
      { phase := .waiter (.loop { h with pushed := true }), shared := { s with queue := s.queue ++ [c] }
        broadcast := true }
    | none => { phase := .release true, shared := s }
  | .stopCheck h =>
    { phase := .waiter (if s.shouldStop && !h.callbackFailed then .top else .loop h), shared := s }

/-- `serve_completions`, one step; `none` where the call cannot go on by itself. -/
def advance (s : Shared) (i : Nat) (e : Env) : Phase → Option Turn
  | .claim =>
    match s.queue with
    | c :: rest => some { phase := .work .take (.package c), shared := { s with queue := rest } }
    | [] =>
      if s.stopRequested then some { phase := .wake false, shared := s }
      else if s.waiting then some { phase := .asleep, shared := s }
      else some { phase := .waiter .top, shared := { s with waiting := true } }
  | .asleep => none
  | .work ctx stage => some (handle s i ctx e stage)
  | .waiter w => some (harvest s e w)
  | .release failed =>
    some { phase := if failed then .wake true else .claim, shared := { s with waiting := false }, broadcast := true }
  | .wake failed => some { phase := .check failed, shared := s, broadcast := true }
  | .check failed => some { phase := if s.active ≤ 1 then .takeAll failed else .leave failed, shared := s }
  | .takeAll failed =>
    some { phase := nextLeftover s.queue failed, shared := { s with queue := [], cap := 0 }, broadcast := true }
  | .leave failed =>
    some
      { phase := .left failed
        shared := { s with active := s.active - 1, delivering := s.delivering && s.active - 1 ≠ 0 } }
  | .left _ => none

/-! ## The host and the runs -/

inductive Host where
  | running
  /-- `note_driver_waiting(True)` has counted, and then has set the latch. -/
  | noted
  | latched
  | submitted
  /-- `wait_idle` has counted, and then is parked. -/
  | entered
  | parked
  | returned
  /-- `submit()` raised. -/
  | raised
  deriving DecidableEq

structure Service where
  shared : Shared := {}
  calls : List Phase := []
  host : Host := .running
  deriving DecidableEq

/-- A broadcast of the condition variable. -/
def Phase.woken : Phase → Phase
  | .asleep => .claim
  | p => p

def Service.broadcast (s : Service) : Service :=
  { s with calls := s.calls.map Phase.woken }

inductive Act where
  /-- `serve_completions` is called. -/
  | join
  | go (i : Nat) (e : Env)
  /-- `pthread_cond_wait` returns without a broadcast. -/
  | spurious (i : Nat)
  /-- The two halves of `stop_serving`. -/
  | stop
  | stopWake
  /-- `reset_serving` -/
  | reset
  /-- The host fills an SQE while it runs. -/
  | hostFill (waitable : Bool)
  | host (submit : Option Nat)
  /-- Another call of `submit()`. -/
  | submit (submit : Option Nat)

def hostStep (s : Service) (submit : Option Nat) : Option Service :=
  match s.host with
  | .running => some { s with host := .noted, shared := { s.shared with depth := s.shared.depth + 1 } }
  | .noted => some { s with host := .latched, shared := { s.shared with blocks := true } }
  | .latched =>
    match s.shared.flushPending submit with
    | (shared, true) => some { s with host := .submitted, shared := shared }
    | (shared, false) => some { s with host := .raised, shared := shared }
  | .submitted => some { s with host := .entered, shared := { s.shared with depth := s.shared.depth + 1 } }
  | .entered => some { s with host := .parked, shared := { s.shared with blocks := true } }
  | .parked => some { s with host := .returned, shared := { s.shared with depth := s.shared.depth - 1 } }
  | .returned => some { s with host := .running, shared := { s.shared with depth := s.shared.depth - 1 } }
  | .raised => none

def step (s : Service) : Act → Option Service
  | .join =>
    some
      { s with
        calls := s.calls ++ [.claim]
        shared := { s.shared with active := s.shared.active + 1, delivering := true } }
  | .go i e =>
    match s.calls[i]? with
    | none => none
    | some p =>
      match advance s.shared i e p with
      | none => none
      | some t =>
        let s := { s with calls := s.calls.set i t.phase, shared := t.shared }
        some (if t.broadcast then s.broadcast else s)
  | .spurious i =>
    if s.calls[i]? = some .asleep then some { s with calls := s.calls.set i .claim } else none
  | .stop => some { s with shared := { s.shared with stopRequested := true } }
  | .stopWake => some s.broadcast
  | .reset =>
    if s.shared.delivering then none else some { s with shared := { s.shared with stopRequested := false } }
  | .hostFill waitable =>
    if s.host = .running then some { s with shared := s.shared.fill waitable } else none
  | .host submit => hostStep s submit
  | .submit submit => some { s with shared := (s.shared.flushPending submit).1 }

end Pytealet.Uring.Serve
