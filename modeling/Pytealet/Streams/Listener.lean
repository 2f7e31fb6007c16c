import Mathlib.Tactic.SplitIfs
import Pytealet.Lib.Transition

/-!
# Listener — `Server.close` and the accept loop

`close` throws `CancelledError` into the accept task, or has it thrown later when it is called from
outside a tealet, and relies on the `finally` of `run_accept_loop` to close the listening sockets.
A task that has not had its first turn is ended by a throw before it enters that `try`.

`accept_once`, the pause after a resource error and the handler of such an error may end in any way.
-/

namespace Pytealet.Streams.Listener

open Lib Lib.Transition

inductive Task
  /-- spawned, before its first turn -/
  | primed
  /-- inside `accept_once` -/
  | accepting
  /-- in the pause after a resource error -/
  | pausing
  | done
  deriving DecidableEq, Repr

/-- How a call of the accept loop ends. -/
inductive Outcome
  | returned
  | cancelled
  | osError (ioCancellation soft resource : Bool)
  | runtimeError
  /-- any other exception -/
  | raised
  deriving DecidableEq, Repr

structure State where
  /-- the listening sockets, and whether they are open -/
  sockets : List Bool
  closed : Bool := false
  /-- `_accept_task` -/
  task : Option Task := none
  /-- `close` has been called -/
  asked : Bool := false
  /-- cancels that `close` has handed to `call_soon_threadsafe` -/
  queued : Nat := 0
  deriving DecidableEq, Repr

namespace State

def finishClose (s : State) : State :=
  { s with closed := true, sockets := s.sockets.map fun _ => false }

/-- The `finally` of `run_accept_loop`. -/
def leave (s : State) : State :=
  { s.finishClose with task := some .done }

/-- The head of the loop. -/
def loop (s : State) : State :=
  if s.closed then s.leave else { s with task := some .accepting }

/-- `run_accept_loop` goes on. -/
def resume (s : State) (out : Outcome) : State :=
  match s.task, out with
  | some .accepting, .returned => s.loop
  | some .accepting, .osError ioCancellation soft resource =>
    if ioCancellation then s.leave
    else if s.closed then s.leave
    else if soft then
      if resource then { s with task := some .pausing } else s.loop
    else s.leave
  | some .accepting, _ => s.leave
  | some .pausing, .returned => s.loop
  | some .pausing, _ => s.leave
  | _, _ => s

/-- An exception is thrown into the accept task; `out` is what the call it interrupts makes of
it. -/
def throw (s : State) (out : Outcome) : State :=
  match s.task with
  | some .primed => { s with task := some .done }
  | _ => s.resume out

def running (s : State) : Bool :=
  match s.task with
  | some .done | none => false
  | some _ => true

/-- `close`, from a tealet or from outside. -/
def close (s : State) (tealet : Bool) (out : Outcome) : State :=
  if s.closed then s
  else if s.running then
    if tealet then { s with closed := true }.throw out
    else { s with closed := true, queued := s.queued + 1 }
  else s.finishClose

end State

inductive Action
  | startAcceptLoop
  /-- the accept task has its first turn -/
  | firstTurn
  | resume (out : Outcome)
  /-- somebody throws into the accept task -/
  | throw (out : Outcome)
  | close (tealet : Bool) (out : Outcome)
  /-- a queued cancel is run -/
  | cancel (out : Outcome)
  /-- the end of `wait_closed` -/
  | waitClosed
  deriving DecidableEq, Repr

def step (s : State) : Action → Option State
  | .startAcceptLoop => if s.task = none then some { s with task := some .primed } else none
  | .firstTurn => if s.task = some .primed then some s.loop else none
  | .resume out => if s.task = some .accepting ∨ s.task = some .pausing then some (s.resume out) else none
  | .throw out => if s.running then some (s.throw out) else none
  | .close tealet out => some { s.close tealet out with asked := true }
  | .cancel out =>
    if 0 < s.queued then
      if s.running then some ({ s with queued := s.queued - 1 }.throw out)
      else some { s with queued := s.queued - 1 }
    else none
  | .waitClosed => if s.running then none else some s.finishClose

def init (sockets : List Bool) : State := { sockets := sockets }

namespace State

def AllClosed (s : State) : Prop :=
  ∀ sock ∈ s.sockets, sock = false
deriving Decidable

/-- Nothing is thrown into a task that has not had its first turn, by `close` or after it. -/
def Started (s : State) : Action → Prop
  | .throw _ => s.task = some .primed → s.closed = false
  | .close tealet _ => s.task = some .primed → s.closed = false → tealet = false
  | .cancel _ => s.task ≠ some .primed
  | _ => True

instance (s : State) (a : Action) : Decidable (s.Started a) := by
  unfold Started
  split <;> infer_instance

structure Inv (s : State) : Prop where
  asked : s.asked = true → s.closed = true
  /-- with the server closed, a task is still to close the sockets, or they are closed -/
  closing : s.closed = true → s.running = true ∨ s.AllClosed

variable {s s' : State}

theorem allClosed_finishClose (s : State) : s.finishClose.AllClosed := by
  intro sock hmem
  rcases List.mem_map.1 hmem with ⟨_, -, rfl⟩
  rfl

theorem Inv.closed (hclosed : s.closed = true) (hall : s.AllClosed) : s.Inv :=
  ⟨fun _ => hclosed, fun _ => Or.inr hall⟩

theorem leave_inv (s : State) : s.leave.Inv :=
  Inv.closed rfl (allClosed_finishClose s)

theorem Inv.running (hI : s.Inv) {task : Task} (htask : task ≠ .done) :
    ({ s with task := some task } : State).Inv where
  asked := hI.asked
  closing := fun _ => Or.inl (by cases task <;> simp_all [State.running])

theorem Inv.loop (hI : s.Inv) : s.loop.Inv := by
  unfold State.loop
  split_ifs
  · exact leave_inv s
  · exact hI.running (by simp)

theorem Inv.resume (hI : s.Inv) (out : Outcome) : (s.resume out).Inv := by
  unfold State.resume
  split
  · exact hI.loop
  · split_ifs
    · exact leave_inv s
    · exact leave_inv s
    · exact hI.running (by simp)
    · exact hI.loop
    · exact leave_inv s
  · exact leave_inv s
  · exact hI.loop
  · exact leave_inv s
  · exact hI

theorem Inv.throw (hI : s.Inv) (hstarted : s.task = some .primed → s.closed = false) (out : Outcome) :
    (s.throw out).Inv := by
  unfold State.throw
  split
  · rename_i htask
    have hopen := hstarted htask
    refine ⟨hI.asked, fun hclosed => ?_⟩
    rw [show s.closed = true from hclosed] at hopen
    cases hopen
  · exact hI.resume out

theorem Inv.mono (hI : s.Inv) (hasked : s'.asked = true → s'.closed = true) (hclosed : s'.closed = s.closed)
    (htask : s'.task = s.task) (hsockets : s'.sockets = s.sockets) : s'.Inv where
  asked := hasked
  closing := by
    unfold State.running AllClosed
    rw [hclosed, htask, hsockets]
    exact hI.closing

theorem Inv.cancel (hI : s.Inv) (hrunning : s.running = true) (hprimed : s.task ≠ some .primed)
    (out : Outcome) :
    ({ s with closed := true }.throw out).Inv := by
  have hclosed : ({ s with closed := true } : State).Inv := ⟨fun _ => rfl, fun _ => Or.inl hrunning⟩
  exact hclosed.throw (fun htask => absurd htask hprimed) out

/-! A closed server stays closed. -/

theorem loop_closed (hclosed : s.closed = true) : s.loop.closed = true := by
  unfold State.loop
  split_ifs
  rfl

theorem resume_closed (hclosed : s.closed = true) (out : Outcome) : (s.resume out).closed = true := by
  unfold State.resume
  split
  · exact loop_closed hclosed
  · split_ifs
    · rfl
    · rfl
  · rfl
  · exact loop_closed hclosed
  · rfl
  · exact hclosed

theorem throw_closed (hclosed : s.closed = true) (out : Outcome) : (s.throw out).closed = true := by
  unfold State.throw
  split
  · exact hclosed
  · exact resume_closed hclosed out

theorem Inv.close (hI : s.Inv) (tealet : Bool) (out : Outcome)
    (hok : s.task = some .primed → s.closed = false → tealet = false) :
    ({ s.close tealet out with asked := true } : State).Inv := by
  unfold State.close
  split_ifs with hclosed hrunning htealet
  · exact hI.mono (fun _ => hclosed) rfl rfl rfl
  · have hprimed : s.task ≠ some .primed := fun htask => by
      rw [hok htask (by simpa using hclosed)] at htealet
      cases htealet
    exact (hI.cancel hrunning hprimed out).mono (fun _ => throw_closed rfl out) rfl rfl rfl
  · exact ⟨fun _ => rfl, fun _ => Or.inl hrunning⟩
  · exact Inv.closed rfl (allClosed_finishClose s)

/-- A close leaves a task that closes the sockets, or closes them itself. -/
theorem Inv.step {a : Action} (hI : s.Inv) (hok : s.Started a) (hs : step s a = some s') : s'.Inv := by
  cases a with
  | startAcceptLoop =>
    simp only [Listener.step] at hs
    split_ifs at hs
    cases hs
    exact hI.running (by simp)
  | firstTurn =>
    simp only [Listener.step] at hs
    split_ifs at hs
    cases hs
    exact hI.loop
  | resume out =>
    simp only [Listener.step] at hs
    split_ifs at hs
    cases hs
    exact hI.resume out
  | throw out =>
    simp only [Listener.step] at hs
    split_ifs at hs
    cases hs
    exact hI.throw hok out
  | close tealet out =>
    cases hs
    exact hI.close tealet out hok
  | cancel out =>
    simp only [Listener.step] at hs
    split_ifs at hs with hqueued hrunning
    · cases hs
      have hq : ({ s with queued := s.queued - 1 } : State).Inv := hI.mono hI.asked rfl rfl rfl
      exact hq.throw (fun htask => absurd htask hok) out
    · cases hs
      exact hI.mono hI.asked rfl rfl rfl
  | waitClosed =>
    simp only [Listener.step] at hs
    split_ifs at hs
    cases hs
    exact Inv.closed rfl (allClosed_finishClose s)

theorem Inv.init (sockets : List Bool) : (init sockets).Inv :=
  ⟨nofun, nofun⟩

/-- Once `close` has been called and no accept task runs, every listening socket is closed. -/
def Released (s : State) : Prop :=
  s.asked = true → s.running = false → s.AllClosed

theorem Inv.released (hI : s.Inv) : s.Released := by
  intro hasked hrunning
  refine (hI.closing (hI.asked hasked)).resolve_left fun hr => ?_
  rw [hrunning] at hr
  cases hr

end State

/-! ## Runs -/

theorem close_releases_listeners (sockets : List Bool) (as : List Action)
    (hok : Along step State.Started (init sockets) as) : Always step State.Released (init sockets) as :=
  always_of_along (fun _ hI => hI.released) (fun _ _ _ hI hC hs => hI.step hC hs) as (init sockets)
    (State.Inv.init sockets) hok

/-- The accept task pauses for want of descriptors, and is cancelled there. -/
def closedInPause : List Action :=
  [.startAcceptLoop, .firstTurn, .resume (.osError false true true),
    .close true .cancelled, .close true .returned]

theorem close_releases_listeners_closedInPause : Played step (Always step State.Released)
    (init [true]) closedInPause :=
  ⟨close_releases_listeners [true] closedInPause (by decide), by decide⟩

/-- `close` is called before the first turn of the accept task. -/
theorem close_before_first_turn :
    ∃ s, exec step (init [true]) [.startAcceptLoop, .close true .cancelled] = some s ∧ s.task = some .done ∧
      ¬ s.Released := by
  refine ⟨_, rfl, rfl, fun hreleased => ?_⟩
  have hclosed := hreleased rfl rfl true (by decide)
  cases hclosed

end Pytealet.Streams.Listener
