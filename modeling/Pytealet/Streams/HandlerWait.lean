import Mathlib.Data.List.Perm.Basic
import Mathlib.Tactic.SplitIfs
import Pytealet.Lib.Transition

/-!
# HandlerWait — `StreamServer.wait_closed` and the handler tasks

`_on_accept` spawns a handler task and then puts it into `_handler_tasks`; its done callback takes
it out again.  `wait_closed` waits for the accept task, takes the handlers there are at that moment,
and waits for them one after the other.  Any number of tealets may be in `wait_closed`; each walks a
snapshot of its own, in the order in which the set gives it.

A tealet may come out of a wait for a task that is not done: `Task.run` switches to it, and so does
the exit of a task that does not catch what it has thrown into it.  `Future.result` then raises
`InvalidStateError`.
-/

namespace Pytealet.Streams.HandlerWait

open Lib Lib.Transition List

inductive Accept
  | running
  /-- it has returned, or has been cancelled -/
  | ended
  /-- it has raised -/
  | failed
  deriving DecidableEq, Repr

inductive Handler
  | running
  | returned
  /-- it has raised, or has been cancelled -/
  | failed
  deriving DecidableEq, Repr

/-- Where a call of `wait_closed` is. -/
inductive Walk
  /-- in `accept_task.wait` -/
  | accepting
  /-- the accept task was done at the call -/
  | entered
  | walking (rest : List Nat)
  /-- in `handler.wait` -/
  | waiting (handler : Nat) (rest : List Nat)
  /-- it has returned or raised; these handlers were still running -/
  | left (missed : List Nat)
  /-- its own tealet has been thrown into -/
  | thrown
  deriving DecidableEq, Repr

/-- The snapshot has been taken. -/
def Walk.started : Walk → Bool
  | .walking _ | .waiting _ _ => true
  | _ => false

structure State where
  accept : Accept := .running
  closed : Bool := false
  /-- every handler task ever spawned -/
  handlers : List Handler := []
  /-- `_handler_tasks` -/
  tasks : List Nat := []
  /-- spawned and not yet in `_handler_tasks` -/
  adding : List Nat := []
  walks : List Walk := []
  deriving DecidableEq, Repr

namespace State

/-- The handlers that are not done. -/
def running (s : State) : List Nat :=
  (List.range s.handlers.length).filter fun h => s.handlers[h]? = some .running

def setWalk (s : State) (i : Nat) (w : Walk) : State :=
  { s with walks := s.walks.set i w }

end State

inductive Action
  | close
  | acceptEnds (failed : Bool)
  /-- `_on_accept` spawns a handler -/
  | spawn
  | add (h : Nat)
  | finish (h : Nat) (failed : Bool)
  /-- the done callback of a handler -/
  | drop (h : Nat)
  | waitClosed
  /-- the handlers are copied into a tuple -/
  | snapshot (i : Nat) (order : List Nat)
  /-- the error of the accept task is raised in `wait_closed` -/
  | acceptRaises (i : Nat)
  | next (i : Nat)
  | wake (i : Nat)
  /-- the wait ends before the task that it is for -/
  | steal (i : Nat)
  | interrupt (i : Nat)
  deriving DecidableEq, Repr

def step (s : State) : Action → Option State
  | .close => some { s with closed := true }
  | .acceptEnds failed =>
    if s.accept = .running then some { s with accept := if failed then .failed else .ended } else none
  | .spawn =>
    if s.closed then none
    else some { s with handlers := s.handlers ++ [.running], adding := s.adding ++ [s.handlers.length] }
  | .add h =>
    if h ∈ s.adding then some { s with adding := s.adding.erase h, tasks := s.tasks ++ [h] } else
      none
  | .finish h failed =>
    if s.handlers[h]? = some .running then
      some { s with handlers := s.handlers.set h (if failed then .failed else .returned) }
    else none
  | .drop h => if h ∈ s.tasks ∧ s.handlers[h]? ≠ some .running then
      some { s with tasks := s.tasks.erase h } else none
  | .waitClosed =>
    some { s with walks := s.walks ++ [if s.accept = .running then .accepting else .entered] }
  | .snapshot i order =>
    match s.walks[i]? with
    | some .accepting =>
      if s.accept = .ended ∧ order.Perm s.tasks then some (s.setWalk i (.walking order)) else none
    | some .entered => if order.Perm s.tasks then some (s.setWalk i (.walking order)) else none
    | _ => none
  | .acceptRaises i =>
    match s.walks[i]? with
    | some .accepting => if s.accept = .failed then some (s.setWalk i (.left s.running)) else none
    | _ => none
  | .next i =>
    match s.walks[i]? with
    | some (.walking []) => some (s.setWalk i (.left s.running))
    | some (.walking (h :: rest)) =>
      if s.handlers[h]? = some .running then some (s.setWalk i (.waiting h rest))
      else some (s.setWalk i (.walking rest))
    | _ => none
  | .wake i =>
    match s.walks[i]? with
    | some (.waiting h rest) =>
      match s.handlers[h]? with
      | some .returned => some (s.setWalk i (.walking rest))
      | some .failed => some (s.setWalk i (.left s.running))
      | _ => none
    | _ => none
  | .steal i =>
    match s.walks[i]? with
    | some .accepting => if s.accept = .running then some (s.setWalk i (.left s.running)) else none
    | some (.waiting h _) => if s.handlers[h]? = some .running then
        some (s.setWalk i (.left s.running)) else none
    | _ => none
  | .interrupt i =>
    match s.walks[i]? with
    | some .accepting | some (.waiting _ _) => some (s.setWalk i .thrown)
    | _ => none

def init : State := {}

namespace State

/-- What `wait_closed` raises comes when no handler runs; the snapshot is taken while no handler is
on its way into the set, and no handler is spawned after it. -/
def Quiet (s : State) : Action → Prop
  | .spawn => ∀ w ∈ s.walks, w.started = false
  | .snapshot _ _ => s.adding = []
  | .acceptRaises _ | .steal _ => s.running = []
  | .wake i => ∀ h rest, s.walks[i]? = some (.waiting h rest) → s.handlers[h]? = some .failed →
      s.running = []
  | _ => True

instance (s : State) (a : Action) : Decidable (s.Quiet a) := by
  unfold Quiet
  split
  · infer_instance
  · infer_instance
  · infer_instance
  · infer_instance
  · rename_i i
    cases hwalk : s.walks[i]? with
    | none =>
      exact isTrue nofun
    | some w =>
      cases w with
      | waiting h rest =>
        by_cases hfailed : s.handlers[h]? = some .failed
        · by_cases hnone : s.running = []
          · exact isTrue fun _ _ _ _ => hnone
          · exact isFalse fun hall => hnone (hall h rest rfl hfailed)
        · refine isTrue fun h' rest' heq hfailed' => ?_
          cases heq
          exact absurd hfailed' hfailed
      | _ =>
        exact isTrue nofun
  · infer_instance

/-- The handlers a walk has still to see are among those it has taken. -/
def WalkOk (s : State) : Walk → Prop
  | .walking rest => ∀ h ∈ s.running, h ∈ rest
  | .waiting h rest => ∀ k ∈ s.running, k = h ∨ k ∈ rest
  | .left missed => missed = []
  | _ => True

/-- A handler that runs is in `_handler_tasks`, or about to be. -/
structure Inv (s : State) : Prop where
  tracked : ∀ h ∈ s.running, h ∈ s.tasks ∨ h ∈ s.adding
  walk : ∀ w ∈ s.walks, s.WalkOk w

variable {s s' : State} {h : Nat}

theorem mem_running : h ∈ s.running ↔ s.handlers[h]? = some .running := by
  unfold running
  rw [mem_filter, mem_range, decide_eq_true_eq]
  refine ⟨fun hmem => hmem.2, fun heq => ⟨?_, heq⟩⟩
  exact (List.getElem?_eq_some_iff.1 heq).1

theorem WalkOk.mono {w : Walk} (hw : s.WalkOk w) (hrunning : ∀ h ∈ s'.running, h ∈ s.running) :
    s'.WalkOk w := by
  cases w with
  | walking rest => exact fun h hh => hw h (hrunning h hh)
  | waiting h rest => exact fun k hk => hw k (hrunning k hk)
  | left missed => exact hw
  | _ => trivial

theorem WalkOk.of_not_started {w : Walk} (hw : s.WalkOk w) (hstarted : w.started = false) :
    s'.WalkOk w := by
  cases w with
  | walking rest => cases hstarted
  | waiting h rest => cases hstarted
  | left missed => exact hw
  | _ => trivial

namespace Inv

theorem mono (hI : s.Inv) (hwalks : s'.walks = s.walks) (hrunning : ∀ h ∈ s'.running, h ∈ s.running)
    (htracked : ∀ h ∈ s'.running, h ∈ s.tasks ∨ h ∈ s.adding → h ∈ s'.tasks ∨ h ∈ s'.adding) : s'.Inv where
  tracked := fun h hh => htracked h hh (hI.tracked h (hrunning h hh))
  walk := by
    rw [hwalks]
    exact fun w hw => (hI.walk w hw).mono hrunning

theorem setWalk (hI : s.Inv) (i : Nat) {w : Walk} (hw : s.WalkOk w) : (s.setWalk i w).Inv where
  tracked := hI.tracked
  walk := by
    intro w' hmem
    rcases mem_or_eq_of_mem_set hmem with hmem | rfl
    · exact (hI.walk w' hmem).mono fun h hh => hh
    · exact hw.mono fun h hh => hh

theorem at_walk (hI : s.Inv) {i : Nat} {w : Walk} (hw : s.walks[i]? = some w) : s.WalkOk w :=
  hI.walk w (mem_of_getElem? hw)

theorem snapshot (hI : s.Inv) (i : Nat) {order : List Nat} (hperm : order.Perm s.tasks)
    (hadding : s.adding = []) :
    (s.setWalk i (.walking order)).Inv := by
  refine hI.setWalk i fun h hh => ?_
  rcases hI.tracked h hh with htask | hadd
  · exact hperm.symm.subset htask
  · rw [hadding] at hadd
    cases hadd

theorem spawn (hI : s.Inv) (hquiet : ∀ w ∈ s.walks, w.started = false) :
    ({ s with handlers := s.handlers ++ [.running], adding := s.adding ++ [s.handlers.length] } :
      State).Inv where
  tracked := by
    intro h hh
    rw [mem_running] at hh
    change (s.handlers ++ [Handler.running])[h]? = some .running at hh
    by_cases hlt : h < s.handlers.length
    · rw [List.getElem?_append_left hlt] at hh
      exact (hI.tracked h (mem_running.2 hh)).imp_right fun hadd => mem_append_left _ hadd
    · have hlen := (List.getElem?_eq_some_iff.1 hh).1
      rw [length_append, length_singleton] at hlen
      have heq : h = s.handlers.length := by omega
      exact Or.inr (mem_append_right _ (mem_singleton.2 heq))
  walk := fun w hw => (hI.walk w hw).of_not_started (hquiet w hw)

theorem finish (hI : s.Inv) (k : Nat) {r : Handler} (hr : r ≠ .running) :
    ({ s with handlers := s.handlers.set k r } : State).Inv := by
  have hrunning : ∀ h ∈ ({ s with handlers := s.handlers.set k r } : State).running, h ∈ s.running := by
    intro h hh
    rw [mem_running] at hh ⊢
    change (s.handlers.set k r)[h]? = some .running at hh
    rw [List.getElem?_set] at hh
    split_ifs at hh
    · exact absurd (Option.some.inj hh) hr
    · exact hh
  exact hI.mono rfl hrunning fun h _ htracked => htracked

theorem next (hI : s.Inv) {i k : Nat} {rest : List Nat}
    (hwalk : s.walks[i]? = some (.walking (k :: rest))) :
    (s.handlers[k]? = some .running → (s.setWalk i (.waiting k rest)).Inv) ∧
      (s.handlers[k]? ≠ some .running → (s.setWalk i (.walking rest)).Inv) := by
  have hall := hI.at_walk hwalk
  refine ⟨fun _ => hI.setWalk i fun h hh => mem_cons.1 (hall h hh), fun hdone =>
    hI.setWalk i fun h hh => ?_⟩
  rcases mem_cons.1 (hall h hh) with rfl | hrest
  · exact absurd (mem_running.1 hh) hdone
  · exact hrest

/-- A handler leaves `_handler_tasks` when it is done, and a call goes on only then. -/
theorem step {a : Action} (hI : s.Inv) (hok : s.Quiet a) (hs : step s a = some s') : s'.Inv := by
  cases a with
  | close =>
    cases hs
    exact hI.mono rfl (fun _ hh => hh) fun _ _ htracked => htracked
  | acceptEnds failed =>
    simp only [HandlerWait.step] at hs
    split_ifs at hs <;> cases hs <;> exact hI.mono rfl (fun _ hh => hh) fun _ _ htracked => htracked
  | spawn =>
    simp only [HandlerWait.step] at hs
    split_ifs at hs
    cases hs
    exact hI.spawn hok
  | add k =>
    simp only [HandlerWait.step] at hs
    split_ifs at hs
    cases hs
    refine hI.mono rfl (fun _ hh => hh) fun h _ htracked => ?_
    rcases htracked with htask | hadd
    · exact Or.inl (mem_append_left _ htask)
    · by_cases hhk : h = k
      · exact Or.inl (mem_append_right _ (mem_singleton.2 hhk))
      · exact Or.inr ((mem_erase_of_ne hhk).2 hadd)
  | finish k failed =>
    simp only [HandlerWait.step] at hs
    split_ifs at hs <;> cases hs <;> exact hI.finish k (by simp)
  | drop k =>
    simp only [HandlerWait.step] at hs
    split_ifs at hs with hguard
    cases hs
    refine hI.mono rfl (fun _ hh => hh) fun h hh htracked => htracked.imp_left fun htask => ?_
    refine (mem_erase_of_ne ?_).2 htask
    rintro rfl
    exact hguard.2 (mem_running.1 hh)
  | waitClosed =>
    cases hs
    refine ⟨hI.tracked, fun w hw => ?_⟩
    rcases mem_append.1 hw with hw | hw
    · exact (hI.walk w hw).mono fun h hh => hh
    · rw [mem_singleton.1 hw]
      split_ifs <;> trivial
  | snapshot i order =>
    simp only [HandlerWait.step] at hs
    split at hs
    · split_ifs at hs with hguard
      cases hs
      exact hI.snapshot i hguard.2 hok
    · split_ifs at hs with hguard
      cases hs
      exact hI.snapshot i hguard hok
    · cases hs
  | acceptRaises i =>
    simp only [HandlerWait.step] at hs
    split at hs
    · split_ifs at hs
      cases hs
      exact hI.setWalk i hok
    · cases hs
  | next i =>
    simp only [HandlerWait.step] at hs
    split at hs
    · rename_i hwalk
      cases hs
      refine hI.setWalk i (eq_nil_iff_forall_not_mem.2 fun h hh => ?_)
      cases hI.at_walk hwalk h hh
    · rename_i k rest hwalk
      split_ifs at hs with hrunning
      · cases hs
        exact (hI.next hwalk).1 hrunning
      · cases hs
        exact (hI.next hwalk).2 hrunning
    · cases hs
  | wake i =>
    simp only [HandlerWait.step] at hs
    split at hs
    · rename_i k rest hwalk
      split at hs
      · rename_i hdone
        cases hs
        refine hI.setWalk i fun h hh => (hI.at_walk hwalk h hh).resolve_left ?_
        rintro rfl
        rw [mem_running.1 hh] at hdone
        cases hdone
      · rename_i hfailed
        cases hs
        exact hI.setWalk i (hok k rest hwalk hfailed)
      · cases hs
    · cases hs
  | steal i =>
    simp only [HandlerWait.step] at hs
    split at hs
    · split_ifs at hs
      cases hs
      exact hI.setWalk i hok
    · split_ifs at hs
      cases hs
      exact hI.setWalk i hok
    · cases hs
  | interrupt i =>
    simp only [HandlerWait.step] at hs
    split at hs
    · cases hs
      exact hI.setWalk i trivial
    · cases hs
      exact hI.setWalk i trivial
    · cases hs

theorem init : init.Inv where
  tracked := by simp [HandlerWait.init, running]
  walk := nofun

end Inv

/-- When `wait_closed` has returned or raised of its own, no handler was running. -/
def Waited (s : State) : Prop :=
  ∀ missed, Walk.left missed ∈ s.walks → missed = []

theorem Inv.waited (hI : s.Inv) : s.Waited :=
  fun missed hmem => hI.walk (.left missed) hmem

end State

/-! ## Runs -/

theorem wait_closed_waits (as : List Action) (hok : Along step State.Quiet init as) :
    Always step State.Waited init as :=
  always_of_along (fun _ hI => hI.waited) (fun _ _ _ hI hC hs => hI.step hC hs) as init State.Inv.init hok

/-- The first of two handlers fails after the second has returned. -/
def lateFailure : List Action :=
  [.spawn, .add 0, .spawn, .add 1, .close, .waitClosed, .acceptEnds false, .snapshot 0 [0, 1], .next 0,
    .finish 1 false, .drop 1, .finish 0 true, .wake 0]

theorem wait_closed_waits_lateFailure : Always step State.Waited init lateFailure ∧
    ∃ s, exec step init lateFailure = some s ∧ s.walks = [.left []] :=
  ⟨wait_closed_waits lateFailure (by decide), _, rfl, rfl⟩

/-- The first of two handlers fails while the second runs. -/
theorem failing_handler_ends_wait :
    ∃ s, exec step init [.spawn, .add 0, .spawn, .add 1, .close, .acceptEnds false,
      .waitClosed, .snapshot 0 [0, 1],
      .next 0, .finish 0 true, .wake 0] = some s ∧ ¬ s.Waited := by
  refine ⟨_, rfl, fun hwaited => ?_⟩
  have hnil := hwaited [1] (by decide)
  cases hnil

end Pytealet.Streams.HandlerWait
