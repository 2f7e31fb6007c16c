import Pytealet.Lib.Transition
import Pytealet.Locks.PriorityGraph

/-!
# PriorityLock — `sacquire`, `release`, and recursions that do not come back

`sacquire` of a lock that is held enters the task as a waiter and passes its priority on before the
protected part of the function; a recursion that does not return there is a `RecursionError` out of
`sacquire`.

Which tasks are runnable is up to the scheduler, and an input here.  `acquire` of an asyncio task is
the same without `_waiting_on_priority`.
-/

namespace Pytealet.Locks.PriorityLock

open Lib Lib.Transition Lib.Descent PriorityGraph Function

structure State (κ : Type*) where
  graph : Graph κ
  /-- the task is in the scheduler's queue -/
  runnable : Nat → Bool
  /-- for each `sacquire` that has raised: the lock's waiters and the lock that the task waits on
  are as before, as far as the task is concerned -/
  raised : List Bool := []

inductive Event (κ : Type*)
  | setPriority (t : Nat) (p : κ)
  /-- the scheduler queues the task, or takes it out -/
  | link (t : Nat) (runnable : Bool)
  | acquire (a : Agent) (l : Nat)
  /-- a call whose event is set goes on -/
  | resume (i : Nat)
  /-- an exception is thrown into a call that waits -/
  | throw (i : Nat)
  | release (a : Agent) (l : Nat)
  deriving DecidableEq, Repr

variable {κ : Type*} [LinearOrder κ] [Zero κ]

namespace State

variable (s : State κ)

/-- The agent is not in the scheduler's queue. -/
def runs : Agent → Bool
  | .task t => !s.runnable t
  | .plain _ => true

/-- The agent runs, and is in no call. -/
def idle (a : Agent) : Bool :=
  s.runs a && s.graph.waits.all fun w => w.agent ≠ a

/-- `_propagate_priority` returns. -/
def propagates (g : Graph κ) (l : Nat) : Bool :=
  g.propagatePriority s.runnable g.depth g.depth l

/-- `sacquire` raises, with `g` left behind. -/
def raises (g : Graph κ) (a : Agent) (l : Nat) (wasWaiter : Bool) (waitedOn : Option Nat) : State κ :=
  { s with
    graph := g
    raised := s.raised ++ [decide (a ∈ g.waiterTasks l) == wasWaiter && g.waiting a == waitedOn] }

/-- `sacquire`, up to where it waits -/
def acquire (a : Agent) (l : Nat) : State κ :=
  if !s.graph.locked l then { s with graph := s.graph.take a l }
  else
    let g := s.graph.enter a l
    let wasWaiter : Bool := a ∈ s.graph.waiterTasks l
    if s.propagates g l then { s with graph := g.park ⟨a, l, false, wasWaiter, s.graph.waiting a⟩ }
    else s.raises g a l wasWaiter (s.graph.waiting a)

/-- `sacquire` after its wait.  `super().sacquire()` sets `_locked`, whoever has the lock. -/
def resume (i : Nat) (w : Wait) : State κ :=
  let g := { s.graph with locked := update s.graph.locked w.lock true }.leaveWait i w
  if g.owner w.lock = some w.agent ∨ s.propagates g w.lock = true then
    { s with graph := g.take w.agent w.lock }
  else s.raises g w.agent w.lock w.wasWaiter w.waitedOn

/-- `sacquire` raises what was thrown, or what its last propagation raises. -/
def throw (i : Nat) (w : Wait) : State κ :=
  s.raises (s.graph.leaveWait i w) w.agent w.lock w.wasWaiter w.waitedOn

end State

def step (s : State κ) : Event κ → Option (State κ)
  | .setPriority t p => some { s with graph := { s.graph with priority := update s.graph.priority t p } }
  | .link t runnable => some { s with runnable := update s.runnable t runnable }
  | .acquire a l => if s.idle a then some (s.acquire a l) else none
  | .resume i =>
    match s.graph.waits[i]? with
    | some w => if w.woken && s.runs w.agent then some (s.resume i w) else none
    | none => none
  | .throw i =>
    match s.graph.waits[i]? with
    | some w => if s.runs w.agent then some (s.throw i w) else none
    | none => none
  | .release a l =>
    if s.idle a ∧ s.graph.locked l = true ∧ s.graph.owner l = some a then
      some { s with graph := s.graph.release a l }
    else none

/-- No lock is taken, and each task has a priority. -/
def start (priority : Nat → κ) (runnable : Nat → Bool) : State κ where
  graph := { priority := priority }
  runnable := runnable

/-! ## The property -/

/-- The two walks through the locks come to an end. -/
structure Kept (s : State κ) : Prop where
  effective : ∀ a, ∃ n, (s.graph.getEffectivePriority n a).isSome = true
  propagate : ∀ l, ∃ m n, s.graph.propagatePriority s.runnable m n l = true
  /-- every `sacquire` that has raised has restored what it had entered -/
  restored : ∀ r ∈ s.raised, r = true

/-- A lock that is held is acquired by a task for which no owner of it waits, itself or through
other locks. -/
def ClosesNoCycle (s : State κ) : Event κ → Prop
  | .acquire a l =>
    s.graph.locked l = true → ∀ t, l ∈ s.graph.owned t → ¬ Relation.ReflTransGen s.graph.Child (.task t) a
  | _ => True

structure Inv (s : State κ) : Prop where
  ok : s.graph.Ok
  restored : ∀ r ∈ s.raised, r = true

variable {s s' : State κ}

theorem Inv.kept (h : Inv s) : Kept s where
  effective a := ⟨s.graph.depth, h.ok.effective_returns a⟩
  propagate l := ⟨_, _, h.ok.propagate_returns s.runnable l⟩
  restored := h.restored

omit [LinearOrder κ] [Zero κ] in
theorem idle_waits {a : Agent} (hidle : s.idle a = true) : ∀ w ∈ s.graph.waits, w.agent ≠ a := by
  simp only [State.idle, Bool.and_eq_true, List.all_eq_true, decide_eq_true_eq] at hidle
  exact hidle.2

theorem Inv.acquire {a : Agent} {l : Nat} (h : Inv s) (hidle : s.idle a = true)
    (hcycle : ClosesNoCycle s (.acquire a l)) : Inv (s.acquire a l) := by
  unfold State.acquire
  split
  · exact ⟨h.ok.take (idle_waits hidle), h.restored⟩
  · rename_i hlocked
    have hpark := h.ok.park (idle_waits hidle) (hcycle (by simpa using hlocked))
    have hpropagates : s.propagates (s.graph.enter a l) l = true := by
      have hreturns := hpark.propagate_returns s.runnable l
      rwa [Graph.propagatePriority_park] at hreturns
    dsimp only
    rw [if_pos hpropagates]
    exact ⟨hpark, h.restored⟩

theorem Inv.leaveWait (h : Inv s) {i : Nat} {w : Wait} (hw : s.graph.waits[i]? = some w) :
    (s.graph.leaveWait i w).Ok ∧ (∀ w' ∈ (s.graph.leaveWait i w).waits, w'.agent ≠ w.agent) ∧
      (decide (w.agent ∈ (s.graph.leaveWait i w).waiterTasks w.lock) == w.wasWaiter &&
        (s.graph.leaveWait i w).waiting w.agent == w.waitedOn) = true := by
  obtain ⟨hok, hidle⟩ := h.ok.leaveWait hw
  obtain ⟨hwas, hwaited⟩ := h.ok.fresh w (List.mem_of_getElem? hw)
  refine ⟨hok, hidle, ?_⟩
  rw [hwas, hwaited, hok.not_waiting hidle]
  simp [hok.not_waiter hidle]

theorem Inv.raises (h : Inv s) {g : Graph κ} {a : Agent} {l : Nat}
    {wasWaiter : Bool} {waitedOn : Option Nat}
    (hok : g.Ok)
    (hrestored : (decide (a ∈ g.waiterTasks l) == wasWaiter && g.waiting a == waitedOn) = true) :
    Inv (s.raises g a l wasWaiter waitedOn) where
  ok := hok
  restored := by
    intro r hr
    rcases List.mem_append.1 hr with hold | hnew
    · exact h.restored r hold
    · rw [List.mem_singleton.1 hnew]
      exact hrestored

theorem Inv.resume (h : Inv s) {i : Nat} {w : Wait} (hw : s.graph.waits[i]? = some w) :
    Inv (s.resume i w) := by
  have hlocked : Inv { s with graph := { s.graph with locked := update s.graph.locked w.lock true } } :=
    ⟨⟨h.ok.acyclic, h.ok.waiter, h.ok.waiting, h.ok.single, h.ok.fresh, h.ok.owner, h.ok.calls⟩, h.restored⟩
  obtain ⟨hok, hidle, -⟩ := hlocked.leaveWait hw
  unfold State.resume
  dsimp only
  split
  · exact ⟨hok.take hidle, h.restored⟩
  · rename_i hstuck
    exact absurd (Or.inr (hok.propagate_returns s.runnable w.lock)) hstuck

/-- A lock that is taken without closing a cycle leaves the walks finite. -/
theorem Inv.step {e : Event κ} (h : Inv s) (hcycle : ClosesNoCycle s e)
    (hs : PriorityLock.step s e = some s') :
    Inv s' := by
  cases e with
  | setPriority t p =>
    cases hs
    exact ⟨⟨h.ok.acyclic, h.ok.waiter, h.ok.waiting, h.ok.single, h.ok.fresh,
      h.ok.owner, h.ok.calls⟩, h.restored⟩
  | link t runnable =>
    cases hs
    exact ⟨h.ok, h.restored⟩
  | acquire a l =>
    simp only [PriorityLock.step] at hs
    split at hs <;> cases hs
    rename_i hidle
    exact h.acquire hidle hcycle
  | resume i =>
    simp only [PriorityLock.step] at hs
    split at hs
    · rename_i w hw
      split at hs <;> cases hs
      exact h.resume hw
    · cases hs
  | throw i =>
    simp only [PriorityLock.step] at hs
    split at hs
    · rename_i w hw
      split at hs <;> cases hs
      obtain ⟨hok, -, hrestored⟩ := h.leaveWait hw
      exact h.raises hok hrestored
    · cases hs
  | release a l =>
    simp only [PriorityLock.step] at hs
    split at hs <;> cases hs
    exact ⟨h.ok.release, h.restored⟩

theorem not_kept_acquire {a : Agent} {l : Nat} (hcloses : ¬ ClosesNoCycle s (.acquire a l)) :
    ¬ Kept (s.acquire a l) := by
  simp only [ClosesNoCycle, not_forall, not_not] at hcloses
  obtain ⟨hlocked, t, howned, hpath⟩ := hcloses
  have hcycle : ∀ g : Graph κ, (∀ u v, (s.graph.enter a l).Child u v → g.Child u v) →
      Relation.TransGen g.Child a a := by
    intro g hsub
    have hedge : Relation.TransGen g.Child a (.task t) := .single (hsub _ _ (Graph.child_enter_new howned))
    apply hedge.trans_left
    exact Relation.ReflTransGen.mono (fun u v huv => hsub u v (Graph.child_enter_old huv)) _ _ hpath
  intro hkept
  obtain ⟨n, hreturns⟩ := hkept.effective a
  have hnever :=
    (Graph.recursion_getEffectivePriority (g := (s.acquire a l).graph)).not_returns (hcycle _ ?_) n
  · rw [hnever] at hreturns
    cases hreturns
  · intro u v huv
    unfold State.acquire
    rw [hlocked]
    dsimp only [Bool.not_true]
    split
    · rename_i hfalse
      cases hfalse
    · split
      · exact huv
      · exact huv

omit [LinearOrder κ] [Zero κ] in
theorem Inv.start (priority : Nat → κ) (runnable : Nat → Bool) : Inv (start priority runnable) where
  ok :=
    { acyclic := by
        intro x hcycle
        rcases Relation.TransGen.tail'_iff.1 hcycle with ⟨_, -, t, l, -, hl, -⟩
        cases hl
      waiter := by simp [PriorityLock.start]
      waiting := nofun
      single := List.nodup_nil
      fresh := nofun
      owner := nofun
      calls := Nat.le_refl 0 }
  restored := nofun

/-- Both recursions return in every state, and every `sacquire` that raises restores what it has
entered, exactly in the runs in which no `sacquire` closes a cycle of owners and waiters. -/
theorem priorities_terminate (priority : Nat → κ) (runnable : Nat → Bool) (run : List (Event κ)) :
    Always step Kept (start priority runnable) run ↔
      Along step ClosesNoCycle (start priority runnable) run := by
  apply always_iff_along (I := Inv) (fun _ h => h.kept) (fun _ _ _ h hok hs => Inv.step h hok hs)
  · intro s e s' _ hcloses hs
    cases e with
    | acquire a l =>
      simp only [step] at hs
      split at hs <;> cases hs
      exact not_kept_acquire hcloses
    | setPriority | link | resume | throw | release => exact absurd trivial hcloses
  · exact Inv.start priority runnable

/-- Task 0 acquires a lock twice. -/
theorem second_sacquire_does_not_return :
    (exec step (start (fun _ => (0 : Int)) fun _ => false) [.acquire (.task 0) 5, .acquire (.task 0) 5]).map
        State.raised = some [false] ∧
      ¬ Always step Kept (start (fun _ => (0 : Int)) fun _ => false)
        [.acquire (.task 0) 5, .acquire (.task 0) 5] := by
  have hraised : (exec step (start (fun _ => (0 : Int)) fun _ => false)
      [.acquire (.task 0) 5, .acquire (.task 0) 5]).map State.raised = some [false] := by decide
  refine ⟨hraised, fun hkept => ?_⟩
  cases hkept.2.2.restored false (by decide)

end Pytealet.Locks.PriorityLock
