import Mathlib.Data.Option.Basic
import Mathlib.Logic.Function.Basic
import Pytealet.Lib.Transition

/-!
# Waiter — `IOWaiter` of `io_waiter.py`

The proactor completes an operation once, on any thread and perhaps before the submit returns.
`complete` has the result stored on the scheduler: at once in a live turn, elsewhere by a callback.
Any number of tealets call `wait`, and an exception may be thrown into each of them.

A tealet may also come out of `swait` with `_ready` not set: `Task.run` switches to it, and so does
the exit of a task that does not catch what it has thrown into it.  Its `wait` goes on as if the
result were there.
-/

namespace Pytealet.Io.Waiter

open Lib.Transition

inductive Phase
  | outside
  | parked
  /-- `_ready` has been set -/
  | woken
  deriving DecidableEq

/-- What a call of `wait` has come to. -/
inductive Outcome (V ε : Type*)
  | returned (v : V)
  | raised (e : ε)
  | interrupted
  /-- the assertion of `_stored_result` -/
  | assertion

def Outcome.of {V ε : Type*} : Except ε V → Outcome V ε
  | .ok v => .returned v
  | .error e => .raised e

structure State (τ V ε : Type*) where
  handle : Option Nat := none
  resolved : Option (Except ε V) := none
  released : Bool := false
  /-- `_ready` -/
  isSet : Bool := false
  phase : τ → Phase := fun _ => .outside
  /-- the result with which the proactor has called `complete` -/
  completed : Option (Except ε V) := none
  /-- the calls of `_deliver` that the scheduler has queued -/
  queue : List (Except ε V) := []
  outcomes : List (τ × Outcome V ε) := []
  /-- the calls of `cancel_nowait` -/
  cancels : List Nat := []
  /-- the assertion of `_deliver` has failed -/
  delivered : Bool := false

inductive Act (τ V ε : Type*)
  | bind (handle : Option Nat)
  /-- `live` says whether it is called in a live turn of the scheduler -/
  | complete (result : Except ε V) (live : Bool)
  | drain
  | wait (t : τ)
  | turn (t : τ)
  /-- it comes out of `swait` before `_ready` is set -/
  | steal (t : τ)
  | throw (t : τ)
  | forget

variable {τ V ε : Type*}

namespace State

variable (s : State τ V ε)

/-- `_deliver`; the waiters of `_ready` are woken at once, since it runs in a live turn. -/
def deliver (result : Except ε V) : State τ V ε :=
  if s.resolved = none then
    { s with
      resolved := some result
      isSet := true
      phase := fun t => if s.phase t = .parked then .woken else s.phase t }
  else { s with delivered := true }

def storedResult : Outcome V ε :=
  match s.resolved with
  | some result => .of result
  | none => .assertion

variable [DecidableEq τ]

def ends (t : τ) (o : Outcome V ε) : State τ V ε :=
  { s with outcomes := s.outcomes ++ [(t, o)], phase := Function.update s.phase t .outside }

/-- The end of `wait`, after `_wait_self`. -/
def finish (t : τ) : State τ V ε :=
  { s.ends t s.storedResult with released := true, handle := none }

def wait (t : τ) : State τ V ε :=
  if s.released = true ∨ s.resolved ≠ none ∨ s.handle = none ∨ s.isSet = true then s.finish t
  else { s with phase := Function.update s.phase t .parked }

end State

variable [DecidableEq τ]

def step (s : State τ V ε) : Act τ V ε → Option (State τ V ε)
  | .bind handle => some { s with handle := handle }
  | .complete result live =>
    if s.completed = none then
      let s := { s with completed := some result }
      some (if live then s.deliver result else { s with queue := s.queue ++ [result] })
    else none
  | .drain =>
    match s.queue with
    | [] => none
    | result :: queue => some ({ s with queue := queue }.deliver result)
  | .wait t => if s.phase t = .outside then some (s.wait t) else none
  | .turn t => if s.phase t = .woken then some (s.finish t) else none
  | .steal t => if s.phase t = .parked then some (s.finish t) else none
  | .throw t =>
    if s.phase t = .outside then none
    else some { s.ends t .interrupted with cancels := s.cancels ++ s.handle.toList }
  | .forget => some { s with released := true, handle := none }

/-- `wait` is called when the operation has a result, or the handle of its submit, and nobody comes
out of it before `_ready` is set. -/
def Bound (s : State τ V ε) : Act τ V ε → Prop
  | .wait _ => s.resolved ≠ none ∨ s.handle ≠ none ∧ s.released = false
  | .steal _ => False
  | _ => True

/-- No call of `wait` has failed its assertion. -/
def Asserted (s : State τ V ε) : Prop :=
  ∀ t, (t, Outcome.assertion) ∉ s.outcomes

/-- How a call of `wait` may end. -/
def State.Proper (s : State τ V ε) (o : Outcome V ε) : Prop :=
  o = .interrupted ∨ o = .assertion ∨ ∃ result, s.completed = some result ∧ o = .of result

/-- The result of the operation is not lost and not replaced: a call of `wait` ends with it, unless
it is interrupted or fails its assertion, and nobody is left parked when it is there. -/
structure Kept (s : State τ V ε) : Prop where
  results : ∀ t o, (t, o) ∈ s.outcomes → s.Proper o
  fresh : s.completed = none → s.resolved = none ∧ s.queue = []
  arrived : ∀ result, s.resolved = some result → s.completed = some result
  stored : ∀ result, s.completed = some result →
    s.resolved = some result ∧ s.queue = [] ∨ s.resolved = none ∧ s.queue = [result]
  isSet : s.isSet = true ↔ s.resolved ≠ none
  parked : ∀ t, s.phase t = .parked → s.resolved = none
  woken : ∀ t, s.phase t = .woken → s.resolved ≠ none
  once : s.delivered = false

variable {s s' : State τ V ε}

theorem Kept.ends (h : Kept s) (t : τ) {o : Outcome V ε} (ho : s.Proper o) : Kept (s.ends t o) where
  results u o' ho' := by
    rcases List.mem_append.1 ho' with hold | hnew
    · exact h.results u o' hold
    · cases List.mem_singleton.1 hnew
      exact ho
  fresh := h.fresh
  arrived := h.arrived
  stored := h.stored
  isSet := h.isSet
  parked u hu := by
    by_cases hut : u = t
    · simp [State.ends, hut] at hu
    · exact h.parked u (by simpa [State.ends, hut] using hu)
  woken u hu := by
    by_cases hut : u = t
    · simp [State.ends, hut] at hu
    · exact h.woken u (by simpa [State.ends, hut] using hu)
  once := h.once

omit [DecidableEq τ] in
theorem Kept.proper_stored (h : Kept s) : s.Proper s.storedResult := by
  unfold State.storedResult
  cases hresolved : s.resolved with
  | none => exact .inr (.inl rfl)
  | some result => exact .inr (.inr ⟨result, h.arrived result hresolved, rfl⟩)

theorem Kept.finish (h : Kept s) (t : τ) : Kept (s.finish t) :=
  have hends := h.ends t h.proper_stored
  ⟨hends.results, hends.fresh, hends.arrived, hends.stored, hends.isSet,
    hends.parked, hends.woken, hends.once⟩

omit [DecidableEq τ] in
/-- The result of the operation is stored, and every parked call is woken. -/
theorem Kept.deliver {result : Except ε V} (hcompleted : s.completed = some result)
    (hnone : s.resolved = none)
    (hqueue : s.queue = []) (hresults : ∀ t o, (t, o) ∈ s.outcomes → s.Proper o)
    (honce : s.delivered = false) :
    Kept (s.deliver result) := by
  rw [State.deliver, if_pos hnone]
  exact
    { results := hresults
      fresh := fun hfresh => by
        rw [show s.completed = none from hfresh] at hcompleted
        cases hcompleted
      arrived := fun r hr => by
        cases hr
        exact hcompleted
      stored := fun r hr => .inl ⟨hcompleted.symm.trans hr, hqueue⟩
      isSet := by simp
      parked := fun u hu => by
        by_cases hparked : s.phase u = .parked
        · simp [hparked] at hu
        · simp [hparked] at hu
      woken := fun _ _ => by simp
      once := honce }

omit [DecidableEq τ] in
/-- The proactor completes once, and until then there is no result. -/
theorem Kept.complete (h : Kept s) (hfirst : s.completed = none) (result : Except ε V) (live : Bool) :
    Kept (if live then { s with completed := some result }.deliver result
      else { s with completed := some result, queue := s.queue ++ [result] }) := by
  rcases h.fresh hfirst with ⟨hnone, hqueue⟩
  have hresults : ∀ t o, (t, o) ∈ s.outcomes →
      ({ s with completed := some result } : State τ V ε).Proper o := by
    intro t o ho
    rcases h.results t o ho with hi | ha | ⟨r, hr, -⟩
    · exact .inl hi
    · exact .inr (.inl ha)
    · rw [hfirst] at hr
      cases hr
  cases live with
  | true => exact Kept.deliver (s := { s with completed := some result }) rfl hnone hqueue hresults h.once
  | false =>
    exact
      { results := hresults
        fresh := nofun
        arrived := fun r hr => by
          rw [show s.resolved = some r from hr] at hnone
          cases hnone
        stored := fun r hr => by
          cases hr
          exact .inr ⟨hnone, congrArg (fun l => l ++ [result]) hqueue⟩
        isSet := h.isSet
        parked := h.parked
        woken := h.woken
        once := h.once }

theorem Kept.step (h : Kept s) {a : Act τ V ε} (hs : step s a = some s') : Kept s' := by
  cases a with
  | bind handle =>
    cases hs
    exact ⟨h.results, h.fresh, h.arrived, h.stored, h.isSet, h.parked, h.woken, h.once⟩
  | complete result live =>
    rcases Option.ite_none_right_eq_some.1 hs with ⟨hfirst, ⟨⟩⟩
    exact h.complete hfirst result live
  | drain =>
    simp only [Waiter.step] at hs
    split at hs <;> cases hs
    rename_i result queue hqueue
    -- what is queued is the result of the operation, and nothing else
    obtain ⟨hcompleted, hnone, rfl⟩ : s.completed = some result ∧ s.resolved = none ∧ queue = [] := by
      cases hcompleted : s.completed with
      | none => simp [(h.fresh hcompleted).2] at hqueue
      | some r =>
        rcases h.stored r hcompleted with ⟨-, hempty⟩ | ⟨hnone, hone⟩
        · rw [hqueue] at hempty
          cases hempty
        · rw [hqueue] at hone
          cases hone
          exact ⟨rfl, hnone, rfl⟩
    exact Kept.deliver (s := { s with queue := [] }) hcompleted hnone rfl h.results h.once
  | wait t =>
    rcases Option.ite_none_right_eq_some.1 hs with ⟨-, ⟨⟩⟩
    unfold State.wait
    split
    · exact h.finish t
    · rename_i hpark
      have hnone : s.resolved = none := by
        by_contra hsome
        exact hpark (.inr (.inl hsome))
      have hphase : ∀ u, Function.update s.phase t .parked u = .woken → s.phase u = .woken := by
        intro u hu
        by_cases hut : u = t
        · simp [hut] at hu
        · simpa [hut] using hu
      exact ⟨h.results, h.fresh, h.arrived, h.stored, h.isSet, fun _ _ => hnone,
        fun u hu => h.woken u (hphase u hu),
        h.once⟩
  | turn t | steal t =>
    rcases Option.ite_none_right_eq_some.1 hs with ⟨-, ⟨⟩⟩
    exact h.finish t
  | throw t =>
    rcases Option.ite_none_left_eq_some.1 hs with ⟨-, ⟨⟩⟩
    have hends := h.ends t (.inl rfl)
    exact ⟨hends.results, hends.fresh, hends.arrived, hends.stored, hends.isSet,
      hends.parked, hends.woken, hends.once⟩
  | forget =>
    cases hs
    exact ⟨h.results, h.fresh, h.arrived, h.stored, h.isSet, h.parked, h.woken, h.once⟩

theorem Asserted.finish (h : Asserted s) (hresolved : s.resolved ≠ none) (t : τ) :
    Asserted (s.finish t) := by
  intro u hu
  simp only [State.finish, State.ends, State.storedResult, List.mem_append, List.mem_singleton] at hu
  rcases hu with hu | hu
  · exact h u hu
  · split at hu
    · rename_i result _
      cases result <;> cases hu
    · contradiction

theorem Asserted.step (hI : Kept s) (h : Asserted s) {a : Act τ V ε} (hok : Bound s a)
    (hs : step s a = some s') :
    Asserted s' := by
  cases a with
  | wait t =>
    simp only [Waiter.step] at hs
    split at hs <;> cases hs
    unfold State.wait
    split
    · refine h.finish ?_ t
      have hset := hI.isSet
      grind [Bound]
    · exact h
  | turn t =>
    rcases Option.ite_none_right_eq_some.1 hs with ⟨hwoken, ⟨⟩⟩
    exact h.finish (hI.woken t hwoken) t
  | steal t => exact absurd hok id
  | throw t =>
    rcases Option.ite_none_left_eq_some.1 hs with ⟨-, ⟨⟩⟩
    intro u hu
    rcases List.mem_append.1 hu with hu | hu
    · exact h u hu
    · simp at hu
  | complete result live =>
    simp only [Waiter.step] at hs
    split at hs <;> cases hs
    split
    · unfold State.deliver
      split <;> exact h
    · exact h
  | drain =>
    simp only [Waiter.step] at hs
    split at hs <;> cases hs
    unfold State.deliver
    split <;> exact h
  | _ =>
    cases hs
    exact h

theorem not_asserted (hI : Kept s) {a : Act τ V ε} (hbreak : ¬ Bound s a)
    (hs : step s a = some s') : ¬ Asserted s' := by
  have hfails : ∀ t, s.resolved = none → ¬ Asserted (s.finish t) := by
    intro t hnone h
    exact h t (by simp [State.finish, State.ends, State.storedResult, hnone])
  cases a with
  | wait t =>
    simp only [Bound, not_or, not_and, ne_eq, not_not, Bool.not_eq_false] at hbreak
    simp only [Waiter.step] at hs
    split at hs <;> cases hs
    have hends : s.released = true ∨ s.resolved ≠ none ∨ s.handle = none ∨ s.isSet = true := by
      by_cases hhandle : s.handle = none
      · exact .inr (.inr (.inl hhandle))
      · exact .inl (hbreak.2 hhandle)
    rw [State.wait, if_pos hends]
    exact hfails t hbreak.1
  | steal t =>
    rcases Option.ite_none_right_eq_some.1 hs with ⟨hparked, ⟨⟩⟩
    exact hfails t (hI.parked t hparked)
  | _ => exact absurd trivial hbreak

/-- In every run the result of the operation is kept, and the assertion of `wait` holds throughout
exactly if it is always called with a result or a handle and goes on only when the result is
there. -/
theorem waiter_keeps_result (as : List (Act τ V ε)) :
    Always step Kept ({} : State τ V ε) as ∧
      (Always step Asserted ({} : State τ V ε) as ↔ Along step Bound ({} : State τ V ε) as) := by
  have hinit : Kept ({} : State τ V ε) := by constructor <;> simp
  refine ⟨always_of_invariant (fun _ hI => hI) (fun _ _ _ hI hs => hI.step hs) as _ hinit, ?_⟩
  exact always_iff_along (I := fun s => Kept s ∧ Asserted s) (fun _ hI => hI.2)
    (fun _ _ _ hI hok hs => ⟨hI.1.step hs, hI.2.step hI.1 hok hs⟩)
    (fun _ _ _ hI hbreak hs => not_asserted hI.1 hbreak hs) as _ ⟨hinit, by simp [Asserted]⟩

end Pytealet.Io.Waiter
