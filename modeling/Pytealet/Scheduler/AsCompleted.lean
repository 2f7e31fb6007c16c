import Mathlib.Tactic.SplitIfs
import Pytealet.Lib.Transition

/-!
# AsCompleted — `as_completed` and where its timeout is raised

`_as_completed_futures` is a generator: between two steps it is suspended at its `yield`, inside of
the `with` block of its `Timeout`.  The timer is armed in the first step and throws into the tealet
that has made that step, wherever that tealet is parked then.

One event is what runs without a switch.  Steps may be made from several tealets, and the exceptions
of the consumer and of other timeouts are an input.
-/

namespace Pytealet.Scheduler.AsCompleted

open Lib Lib.Transition

structure Exc where
  id : Nat
  /-- it is an `Exception`, not only a `BaseException` -/
  isException : Bool
  deriving DecidableEq, Repr

/-- What `Timeout.__exit__` raises for its own sentinel. -/
inductive Raised
  /-- `Operation timed out`, from the sentinel -/
  | timeoutError
  /-- `raise_as_is`, without the sentinel -/
  | context (e : Exc)
  deriving DecidableEq, Repr

/-- `Timeout.__exit__` of the sentinel; `context` is the exception that was being handled when it
was thrown. -/
def timeoutExit : Option Exc → Raised
  | some e => if e.isException then .timeoutError else .context e
  | none => .timeoutError

inductive Gen (τ : Type*)
  /-- before the first step -/
  | created
  /-- `t` is in a step, parked in `sget` -/
  | waiting (t : τ) (context : Option Exc)
  /-- at the `yield` -/
  | suspended
  | closed
  deriving DecidableEq, Repr

/-- What the tealets see. -/
inductive Report (τ : Type*)
  /-- a step returns a child -/
  | yields (child : Nat)
  /-- a step raises `StopIteration` -/
  | stops
  /-- a step raises for the timeout -/
  | expires (raised : Raised)
  /-- a step raises something else -/
  | raises (e : Exc)
  /-- `generator already executing` -/
  | busy
  /-- the sentinel is thrown into the code of `t` -/
  | interrupts (t : τ)
  deriving DecidableEq, Repr

structure State (τ : Type*) where
  entries : List Nat
  timeout : Option Int
  /-- the scheduler's clock -/
  now : Int := 0
  /-- the children that are done -/
  finished : List Nat := []
  /-- the tealets that have run to their end -/
  gone : List τ := []
  gen : Gen τ := .created
  /-- `pending_callbacks`, while `complete_next` is registered with them -/
  pendingCallbacks : List Nat := []
  completed : List Nat := []
  isShutdown : Bool := false
  /-- the timer: its target and its time -/
  handle : Option (τ × Int) := none
  expired : Bool := false
  log : List (Report τ) := []
  deriving DecidableEq, Repr

inductive Event (τ : Type*)
  | tick (n : Nat)
  /-- a child is done, and runs its callbacks -/
  | completes (child : Nat)
  /-- `t` makes a step; `context` is the exception that it is handling there -/
  | next (t : τ) (context : Option Exc)
  /-- the waiter of `sget` is set, and the tealet runs -/
  | resume
  /-- an exception is thrown into the tealet that is parked in `sget` -/
  | throw (e : Exc)
  /-- the generator is closed, or dropped, or the consumer throws `e` into it -/
  | close (e : Option Exc)
  /-- the timer is due and runs -/
  | fire
  /-- a tealet runs to its end -/
  | exits (t : τ)
  deriving DecidableEq, Repr

variable {τ : Type*}

namespace State

variable (s : State τ)

def report (r : Report τ) : State τ :=
  { s with log := s.log ++ [r] }

/-- The block of the `Timeout` is left, and the callbacks are removed. -/
def leave : State τ :=
  { s with gen := .closed, handle := none, pendingCallbacks := [] }

/-- `completed.sget()` and the `yield`. -/
def sget (t : τ) (context : Option Exc) : State τ :=
  match s.completed with
  | child :: rest => { s with completed := rest, gen := .suspended }.report (.yields child)
  | [] =>
    -- `QueueShutDown`
    if s.isShutdown then s.leave.report .stops
    else { s with gen := .waiting t context }

/-- The first step. -/
def first (t : τ) (context : Option Exc) : State τ :=
  let children := s.entries.eraseDups
  if children = [] then { s with gen := .closed }.report .stops
  else
    { s with
      pendingCallbacks := children.filter (· ∉ s.finished)
      completed := children.filter (· ∈ s.finished)
      isShutdown := children.all (· ∈ s.finished)
      handle := s.timeout.map fun delay => (t, s.now + delay) }.sget t context

def completeNext (child : Nat) : State τ :=
  { s with
    pendingCallbacks := s.pendingCallbacks.erase child
    completed := s.completed ++ [child]
    isShutdown := s.isShutdown || s.pendingCallbacks.erase child = [] }

variable [DecidableEq τ]

/-- `Timeout._timeout`: `target.throw` of the sentinel. -/
def fires (target : τ) : State τ :=
  let s₁ := { s with handle := none, expired := true }
  match s.gen with
  | .waiting t context =>
    if t = target then s₁.leave.report (.expires (timeoutExit context))
    else if target ∈ s.gone then s₁
    else s₁.report (.interrupts target)
  | _ => if target ∈ s.gone then s₁ else s₁.report (.interrupts target)

/-- `t` is inside of a step. -/
def Inside (t : τ) : Prop :=
  ∃ context, s.gen = .waiting t context

end State

variable [DecidableEq τ]

def step (s : State τ) : Event τ → Option (State τ)
  | .tick n => some { s with now := s.now + n }
  | .completes child =>
    if child ∈ s.finished then none
    else
      let s₁ := { s with finished := s.finished ++ [child] }
      if child ∈ s.pendingCallbacks then some (s₁.completeNext child) else some s₁
  | .next t context =>
    if t ∈ s.gone then none
    else
      match s.gen with
      | .created => some (s.first t context)
      | .waiting t' _ => if t = t' then none else some (s.report .busy)
      | .suspended => some (s.sget t context)
      | .closed => some (s.report .stops)
  | .resume =>
    match s.gen with
    | .waiting t context =>
      if s.completed = [] ∧ s.isShutdown = false then none else some (s.sget t context)
    | _ => none
  | .throw e =>
    match s.gen with
    | .waiting _ _ => some (s.leave.report (.raises e))
    | _ => none
  | .close e =>
    match s.gen with
    | .waiting _ _ => some (s.report .busy)
    | _ =>
      match e with
      | some e => some (s.leave.report (.raises e))
      | none => some s.leave
  | .fire =>
    match s.handle with
    | some (target, when) => if when ≤ s.now then some (s.fires target) else none
    | none => none
  | .exits t =>
    match s.gen with
    | .waiting t' _ => if t = t' then none else some { s with gone := t :: s.gone }
    | _ => some { s with gone := t :: s.gone }

def start (entries : List Nat) (timeout : Option Int) (now : Int) (finished : List Nat) : State τ :=
  { entries, timeout, now, finished }

/-! ## Where the timeout shows -/

/-- The timeout is seen as the `TimeoutError` of a step, or not at all. -/
def Report.Timely : Report τ → Prop
  | .expires raised => raised = .timeoutError
  | .interrupts _ => False
  | _ => True

structure Kept (s : State τ) : Prop where
  timely : ∀ r ∈ s.log, r.Timely
  /-- no timer is left behind an iterator that was exhausted or closed -/
  closed : s.gen = .closed → s.handle = none

instance : DecidablePred (Report.Timely (τ := τ))
  | .expires raised => inferInstanceAs (Decidable (raised = .timeoutError))
  | .interrupts _ => isFalse id
  | .yields _ | .stops | .raises _ | .busy => isTrue trivial

instance (s : State τ) : Decidable (Kept s) :=
  decidable_of_iff ((∀ r ∈ s.log, r.Timely) ∧ (s.gen = .closed → s.handle = none))
    ⟨fun h => ⟨h.1, h.2⟩, fun h => ⟨h.timely, h.closed⟩⟩

/-- The timer fires while its target is inside of a step and handles no `BaseException` that is not
an `Exception`, or has run to its end. -/
def FiresInside (s : State τ) : Event τ → Prop
  | .fire =>
    ∀ target when, s.handle = some (target, when) →
      target ∈ s.gone ∨
        ∃ context, s.gen = .waiting target context ∧ ∀ e, context = some e → e.isException = true
  | _ => True

structure Inv (s : State τ) : Prop where
  timely : ∀ r ∈ s.log, r.Timely
  /-- the timer is armed inside of the `with` block only -/
  armed : s.handle ≠ none → s.gen = .suspended ∨ ∃ t, s.Inside t
  parked : ∀ t, s.Inside t → t ∉ s.gone

variable {s s' : State τ}

omit [DecidableEq τ] in
theorem Inv.kept (h : Inv s) : Kept s where
  timely := h.timely
  closed hclosed := by
    by_contra harmed
    rcases h.armed harmed with hgen | ⟨t, context, hgen⟩
    · rw [hclosed] at hgen
      cases hgen
    · rw [hclosed] at hgen
      cases hgen

omit [DecidableEq τ] in
theorem timely_report {r : Report τ} (hlog : ∀ r ∈ s.log, r.Timely) (hr : r.Timely) :
    ∀ x ∈ (s.report r).log, x.Timely := by
  intro x hx
  rcases List.mem_append.1 hx with hold | hnew
  · exact hlog x hold
  · rw [List.mem_singleton.1 hnew]
    exact hr

omit [DecidableEq τ] in
theorem Inv.report {r : Report τ} (h : Inv s) (hr : r.Timely) : Inv (s.report r) where
  timely := timely_report h.timely hr
  armed := h.armed
  parked := h.parked

omit [DecidableEq τ] in
theorem inv_leave (hlog : ∀ r ∈ s.log, r.Timely) : Inv s.leave where
  timely := hlog
  armed := nofun
  parked := nofun

omit [DecidableEq τ] in
theorem inv_sget {t : τ} (hlog : ∀ r ∈ s.log, r.Timely) (ht : t ∉ s.gone) (context : Option Exc) :
    Inv (s.sget t context) := by
  unfold State.sget
  split
  · exact
      { timely := timely_report hlog (r := .yields _) trivial
        armed := fun _ => Or.inl rfl
        parked := nofun }
  · split
    · exact (inv_leave hlog).report trivial
    · exact
        { timely := hlog
          armed := fun _ => Or.inr ⟨t, context, rfl⟩
          parked := by
            rintro t' ⟨context', hgen⟩
            cases hgen
            exact ht }

omit [DecidableEq τ] in
theorem Inv.first {t : τ} (h : Inv s) (hgen : s.gen = .created) (ht : t ∉ s.gone) (context : Option Exc) :
    Inv (s.first t context) := by
  have hunarmed : s.handle = none := by
    by_contra harmed
    rcases h.armed harmed with hother | ⟨t', context', hother⟩
    · rw [hgen] at hother
      cases hother
    · rw [hgen] at hother
      cases hother
  unfold State.first
  dsimp only
  split
  · exact
      { timely := timely_report h.timely (r := .stops) trivial
        armed := fun harmed => absurd hunarmed harmed
        parked := nofun }
  · apply inv_sget
    · exact h.timely
    · exact ht

theorem Inv.fires {target : τ} {when : Int} (h : Inv s) (hhandle : s.handle = some (target, when))
    (hinside : FiresInside s .fire) : Inv (s.fires target) := by
  have hgone : target ∈ s.gone → Inv { s with handle := none, expired := true } := fun _ =>
    { timely := h.timely
      armed := nofun
      parked := h.parked }
  rcases hinside target when hhandle with hover | ⟨context, hgen, hcontext⟩
  · unfold State.fires
    dsimp only
    split
    · rename_i t context hgen
      have hother : t ≠ target := by
        rintro rfl
        exact h.parked t ⟨context, hgen⟩ hover
      rw [if_neg hother, if_pos hover]
      exact hgone hover
    · rw [if_pos hover]
      exact hgone hover
  · have hexit : timeoutExit context = .timeoutError := by
      cases context with
      | none => rfl
      | some e => simp [timeoutExit, hcontext e rfl]
    simp only [State.fires, hgen, if_pos]
    apply Inv.report
    · exact inv_leave h.timely
    · exact hexit

theorem not_kept_fires {target : τ} {when : Int} (hhandle : s.handle = some (target, when))
    (houtside : ¬ FiresInside s .fire) : ¬ Kept (s.fires target) := by
  have hnot : target ∉ s.gone ∧
      ∀ context, s.gen = .waiting target context → ∃ e, context = some e ∧ e.isException = false := by
    constructor
    · intro hover
      apply houtside
      intro target' when' hhandle'
      rw [hhandle] at hhandle'
      cases hhandle'
      exact Or.inl hover
    · intro context hgen
      by_contra hall
      apply houtside
      intro target' when' hhandle'
      rw [hhandle] at hhandle'
      cases hhandle'
      refine Or.inr ⟨context, hgen, ?_⟩
      intro e he
      by_contra hbase
      exact hall ⟨e, he, Bool.not_eq_true _ ▸ hbase⟩
  have hseen : ∀ (s₁ : State τ) (r : Report τ), ¬ r.Timely → ¬ Kept (s₁.report r) :=
    fun s₁ r hr hkept => hr (hkept.timely r (List.mem_append_right _ (List.mem_singleton_self r)))
  unfold State.fires
  dsimp only
  split
  · rename_i t context hgen
    by_cases htarget : t = target
    · subst htarget
      obtain ⟨e, rfl, hbase⟩ := hnot.2 context hgen
      rw [if_pos rfl]
      apply hseen
      simp [Report.Timely, timeoutExit, hbase]
    · rw [if_neg htarget, if_neg hnot.1]
      exact hseen _ _ id
  · rw [if_neg hnot.1]
    exact hseen _ _ id

theorem Inv.step {e : Event τ} (h : Inv s) (hinside : FiresInside s e)
    (hs : AsCompleted.step s e = some s') :
    Inv s' := by
  cases e with
  | tick n =>
    cases hs
    exact ⟨h.timely, h.armed, h.parked⟩
  | completes child =>
    simp only [AsCompleted.step] at hs
    split_ifs at hs <;> cases hs
    · exact ⟨h.timely, h.armed, h.parked⟩
    · exact ⟨h.timely, h.armed, h.parked⟩
  | next t context =>
    simp only [AsCompleted.step] at hs
    split at hs
    · cases hs
    · rename_i ht
      split at hs
      · rename_i hgen
        cases hs
        exact h.first hgen ht context
      · split at hs <;> cases hs
        exact h.report trivial
      · cases hs
        exact inv_sget h.timely ht context
      · cases hs
        exact h.report trivial
  | resume =>
    simp only [AsCompleted.step] at hs
    split at hs
    · rename_i t context hgen
      split at hs <;> cases hs
      exact inv_sget h.timely (h.parked t ⟨context, hgen⟩) context
    · cases hs
  | throw e =>
    simp only [AsCompleted.step] at hs
    split at hs <;> cases hs
    exact (inv_leave h.timely).report trivial
  | close e =>
    simp only [AsCompleted.step] at hs
    split at hs
    · cases hs
      exact h.report trivial
    · split at hs <;> cases hs
      · exact (inv_leave h.timely).report trivial
      · exact inv_leave h.timely
  | fire =>
    simp only [AsCompleted.step] at hs
    split at hs
    · rename_i hhandle
      split at hs <;> cases hs
      exact h.fires hhandle hinside
    · cases hs
  | exits t =>
    have hexits : (∀ context, s.gen ≠ .waiting t context) → Inv { s with gone := t :: s.gone } := by
      intro hgen
      refine ⟨h.timely, h.armed, ?_⟩
      rintro t' ⟨context, hgen'⟩ hgone
      rcases List.mem_cons.1 hgone with rfl | hgone
      · exact hgen context hgen'
      · exact h.parked t' ⟨context, hgen'⟩ hgone
    simp only [AsCompleted.step] at hs
    split at hs
    · rename_i t' context' hgen'
      split at hs <;> cases hs
      rename_i hother
      apply hexits
      intro context hgen
      rw [hgen'] at hgen
      cases hgen
      exact hother rfl
    · rename_i hnot
      cases hs
      exact hexits fun context hgen => hnot t context hgen

omit [DecidableEq τ] in
theorem Inv.start (entries : List Nat) (timeout : Option Int) (now : Int) (finished : List Nat) :
    Inv (start entries timeout now finished : State τ) where
  timely := nofun
  armed := nofun
  parked := nofun

/-- The timeout stays inside of the iterator exactly in the runs whose timer fires inside of a
step. -/
theorem timeout_stays_inside (entries : List Nat) (timeout : Option Int) (now : Int) (finished : List Nat)
    (run : List (Event τ)) :
    Always step Kept (start entries timeout now finished) run ↔
      Along step FiresInside (start entries timeout now finished) run := by
  apply always_iff_along (I := Inv) (fun _ h => h.kept) (fun _ _ _ h hinside hs => Inv.step h hinside hs)
  · intro s e s' _ houtside hs
    cases e with
    | fire =>
      simp only [step] at hs
      split at hs
      · rename_i hhandle
        split at hs <;> cases hs
        exact not_kept_fires hhandle houtside
      · cases hs
    | tick | completes | next | resume | throw | close | exits => exact absurd trivial houtside
  · exact Inv.start entries timeout now finished

/-- Two children and a timeout of 5: the first child is done in time, and the consumer sleeps in its
loop body. -/
def sleepsInBody : List (Event Nat) :=
  [.next 0 none, .completes 10, .resume, .tick 5, .fire]

/-- The sentinel is thrown into the loop body. -/
theorem timeout_interrupts_body :
    (exec step (start [10, 11] (some 5) 0 []) sleepsInBody).map State.log =
      some [.yields 10, .interrupts 0] ∧
      ¬ Always step Kept (start [10, 11] (some 5) 0 []) sleepsInBody := by
  decide

end Pytealet.Scheduler.AsCompleted
