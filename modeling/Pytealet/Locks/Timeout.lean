import Mathlib.Logic.Function.Basic
import Mathlib.Tactic.SplitIfs
import Pytealet.Lib.Transition

/-!
# Timeout — into which tealet a `Timeout` throws its sentinel

`__enter__` and `reschedule` arm a timer with the tealet that is running as its target; the timer
throws the sentinel there, whenever it fires.  `__exit__` cancels the handle that it knows of, and
turns the sentinel that arrives into `TimeoutError`.

The state is any number of timeouts.  Which timer is due next, and what a body raises, are inputs.
-/

namespace Pytealet.Locks.Timeout

open Lib Lib.Transition Function List

inductive Exc
  /-- `_exc` of a timeout, a `RawTimeoutError` -/
  | sentinel (timeout : Nat)
  | other (id : Nat) (isException : Bool)
  deriving DecidableEq, Repr

/-- `isinstance(exc, Exception)`; `RawTimeoutError` is a `BaseException` only. -/
def Exc.isException : Exc → Bool
  | .sentinel _ => false
  | .other _ isException => isException

inductive Raised
  /-- `Operation timed out`, from the sentinel -/
  | timeoutError
  | assertionError
  | exc (e : Exc)
  deriving DecidableEq, Repr

/-- `__exit__` of a timeout, with what leaves the `with` block.  `chain` is
`exception_split_context` of the exception that arrives, empty where the body ends without one. -/
def exit (timeout : Nat) (expired : Bool) (chain : List Exc) : Option Raised :=
  match chain with
  | [] => none
  | e :: contexts =>
    if e ≠ .sentinel timeout then some (.exc e)
    else if !expired then some .assertionError
    else
      match contexts with
      | c :: _ => if c.isException then some .timeoutError else some (.exc c)
      | [] => some .timeoutError

structure TimerHandle (τ : Type*) where
  timeout : Nat
  target : τ
  /-- neither cancelled nor run -/
  armed : Bool
  deriving DecidableEq, Repr

/-- A throw of a sentinel; `entered` says whether the target is in the block of the timeout. -/
structure Thrown (τ : Type*) where
  timeout : Nat
  target : τ
  entered : Bool
  deriving DecidableEq, Repr

structure State (τ : Type*) where
  /-- the timers of the scheduler, in the order in which they were made -/
  handles : List (TimerHandle τ) := []
  handle : Nat → Option Nat := fun _ => none
  expired : Nat → Bool := fun _ => false
  /-- the tealets that have entered a timeout and not left it -/
  inside : Nat → List τ := fun _ => []
  thrown : List (Thrown τ) := []
  /-- what has left the blocks -/
  left : List (Nat × Option Raised) := []

inductive Event (τ : Type*)
  | enter (t : τ) (timeout : Nat)
  /-- `reschedule`, called in `t`: a tealet, or the one that drains the callbacks -/
  | reschedule (t : τ) (timeout : Nat)
  /-- a timer is due, and runs -/
  | fire (n : Nat)
  | leave (t : τ) (timeout : Nat) (chain : List Exc)
  deriving DecidableEq, Repr

variable {τ : Type*} [DecidableEq τ]

namespace State

variable (s : State τ)

/-- `_handle.cancel()` -/
def cancel (timeout : Nat) : State τ :=
  match s.handle timeout with
  | some n => { s with handles := s.handles.modify n fun timer => { timer with armed := false } }
  | none => s

/-- `call_at(self._when, self._timeout, tealet.current())` -/
def arm (timeout : Nat) (t : τ) : State τ :=
  { s with
    handles := s.handles ++ [⟨timeout, t, true⟩]
    handle := update s.handle timeout (some s.handles.length) }

def enter (t : τ) (timeout : Nat) : State τ :=
  { s.arm timeout t with inside := update s.inside timeout (t :: s.inside timeout) }

def reschedule (t : τ) (timeout : Nat) : State τ :=
  if !s.expired timeout && (s.handle timeout).isSome then (s.cancel timeout).arm timeout t else s

/-- `_timeout` -/
def fire (n : Nat) (timer : TimerHandle τ) : State τ :=
  { s with
    handles := s.handles.set n { timer with armed := false }
    expired := update s.expired timer.timeout true
    thrown := s.thrown ++ [⟨timer.timeout, timer.target, timer.target ∈ s.inside timer.timeout⟩] }

def leave (t : τ) (timeout : Nat) (chain : List Exc) : State τ :=
  { s.cancel timeout with
    inside := update s.inside timeout ((s.inside timeout).erase t)
    left := s.left ++ [(timeout, exit timeout (s.expired timeout) chain)] }

end State

def step (s : State τ) : Event τ → Option (State τ)
  | .enter t timeout => some (s.enter t timeout)
  | .reschedule t timeout => some (s.reschedule t timeout)
  | .fire n =>
    match s.handles[n]? with
    | some timer => if timer.armed then some (s.fire n timer) else none
    | none => none
  | .leave t timeout chain =>
    if t ∈ s.inside timeout ∧ chain.Nodup then some (s.leave t timeout chain) else none

/-! ## The property -/

/-- A sentinel is thrown only into a tealet in the block of its timeout, and does not leave this
block. -/
structure Kept (s : State τ) : Prop where
  thrown : ∀ x ∈ s.thrown, x.entered = true
  left : ∀ x ∈ s.left, x.2 ≠ some (.exc (.sentinel x.1))

/-- `_handle` is neither cancelled nor run. -/
def State.live (s : State τ) (timeout : Nat) : Bool :=
  match s.handle timeout with
  | some n => (s.handles[n]?).any TimerHandle.armed
  | none => false

/-- A timeout is entered while no timer of it is armed, and rescheduled by a tealet in its block,
where it is rescheduled at all. -/
def Proper (s : State τ) : Event τ → Prop
  | .enter _ timeout => s.live timeout = false
  | .reschedule t timeout => s.expired timeout = true ∨ s.handle timeout = none ∨ t ∈ s.inside timeout
  | _ => True

instance (s : State τ) : DecidablePred (Proper s)
  | .enter _ timeout => inferInstanceAs (Decidable (s.live timeout = false))
  | .reschedule t timeout =>
    inferInstanceAs (Decidable (s.expired timeout = true ∨ s.handle timeout = none ∨ t ∈ s.inside timeout))
  | .fire _ | .leave _ _ _ => isTrue trivial

omit [DecidableEq τ] in
theorem exit_ne_sentinel (timeout : Nat) (expired : Bool) {chain : List Exc} (hchain : chain.Nodup) :
    exit timeout expired chain ≠ some (.exc (.sentinel timeout)) := by
  cases chain with
  | nil =>
    nofun
  | cons e contexts =>
    unfold exit
    dsimp only
    split_ifs with hother hexpired
    · intro heq
      cases heq
      exact hother rfl
    · nofun
    · rw [not_not] at hother
      cases contexts with
      | nil =>
        nofun
      | cons c contexts =>
        dsimp only
        split_ifs
        · nofun
        · intro heq
          cases heq
          -- the walk of the contexts meets the sentinel once
          rw [hother] at hchain
          simp at hchain

/-! ## Runs -/

structure Inv (s : State τ) : Prop where
  kept : Kept s
  /-- an armed timer is the handle of its timeout, and aims into its block -/
  armed : ∀ n timer, s.handles[n]? = some timer → timer.armed = true →
    timer.target ∈ s.inside timer.timeout ∧ s.handle timer.timeout = some n

variable {s s' : State τ}

omit [DecidableEq τ] in
theorem cancel_fields (s : State τ) (timeout : Nat) :
    (s.cancel timeout).handle = s.handle ∧ (s.cancel timeout).inside = s.inside ∧
      (s.cancel timeout).thrown = s.thrown ∧ (s.cancel timeout).left = s.left ∧
        (s.cancel timeout).handles.length = s.handles.length := by
  unfold State.cancel
  split
  · exact ⟨rfl, rfl, rfl, rfl, length_modify _ _ _⟩
  · exact ⟨rfl, rfl, rfl, rfl, rfl⟩

theorem Inv.armed_cancel (h : Inv s) {timeout n : Nat} {timer : TimerHandle τ}
    (hn : (s.cancel timeout).handles[n]? = some timer) (harmed : timer.armed = true) :
    s.handles[n]? = some timer ∧ timer.timeout ≠ timeout := by
  unfold State.cancel at hn
  split at hn
  · rename_i m hm
    rw [List.getElem?_modify] at hn
    obtain ⟨before, hbefore, heq⟩ := Option.map_eq_some_iff.1 hn
    by_cases hsame : m = n
    · rw [if_pos hsame] at heq
      rw [← heq] at harmed
      cases harmed
    · rw [if_neg hsame] at heq
      subst heq
      refine ⟨hbefore, ?_⟩
      rintro rfl
      have hhandle := (h.armed n before hbefore harmed).2
      rw [hm] at hhandle
      cases hhandle
      exact hsame rfl
  · rename_i hnone
    refine ⟨hn, ?_⟩
    rintro rfl
    rw [(h.armed n timer hn harmed).2] at hnone
    cases hnone

omit [DecidableEq τ] in
theorem arm_cases {timeout n : Nat} {t : τ} {timer : TimerHandle τ}
    (hn : (s.arm timeout t).handles[n]? = some timer) :
    s.handles[n]? = some timer ∨ n = s.handles.length ∧ timer = ⟨timeout, t, true⟩ := by
  rcases Nat.lt_trichotomy n s.handles.length with hlt | rfl | hgt
  · exact Or.inl (List.getElem?_append_left hlt ▸ hn)
  · refine Or.inr ⟨rfl, ?_⟩
    simpa [State.arm] using hn.symm
  · have hlength : (s.arm timeout t).handles.length ≤ n := by
      rw [State.arm, length_append]
      exact hgt
    rw [List.getElem?_eq_none hlength] at hn
    cases hn

omit [DecidableEq τ] in
theorem Inv.arms (s₁ : State τ) {s₂ : State τ} (timeout : Nat) (t : τ) (hkept : Kept s₂)
    (harmed : ∀ n timer, s₁.handles[n]? = some timer → timer.armed = true →
      timer.timeout ≠ timeout ∧ timer.target ∈ s₂.inside timer.timeout ∧ s₁.handle timer.timeout = some n)
    (hhandles : s₂.handles = (s₁.arm timeout t).handles) (hhandle : s₂.handle = (s₁.arm timeout t).handle)
    (ht : t ∈ s₂.inside timeout) : Inv s₂ where
  kept := hkept
  armed := by
    intro n timer hn hlive
    rw [hhandles] at hn
    rw [hhandle]
    rcases arm_cases hn with hold | ⟨rfl, rfl⟩
    · obtain ⟨hne, htarget, hsame⟩ := harmed n timer hold hlive
      refine ⟨htarget, ?_⟩
      simpa [State.arm, update_of_ne hne] using hsame
    · exact ⟨ht, by simp [State.arm]⟩

theorem Inv.enter {t : τ} {timeout : Nat} (h : Inv s) (hidle : s.live timeout = false) :
    Inv (s.enter t timeout) := by
  apply Inv.arms s timeout t
  · exact ⟨h.kept.thrown, h.kept.left⟩
  · intro n timer hn harmed
    obtain ⟨htarget, hhandle⟩ := h.armed n timer hn harmed
    have hne : timer.timeout ≠ timeout := by
      rintro rfl
      simp [State.live, hhandle, hn, harmed] at hidle
    refine ⟨hne, ?_, hhandle⟩
    simpa [State.enter, update_of_ne hne] using htarget
  · rfl
  · rfl
  · simp [State.enter]

theorem Inv.reschedule {t : τ} {timeout : Nat} (h : Inv s)
    (hproper : s.expired timeout = true ∨ s.handle timeout = none ∨ t ∈ s.inside timeout) :
    Inv (s.reschedule t timeout) := by
  unfold State.reschedule
  split
  · rename_i hmoves
    obtain ⟨hhandle, hinside, hthrown, hleft, -⟩ := cancel_fields s timeout
    have ht : t ∈ s.inside timeout := by
      rcases hproper with hexpired | hnone | ht
      · simp [hexpired] at hmoves
      · simp [hnone] at hmoves
      · exact ht
    apply Inv.arms (s.cancel timeout) timeout t
    · refine ⟨?_, ?_⟩
      · exact hthrown ▸ h.kept.thrown
      · exact hleft ▸ h.kept.left
    · intro n timer hn harmed
      obtain ⟨hold, hne⟩ := h.armed_cancel hn harmed
      obtain ⟨htarget, hsame⟩ := h.armed n timer hold harmed
      exact ⟨hne, hinside ▸ htarget, hhandle ▸ hsame⟩
    · rfl
    · rfl
    · exact hinside ▸ ht
  · exact h

theorem Inv.fire {n : Nat} {timer : TimerHandle τ} (h : Inv s) (hn : s.handles[n]? = some timer)
    (harmed : timer.armed = true) : Inv (s.fire n timer) where
  kept := by
    refine ⟨?_, h.kept.left⟩
    intro x hx
    rcases mem_append.1 hx with hold | hnew
    · exact h.kept.thrown x hold
    · rw [mem_singleton.1 hnew]
      exact decide_eq_true (h.armed n timer hn harmed).1
  armed := by
    intro m other hm hlive
    simp only [State.fire, List.getElem?_set] at hm
    split at hm
    · split at hm
      · cases hm
        cases hlive
      · cases hm
    · exact h.armed m other hm hlive

theorem Inv.leave {t : τ} {timeout : Nat} {chain : List Exc} (h : Inv s) (hchain : chain.Nodup) :
    Inv (s.leave t timeout chain) := by
  obtain ⟨hhandle, hinside, hthrown, hleft, -⟩ := cancel_fields s timeout
  refine ⟨⟨hthrown ▸ h.kept.thrown, ?_⟩, ?_⟩
  · intro x hx
    rcases mem_append.1 hx with hold | hnew
    · exact h.kept.left x hold
    · rw [mem_singleton.1 hnew]
      exact exit_ne_sentinel timeout _ hchain
  · intro n timer hn harmed
    obtain ⟨hold, hne⟩ := h.armed_cancel hn harmed
    obtain ⟨htarget, hsame⟩ := h.armed n timer hold harmed
    refine ⟨?_, hhandle ▸ hsame⟩
    simpa [State.leave, update_of_ne hne] using htarget

/-- A block that is left has no armed timer behind it. -/
theorem Inv.step {e : Event τ} (h : Inv s) (hproper : Proper s e)
    (hs : Timeout.step s e = some s') : Inv s' := by
  cases e with
  | enter t timeout =>
    cases hs
    exact h.enter hproper
  | reschedule t timeout =>
    cases hs
    exact h.reschedule hproper
  | fire n =>
    simp only [Timeout.step] at hs
    split at hs
    · rename_i timer hn
      split at hs <;> cases hs
      rename_i harmed
      exact h.fire hn harmed
    · cases hs
  | leave t timeout chain =>
    simp only [Timeout.step] at hs
    split at hs <;> cases hs
    rename_i hguard
    exact h.leave hguard.2

/-- In every run in which each timeout is rescheduled from its own block and entered with no timer
left, its sentinel stays in the block. -/
theorem sentinel_stays_in_block (run : List (Event τ)) (hproper : Along step Proper ({} : State τ) run) :
    Always step Kept ({} : State τ) run :=
  always_of_along (I := Inv) (fun _ h => h.kept) (fun _ _ _ h hok hs => h.step hok hs) run _
    ⟨⟨nofun, nofun⟩, by intro n timer hn; simp at hn⟩ hproper

/-- Two nested timeouts of one tealet; the inner one is moved and fires. -/
theorem sentinel_stays_in_block_nested :
    Played step (Always step Kept) ({} : State Nat)
      [.enter 7 0, .enter 7 1, .reschedule 7 1, .fire 2, .leave 7 1 [.sentinel 1], .leave 7 0 []] :=
  ⟨sentinel_stays_in_block _ (by decide), by decide⟩

/-- A timeout that is rescheduled from elsewhere, or when it has been left, throws its sentinel
there. -/
theorem reschedule_outside (s : State τ) (t : τ) (timeout : Nat)
    (hproper : ¬ Proper s (.reschedule t timeout)) :
    ∃ s', exec step s [.reschedule t timeout, .fire s.handles.length] = some s' ∧
      (⟨timeout, t, false⟩ : Thrown τ) ∈ s'.thrown ∧ ¬ Kept s' := by
  simp only [Proper, not_or, Bool.not_eq_true] at hproper
  obtain ⟨hexpired, hhandle, ht⟩ := hproper
  obtain ⟨-, hinside, -, -, hlength⟩ := cancel_fields s timeout
  have hmoves : (!s.expired timeout && (s.handle timeout).isSome) = true := by
    simp [hexpired, Option.isSome_iff_ne_none, hhandle]
  have hmoved : s.reschedule t timeout = (s.cancel timeout).arm timeout t := if_pos hmoves
  have hnew : (s.reschedule t timeout).handles[s.handles.length]? = some ⟨timeout, t, true⟩ := by
    rw [hmoved, ← hlength]
    simp [State.arm]
  have hthrown : (⟨timeout, t, false⟩ : Thrown τ) ∈
      ((s.reschedule t timeout).fire s.handles.length ⟨timeout, t, true⟩).thrown := by
    have hinside' : (s.reschedule t timeout).inside = s.inside := by rw [hmoved]; exact hinside
    simp [State.fire, hinside', ht]
  refine ⟨(s.reschedule t timeout).fire s.handles.length ⟨timeout, t, true⟩, ?_, hthrown, ?_⟩
  · simp [exec, step, hnew]
  · intro hkept
    cases hkept.thrown _ hthrown

/-- A timeout of tealet 7 that is moved by tealet 8; one that is moved by tealet 7 after its
`__exit__`. -/
theorem rescheduled_sentinel_strays :
    ¬ Always step Kept ({} : State Nat) [.enter 7 0, .reschedule 8 0, .fire 1] ∧
      ¬ Always step Kept ({} : State Nat) [.enter 7 0, .leave 7 0 [], .reschedule 7 0, .fire 1] := by
  constructor
  · intro hkept
    exact absurd (hkept.2.2.2.thrown ⟨0, 8, false⟩ (mem_singleton_self _)) (by decide)
  · intro hkept
    exact absurd (hkept.2.2.2.2.thrown ⟨0, 7, false⟩ (mem_singleton_self _)) (by decide)

end Pytealet.Locks.Timeout
