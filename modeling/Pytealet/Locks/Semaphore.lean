import Pytealet.Locks.Lock
import Mathlib.Data.Int.Order.Basic
import Mathlib.Tactic.Linarith

/-!
# Semaphore — `Semaphore` and `BoundedSemaphore` of `locks.py`

`release` adds one to `_value` and wakes one waiter; the woken waiter subtracts one when it gets its
turn, without a test.  The slot that the release freed is therefore only *promised* to the waiter:
a caller that finds `_value > 0` may take it first, and then the waiter drives `_value` below zero.

The waiting discipline is the one of `Lock`: one `Event` for each waiting call, so the deque
`_waiters` is `waiters.line`, and `waiters.woken` are the tealets whose event is set but which
have not run yet.
-/

namespace Pytealet.Locks.Semaphore

open Lib Lib.Transition

/-! ## The semaphore and its operations -/

/-- The two `ValueError`s of the semaphore classes. -/
inductive SemaphoreError
  | negativeInitialValue
  | releasedTooManyTimes
  deriving DecidableEq, Repr

def SemaphoreError.message : SemaphoreError → String
  | .negativeInitialValue => "Semaphore initial value must be >= 0"
  | .releasedTooManyTimes => "BoundedSemaphore released too many times"

/-- `value` is `_value` and `bound` is `BoundedSemaphore._bound_value`, absent on a plain
`Semaphore`.  `acquired` and `released` are not in the source: they count the acquires and the
releases that have returned. -/
structure State (τ : Type*) where
  value : Int
  bound : Option Int
  waiters : WaitLine τ
  acquired : Nat
  released : Nat

variable {τ : Type*}

/-- A semaphore with initial value `v`; a `BoundedSemaphore` keeps `v` as its bound. -/
def init (bounded : Bool) (v : Nat) : State τ where
  value := v
  bound := if bounded then some v else none
  waiters := .empty
  acquired := 0
  released := 0

/-- `__init__`, which rejects a negative value. -/
def new (bounded : Bool) (value : Int) : Except SemaphoreError (State τ) :=
  if value < 0 then
    .error .negativeInitialValue
  else
    .ok (init bounded value.toNat)

theorem new_eq_ok_iff {bounded : Bool} {value : Int} {s : State τ} :
    new bounded value = .ok s ↔ ∃ v : Nat, value = v ∧ s = init bounded v := by
  unfold new
  constructor
  · intro h
    split at h
    · cases h
    · rename_i hneg
      cases h
      exact ⟨value.toNat, by omega, rfl⟩
  · rintro ⟨v, rfl, rfl⟩
    rw [if_neg (by omega), Int.toNat_natCast]

/-- The end of `sacquire`: `_value -= 1`, and the call returns. -/
def take (s : State τ) : State τ :=
  { s with value := s.value - 1, acquired := s.acquired + 1 }

/-- `sacquire` up to its return or to the switch inside `waiter.swait()`. -/
def sacquire (s : State τ) (t : τ) (h : t ∉ s.waiters) : State τ :=
  if 0 < s.value then
    take s
  else
    { s with waiters := s.waiters.park t h }

variable [DecidableEq τ]

/-- `Semaphore.release`. -/
def superRelease (s : State τ) : State τ :=
  { s with value := s.value + 1, waiters := s.waiters.wakeNext, released := s.released + 1 }

/-- `release`, with the state in which it returns or raises. -/
def release (s : State τ) : Except SemaphoreError Unit × State τ :=
  match s.bound with
  | none => (.ok (), superRelease s)
  | some b =>
    -- `BoundedSemaphore` tests the bound before it calls `super().release()`
    if b ≤ s.value then
      (.error .releasedTooManyTimes, s)
    else
      (.ok (), superRelease s)

/-- A woken waiter gets its turn and takes a slot without testing `_value`. -/
def resume (s : State τ) (t : τ) : State τ :=
  take { s with waiters := s.waiters.leave t }

/-- A parked waiter goes on as if its event were set, which stays in `_waiters`. -/
def steal (s : State τ) (t : τ) : State τ :=
  take { s with waiters := s.waiters.slip t }

/-- An exception leaves `waiter.swait()`: the handler removes the event if it is still queued. -/
def interrupt (s : State τ) (t : τ) : State τ :=
  { s with waiters := s.waiters.leave t }

/-! ## Runs -/

/-- The actions are those of a lock. -/
def step (s : State τ) : Lock.Act τ → Option (State τ)
  | .acquire t =>
    if h : t ∈ s.waiters then none else some (sacquire s t h)
  | .release t =>
    if t ∈ s.waiters then none else some (release s).2
  | .turn t =>
    if t ∈ s.waiters.woken then some (resume s t) else none
  | .steal t =>
    if t ∈ s.waiters.parked then some (steal s t) else none
  | .throw t =>
    if t ∈ s.waiters then some (interrupt s t) else none

/-- The moves of the semaphore, one constructor for each way in which a step can end. -/
inductive Move (s : State τ) : Lock.Act τ → State τ → Prop
  | fast (t : τ) (hv : 0 < s.value) :
      Move s (.acquire t) (take s)
  | park (t : τ) (ht : t ∉ s.waiters) (hv : s.value ≤ 0) :
      Move s (.acquire t) { s with waiters := s.waiters.park t ht }
  | refused (t : τ) (b : Int) (hb : s.bound = some b) (hv : b ≤ s.value) :
      Move s (.release t) s
  | release (t : τ) (hb : ∀ b ∈ s.bound, s.value < b) :
      Move s (.release t) (superRelease s)
  | turn (t : τ) (ht : t ∈ s.waiters.woken) :
      Move s (.turn t) (resume s t)
  | steal (t : τ) (ht : t ∈ s.waiters.parked) :
      Move s (.steal t) (steal s t)
  | throw (t : τ) (ht : t ∈ s.waiters) :
      Move s (.throw t) (interrupt s t)

theorem release_cases (s : State τ) :
    (∃ b, s.bound = some b ∧ b ≤ s.value ∧ release s = (.error .releasedTooManyTimes, s)) ∨
      ((∀ b ∈ s.bound, s.value < b) ∧ release s = (.ok (), superRelease s)) := by
  unfold release
  cases hb : s.bound with
  | none => exact Or.inr ⟨by simp, rfl⟩
  | some b =>
    by_cases hv : b ≤ s.value
    · exact Or.inl ⟨b, rfl, hv, by simp [hv]⟩
    · exact Or.inr ⟨by simpa using hv, by simp [hv]⟩

theorem Move.of_step {s s' : State τ} {a : Lock.Act τ} (h : step s a = some s') : Move s a s' := by
  cases a with
  | acquire t =>
    simp only [step] at h
    split at h
    · cases h
    · rename_i ht
      -- the fast path, or the queue
      by_cases hv : 0 < s.value
      · have hs : Semaphore.take s = s' := by simpa [sacquire, hv] using h
        exact hs ▸ Move.fast t hv
      · have hs : { s with waiters := s.waiters.park t ht } = s' := by
          simpa [sacquire, hv] using h
        exact hs ▸ Move.park t ht (by omega)
  | release t =>
    simp only [step] at h
    split at h
    · cases h
    · rcases release_cases s with ⟨b, hb, hv, hr⟩ | ⟨hb, hr⟩
      · have hs : s = s' := by simpa [hr] using h
        exact hs ▸ Move.refused t b hb hv
      · have hs : superRelease s = s' := by simpa [hr] using h
        exact hs ▸ Move.release t hb
  | turn t =>
    simp only [step] at h
    split at h
    · rename_i ht
      cases h
      exact Move.turn t ht
    · cases h
  | steal t =>
    simp only [step] at h
    split at h
    · rename_i ht
      cases h
      exact Move.steal t ht
    · cases h
  | throw t =>
    simp only [step] at h
    split at h
    · rename_i ht
      cases h
      exact Move.throw t ht
    · cases h

/-! ## Accounting -/

/-- The value is never negative, every slot is accounted for, and the bound is kept. -/
structure Accounting (v : Nat) (s : State τ) : Prop where
  nonneg : 0 ≤ s.value
  balance : (s.acquired : Int) + s.value = v + s.released
  bounded : ∀ b ∈ s.bound, s.value ≤ b

/-- The steps on which the accounting is kept: a waiter, woken or not, goes on only while a slot is
there. -/
def TurnGuard (s : State τ) : Lock.Act τ → Prop
  | .turn _ | .steal _ => 0 < s.value
  | _ => True

omit [DecidableEq τ] in
theorem Accounting.init (bounded : Bool) (v : Nat) :
    Accounting v (init bounded v : State τ) where
  nonneg := by simp [Semaphore.init]
  balance := by simp [Semaphore.init]
  bounded := by cases bounded <;> simp [Semaphore.init]

omit [DecidableEq τ] in
theorem Accounting.take {v : Nat} {s : State τ} (h : Accounting v s) (hv : 0 < s.value) :
    Accounting v (take s) where
  nonneg := by
    simp only [Semaphore.take]
    omega
  balance := by
    have hb := h.balance
    simp only [Semaphore.take]
    omega
  bounded := by
    intro b hb
    have hle := h.bounded b hb
    simp only [Semaphore.take]
    omega

/-- A waiter that goes on takes a slot that is there. -/
theorem Accounting.step {v : Nat} {s s' : State τ} {a : Lock.Act τ} (h : Accounting v s)
    (hg : TurnGuard s a) (hs : Semaphore.step s a = some s') : Accounting v s' := by
  cases Move.of_step hs with
  | fast t hv => exact h.take hv
  | park t ht hv => exact ⟨h.nonneg, h.balance, h.bounded⟩
  | refused t b hb hv => exact h
  | release t hlt =>
    have h0 := h.nonneg
    have hb := h.balance
    refine ⟨?_, ?_, ?_⟩
    · simp only [superRelease]
      omega
    · simp only [superRelease]
      omega
    -- below the bound before, so at most at the bound after
    · intro b hb'
      exact hlt b hb'
  | turn t ht =>
    exact Accounting.take (s := { s with waiters := s.waiters.leave t })
      ⟨h.nonneg, h.balance, h.bounded⟩ hg
  | steal t ht =>
    exact Accounting.take (s := { s with waiters := s.waiters.slip t })
      ⟨h.nonneg, h.balance, h.bounded⟩ hg
  | throw t ht => exact ⟨h.nonneg, h.balance, h.bounded⟩

theorem Accounting.not_of_step {v : Nat} {s s' : State τ} {a : Lock.Act τ}
    (hg : ¬ TurnGuard s a) (hs : Semaphore.step s a = some s') : ¬ Accounting v s' := by
  cases Move.of_step hs with
  | turn t ht =>
    -- without a free slot the turn makes the value negative
    intro hacc
    have h0 := hacc.nonneg
    simp only [TurnGuard, not_lt] at hg
    simp only [resume, Semaphore.take] at h0
    omega
  | steal t ht =>
    intro hacc
    have h0 := hacc.nonneg
    simp only [TurnGuard, not_lt] at hg
    simp only [steal, Semaphore.take] at h0
    omega
  | fast t hv => exact absurd trivial hg
  | park t ht hv => exact absurd trivial hg
  | refused t b hb hv => exact absurd trivial hg
  | release t hlt => exact absurd trivial hg
  | throw t ht => exact absurd trivial hg

/-- The accounting holds throughout a run exactly when no waiter goes on without a free slot; and a
`release` that raises changes nothing. -/
theorem semaphore_accounting_iff (bounded : Bool) (v : Nat) (acts : List (Lock.Act τ)) :
    (Always step (Accounting v) (init bounded v) acts ↔ Along step TurnGuard (init bounded v) acts) ∧
      ∀ (s : State τ) (e : SemaphoreError), (release s).1 = .error e → (release s).2 = s := by
  refine ⟨?_, ?_⟩
  · exact always_iff_along (fun _ h => h) (fun _ _ _ h hg hs => h.step hg hs)
      (fun _ _ _ _ hg hs => Accounting.not_of_step hg hs) acts _ (Accounting.init bounded v)
  · intro s e he
    rcases release_cases s with ⟨b, -, -, hr⟩ | ⟨-, hr⟩
    · rw [hr]
    · simp [hr] at he

instance (v : Nat) : DecidablePred (Accounting (τ := τ) v) := fun s =>
  decidable_of_iff
    (0 ≤ s.value ∧ (s.acquired : Int) + s.value = v + s.released ∧ ∀ b ∈ s.bound, s.value ≤ b)
    ⟨fun ⟨h₀, h₁, h₂⟩ => ⟨h₀, h₁, h₂⟩, fun h => ⟨h.nonneg, h.balance, h.bounded⟩⟩

/-- Tealet 1 waits for the only slot.  Tealet 0 gives it back and takes it again at once; when
tealet 1 runs, it takes a slot that is not there. -/
theorem semaphore_barging_negative_value :
    ¬ Always step (Accounting 1) (init false 1)
      [.acquire 0, .acquire 1, .release 0, .acquire 0, .turn 1] := by
  decide

/-! ## Lost wake-ups -/

/-- While a slot is free and somebody is parked, some woken waiter has yet to run. -/
def NoLostWakeup (s : State τ) : Prop :=
  0 < s.value → s.waiters.parked ≠ [] → s.waiters.woken ≠ []

instance : DecidablePred (NoLostWakeup (τ := τ)) := fun _ =>
  inferInstanceAs (Decidable (_ → _ → _))

/-- The steps that lose no wake: an exception that reaches a woken waiter finds nobody parked, or
more woken waiters than free slots, and so does a release that finds an event at which nobody
waits. -/
def WakeGuard (s : State τ) : Lock.Act τ → Prop
  | .throw t =>
    t ∈ s.waiters.woken → s.waiters.parked ≠ [] → s.value < s.waiters.woken.length
  | .release _ =>
    (∀ b ∈ s.bound, s.value < b) → s.waiters.Abandoned → s.waiters.parked ≠ [] →
      s.value < s.waiters.woken.length
  | _ => True

/-- The invariant behind it: while somebody is parked, every free slot is promised to a woken
waiter. -/
def Promised (s : State τ) : Prop :=
  s.waiters.Covers s.value.toNat

omit [DecidableEq τ] in
theorem Promised.noLostWakeup {s : State τ} (h : Promised s) : NoLostWakeup s := by
  intro hv hp hw
  have hle : s.value.toNat ≤ s.waiters.woken.length := h hp
  rw [hw, List.length_nil] at hle
  omega

theorem Promised.step {s s' : State τ} {a : Lock.Act τ} (h : Promised s) (hg : WakeGuard s a)
    (hs : Semaphore.step s a = some s') : Promised s' := by
  cases Move.of_step hs with
  | fast t hv =>
    refine h.mono ?_
    simp only [Semaphore.take]
    omega
  | park t ht hv =>
    -- no slot is free, so none is promised
    have h0 : s.value.toNat = 0 := Int.toNat_of_nonpos hv
    simpa [Promised, h0] using WaitQueue.covers_zero
  | refused t b hb hv => exact h
  | release t hb =>
    rcases s.waiters.wakeNext_cases with ⟨habandoned, hq⟩ | ⟨-, hq⟩
    · intro hp
      simp only [superRelease, hq] at hp ⊢
      have hlt : s.value < s.waiters.woken.length := hg hb habandoned hp
      omega
    -- one more slot, and one more wake for it
    · have hle : (s.value + 1).toNat ≤ s.value.toNat + 1 := by omega
      unfold Promised superRelease
      rw [hq]
      exact h.wakeNext.mono hle
  | turn t ht =>
    -- the waiter uses up the wake and the slot together
    refine (WaitQueue.Covers.leave (t := t) h).mono ?_
    simp only [resume, Semaphore.take]
    omega
  | steal t ht =>
    refine (h.leave_of_parked ht).mono ?_
    simp only [steal, Semaphore.take]
    omega
  | throw t ht =>
    rcases WaitLine.mem_iff.1 ht with hpt | hwt
    · exact h.leave_of_parked hpt
    · -- the wake that the interrupted waiter held is gone, so the guard has to cover it
      intro hp
      have hlt : s.value < s.waiters.woken.length := hg hwt (WaitQueue.parked_of_leave hp)
      have hlen := WaitQueue.length_leave_woken hwt
      show s.value.toNat ≤ (s.waiters.toWaitQueue.leave t).woken.length
      omega

theorem noLostWakeup_of_along (bounded : Bool) (v : Nat) (acts : List (Lock.Act τ)) :
    Along step WakeGuard (init bounded v) acts → Always step NoLostWakeup (init bounded v) acts :=
  always_of_along (fun _ => Promised.noLostWakeup) (fun _ _ _ h hg hs => h.step hg hs) acts _
    (fun hp => absurd rfl hp)

/-- No run of a lock or of a semaphore loses a wake-up as long as every exception that reaches a
woken waiter, and every release, meets the guard.  For the lock the guard is exact. -/
theorem lock_semaphore_no_lost_wakeup :
    (∀ (k : Lock.Kind) (acts : List (Lock.Act τ)),
        Always (Lock.step k) Lock.NoLostWakeup Lock.init acts ↔
          Along (Lock.step k) (Lock.WakeGuard k) Lock.init acts) ∧
      ∀ (bounded : Bool) (v : Nat) (acts : List (Lock.Act τ)),
        Along step WakeGuard (init bounded v) acts →
          Always step NoLostWakeup (init bounded v) acts :=
  ⟨Lock.noLostWakeup_iff_along, noLostWakeup_of_along⟩

/-- Tealets 1 and 2 wait; tealet 0 releases, which wakes tealet 1, and then tealet 1 is cancelled
before it runs.  Tealet 2 stays parked at a free lock, or at a semaphore with a free slot. -/
theorem cancelled_woken_waiter_loses_wakeup :
    ¬ Always (Lock.step .lock) Lock.NoLostWakeup Lock.init
        [Lock.Act.acquire 0, .acquire 1, .acquire 2, .release 0, .throw 1] ∧
      ¬ Always step NoLostWakeup (init false 1)
        [.acquire 0, .acquire 1, .acquire 2, .release 0, .throw 1] := by
  decide

end Pytealet.Locks.Semaphore
