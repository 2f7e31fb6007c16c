import Pytealet.Lib.Transition
import Pytealet.Lib.WaitQueue
import Mathlib.Data.List.Basic

/-!
# Lock — `Lock` and `PriorityLock` of `locks.py`

`Lock.release` clears `_locked` and sets the event of one waiter.  The waiter assigns
`_locked = True` only when it later gets its turn, and it does not test the flag again.  In between,
the lock is free for anybody who calls `sacquire`.

The state below is one lock together with the tealets that use it.  Each waiting call creates its
own `Event`, so the deque `_waiters` is modelled by the tealets that are parked, and a tealet whose
event is set but which has not run yet is `woken`.  `sacquire` and `acquire` have the same body up
to `await`, so one action stands for both.

A parked tealet can go on although its event is not set: when it has thrown into a task that exits
later with an exception, `Task.resolve_target` takes it out of the event and switches to it, and
`Task.run` does the same.  Its `swait` returns, and the event is left in `_waiters`.

`PriorityLock` adds the owner: `_take_lock` records it and `_drop_lock` checks it.  Its priority
bookkeeping neither switches nor reads `_locked`.
-/

namespace Pytealet.Locks.Lock

open Lib Lib.Transition List

/-! ## The lock and its operations -/

/-- The two lock classes. -/
inductive Kind
  | lock
  | priorityLock
  deriving DecidableEq, Repr

/-- The reasons for which `release` raises `RuntimeError`. -/
inductive ReleaseError
  | notAcquired
  | notOwner
  deriving DecidableEq, Repr

def ReleaseError.message : ReleaseError → String
  | .notAcquired => "Lock is not acquired"
  | .notOwner => "PriorityLock can only be released by its owner"

/-- `locked` is `_locked`, `owner` is `PriorityLock._owner`, `waiters.line` is `_waiters`, with
`none` for an event at which nobody waits.  `holders` is not in the source: one entry for every
acquire that has returned and whose tealet has not released since. -/
structure State (τ : Type*) where
  locked : Bool
  owner : Option τ
  waiters : WaitLine τ
  holders : List τ

variable {τ : Type*}

def init : State τ where
  locked := false
  owner := none
  waiters := .empty
  holders := []

/-- The end of `sacquire`, on the fast path and after a wake: `_locked = True`, then `_take_lock` on
a `PriorityLock`, and the call returns. -/
def take (k : Kind) (s : State τ) (t : τ) : State τ :=
  { s with
    locked := true
    owner :=
      match k with
      | .lock => s.owner
      | .priorityLock => some t
    holders := t :: s.holders }

/-- `sacquire` up to its return or to the switch inside `waiter.swait()`. -/
def sacquire (k : Kind) (s : State τ) (t : τ) (h : t ∉ s.waiters) : State τ :=
  if s.locked then
    { s with waiters := s.waiters.park t h }
  else
    take k s t

/-- `PriorityLock._is_current(self._owner)` when `t` is running.  An absent owner passes, because it
is compared with the `None` of a missing asyncio task. -/
def IsCurrent (s : State τ) (t : τ) : Prop :=
  s.owner = none ∨ s.owner = some t

instance [DecidableEq τ] (s : State τ) (t : τ) : Decidable (IsCurrent s t) :=
  inferInstanceAs (Decidable (_ ∨ _))

variable [DecidableEq τ]

/-- A woken waiter gets its turn: `swait` returns and nothing is tested again. -/
def resume (k : Kind) (s : State τ) (t : τ) : State τ :=
  take k { s with waiters := s.waiters.leave t } t

/-- A parked waiter goes on as if its event were set, which stays in `_waiters`. -/
def steal (k : Kind) (s : State τ) (t : τ) : State τ :=
  take k { s with waiters := s.waiters.slip t } t

/-- An exception leaves `waiter.swait()`: the handler removes the event if it is still queued. -/
def interrupt (s : State τ) (t : τ) : State τ :=
  { s with waiters := s.waiters.leave t }

/-- The lock after a `release` that does not raise: `_drop_lock` on a `PriorityLock`, then
`_locked = False`, and the first queued event is set. -/
def released (k : Kind) (s : State τ) (t : τ) : State τ where
  locked := false
  owner :=
    match k with
    | .lock => s.owner
    | .priorityLock => none
  waiters := s.waiters.wakeNext
  holders := s.holders.erase t

@[simp] theorem released_waiters (k : Kind) (s : State τ) (t : τ) :
    (released k s t).waiters = s.waiters.wakeNext := rfl

def release (k : Kind) (s : State τ) (t : τ) : Except ReleaseError (State τ) :=
  if s.locked = false then
    .error .notAcquired
  else if k = .priorityLock ∧ ¬ IsCurrent s t then
    .error .notOwner
  else
    .ok (released k s t)

/-! ## Runs -/

/-- What can happen next: a tealet that is not waiting calls `sacquire` or `release`, a woken waiter
gets its turn, a parked one is resumed without it, or an exception is thrown into either. -/
inductive Act (τ : Type*)
  | acquire (t : τ)
  | release (t : τ)
  | turn (t : τ)
  | steal (t : τ)
  | throw (t : τ)
  deriving DecidableEq, Repr

def step (k : Kind) (s : State τ) : Act τ → Option (State τ)
  | .acquire t =>
    if h : t ∈ s.waiters then none else some (sacquire k s t h)
  | .release t =>
    if t ∈ s.waiters then
      none
    else
      match release k s t with
      | .ok s' => some s'
      -- `release` raises before it has changed anything
      | .error _ => some s
  | .turn t =>
    if t ∈ s.waiters.woken then some (resume k s t) else none
  | .steal t =>
    if t ∈ s.waiters.parked then some (steal k s t) else none
  | .throw t =>
    if t ∈ s.waiters then some (interrupt s t) else none

/-- The moves of the lock, one constructor for each way in which a step can end. -/
inductive Move (k : Kind) (s : State τ) : Act τ → State τ → Prop
  | park (t : τ) (ht : t ∉ s.waiters) (hl : s.locked = true) :
      Move k s (.acquire t) { s with waiters := s.waiters.park t ht }
  | fast (t : τ) (ht : t ∉ s.waiters) (hl : s.locked = false) :
      Move k s (.acquire t) (take k s t)
  | refused (t : τ) (ht : t ∉ s.waiters) (hl : s.locked = false ∨ k = .priorityLock ∧ ¬ IsCurrent s t) :
      Move k s (.release t) s
  | unlock (t : τ) (ht : t ∉ s.waiters) (hl : s.locked = true)
      (ho : k = .priorityLock → IsCurrent s t) :
      Move k s (.release t) (released k s t)
  | turn (t : τ) (ht : t ∈ s.waiters.woken) :
      Move k s (.turn t) (resume k s t)
  | steal (t : τ) (ht : t ∈ s.waiters.parked) :
      Move k s (.steal t) (steal k s t)
  | throw (t : τ) (ht : t ∈ s.waiters) :
      Move k s (.throw t) (interrupt s t)

variable {k : Kind} {s s' : State τ}

theorem Move.of_step {a : Act τ} (h : step k s a = some s') : Move k s a s' := by
  cases a with
  | acquire t =>
    simp only [step] at h
    split at h
    · cases h
    · rename_i ht
      cases hl : s.locked with
      -- the lock is taken: the caller queues its event and parks
      | true =>
        have hs : { s with waiters := s.waiters.park t ht } = s' := by
          simpa [sacquire, hl] using h
        exact hs ▸ Move.park t ht hl
      -- the fast path of `sacquire`
      | false =>
        have hs : take k s t = s' := by
          simpa [sacquire, hl] using h
        exact hs ▸ Move.fast t ht hl
  | release t =>
    simp only [step, release] at h
    split at h
    · cases h
    · rename_i ht
      -- the two checks of `release`, in its order
      by_cases hl : s.locked = false
      · have hs : s = s' := by simpa [hl] using h
        exact hs ▸ Move.refused t ht (.inl hl)
      · by_cases ho : k = .priorityLock ∧ ¬ IsCurrent s t
        · have hs : s = s' := by simpa [hl, ho] using h
          exact hs ▸ Move.refused t ht (.inr ho)
        · have hs : released k s t = s' := by simpa [hl, ho] using h
          refine hs ▸ Move.unlock t ht (by simpa using hl) ?_
          intro hk
          by_contra hc
          exact ho ⟨hk, hc⟩
  | turn t =>
    simp only [step] at h
    split at h
    · rename_i ht
      cases h
      exact Move.turn t ht
    · cases h
  | steal t =>
    simp only [step] at h
    split at h
    · rename_i ht
      cases h
      exact Move.steal t ht
    · cases h
  | throw t =>
    simp only [step] at h
    split at h
    · rename_i ht
      cases h
      exact Move.throw t ht
    · cases h

/-! ## Mutual exclusion -/

/-- At most one tealet is between the return of an acquire and its release, and `locked()` is true
whenever one is. -/
def MutualExclusion (s : State τ) : Prop :=
  (∀ a ∈ s.holders, ∀ b ∈ s.holders, a = b) ∧ (s.holders ≠ [] → s.locked = true)

instance : DecidablePred (MutualExclusion (τ := τ)) := fun _ =>
  inferInstanceAs (Decidable (_ ∧ _))

/-- The steps on which the lock does its work: a waiter goes on only while the lock is free, or,
when it was not woken, while it holds the lock itself; and a release leaves no holder behind, which
for a plain `Lock` is up to its caller. -/
def Guard (k : Kind) (s : State τ) : Act τ → Prop
  | .turn _ => s.locked = false
  | .steal t => s.locked = true → t ∈ s.holders
  | .release t => s.locked = true → (k = .priorityLock → IsCurrent s t) → s.holders = [t]
  | _ => True

/-- The invariant of the guarded runs. -/
structure Held (k : Kind) (s : State τ) : Prop where
  locked_iff : s.locked = true ↔ s.holders ≠ []
  unique : ∀ a ∈ s.holders, ∀ b ∈ s.holders, a = b
  woken_free : ∀ t ∈ s.waiters.woken, t ∉ s.holders

omit [DecidableEq τ] in
theorem Held.init (k : Kind) : Held k (init : State τ) where
  locked_iff := by simp [Lock.init]
  unique := by simp [Lock.init]
  woken_free := by simp [Lock.init]

variable {s : State τ}

omit [DecidableEq τ] in
theorem Held.mutualExclusion (h : Held k s) : MutualExclusion s :=
  ⟨h.unique, h.locked_iff.2⟩

omit [DecidableEq τ] in
theorem Held.free (h : Held k s) (hl : s.locked = false) : s.holders = [] := by
  by_contra hh
  simp [h.locked_iff.2 hh] at hl

omit [DecidableEq τ] in
/-- A tealet that does not wait takes the lock, which nobody else holds. -/
theorem Held.take {t : τ} (h : Held k s) (hl : ∀ u ∈ s.holders, u = t)
    (ht : t ∉ s.waiters.woken) : Held k (take k s t) where
  locked_iff := by simp [Lock.take]
  unique := by
    have hall : ∀ u ∈ t :: s.holders, u = t := forall_mem_cons.2 ⟨rfl, hl⟩
    exact fun a ha b hb => (hall a ha).trans (hall b hb).symm
  woken_free := by
    intro u hu hin
    rcases mem_cons.1 hin with rfl | hold
    · exact ht hu
    · exact h.woken_free u hu hold

theorem Held.interrupt (h : Held k s) (t : τ) : Held k (interrupt s t) where
  locked_iff := h.locked_iff
  unique := h.unique
  woken_free := fun u hu => h.woken_free u (mem_of_mem_erase hu)

theorem Held.released {t : τ} (hg : s.holders = [t]) : Held k (released k s t) where
  locked_iff := by simp [Lock.released, hg]
  unique := by simp [Lock.released, hg]
  woken_free := by simp [Lock.released, hg]

/-- The one who goes on finds the lock free, or holds it itself; a release leaves no other holder
behind. -/
theorem Held.step {a : Act τ} (h : Held k s) (hg : Guard k s a)
    (hs : Lock.step k s a = some s') : Held k s' := by
  cases Move.of_step hs with
  | park t ht hl => exact ⟨h.locked_iff, h.unique, h.woken_free⟩
  | fast t ht hl =>
    refine h.take ?_ fun hw => ht (WaitLine.mem_iff.2 (.inr hw))
    simp [h.free hl]
  | refused t ht hl => exact h
  | unlock t ht hl ho => exact Held.released (hg hl ho)
  | turn t ht =>
    -- the waiter has left the queue, so it is not among the woken ones any more
    refine (h.interrupt t).take ?_ fun hw => WaitQueue.not_mem_leave (WaitQueue.mem_iff.2 (.inr hw))
    simp [Lock.interrupt, h.free hg]
  | steal t ht =>
    have hslip : Held k { s with waiters := s.waiters.slip t } :=
      ⟨h.locked_iff, h.unique, fun u hu => h.woken_free u (mem_of_mem_erase hu)⟩
    refine hslip.take (fun u hu => ?_) fun hw => WaitQueue.not_mem_leave (WaitQueue.mem_iff.2 (.inr hw))
    -- somebody holds the lock, so by the guard it is the waiter itself
    have hl : s.locked = true := h.locked_iff.2 (ne_nil_of_mem hu)
    exact h.unique u hu t (hg hl)
  | throw t ht => exact h.interrupt t

theorem Held.not_mutualExclusion {a : Act τ} (h : Held k s)
    (hg : ¬ Guard k s a) (hs : Lock.step k s a = some s') : ¬ MutualExclusion s' := by
  cases Move.of_step hs with
  | park t ht hl => exact absurd trivial hg
  | fast t ht hl => exact absurd trivial hg
  | refused t ht hl =>
    -- `release` has raised, so the guard asks for nothing
    refine absurd (fun hl' ho => ?_) hg
    rcases hl with hl | ⟨hk, hc⟩
    · simp [hl] at hl'
    · exact absurd (ho hk) hc
  | unlock t ht hl ho =>
    -- a tealet that holds the lock keeps going, but the flag is cleared
    intro hm
    have hnil : s.holders.erase t = [] := by
      by_contra hne
      simpa [Lock.released] using hm.2 hne
    refine hg fun _ _ => ?_
    have hne : s.holders ≠ [] := h.locked_iff.1 hl
    cases hh : s.holders with
    | nil => exact absurd hh hne
    | cons u us =>
      simp only [hh, erase_cons] at hnil
      split at hnil
      · rename_i hut
        rw [hnil, beq_iff_eq.1 hut]
      · cases hnil
  | turn t ht =>
    -- the waiter and a holder are two tealets, since a holder is never a woken waiter
    intro hm
    simp only [Guard, Bool.not_eq_false] at hg
    rcases exists_mem_of_ne_nil _ (h.locked_iff.1 hg) with ⟨u, hu⟩
    have hut : t = u := hm.1 t mem_cons_self u (mem_cons_of_mem _ hu)
    exact h.woken_free t ht (hut ▸ hu)
  | steal t ht =>
    intro hm
    simp only [Guard, Classical.not_imp] at hg
    rcases exists_mem_of_ne_nil _ (h.locked_iff.1 hg.1) with ⟨u, hu⟩
    have hut : t = u := hm.1 t mem_cons_self u (mem_cons_of_mem _ hu)
    exact hg.2 (hut ▸ hu)
  | throw t ht => exact absurd trivial hg

/-- Mutual exclusion holds throughout a run exactly when no waiter goes on while another tealet
holds the lock, and every release leaves no holder behind. -/
theorem lock_mutual_exclusion_iff (k : Kind) (acts : List (Act τ)) :
    Always (step k) MutualExclusion init acts ↔ Along (step k) (Guard k) init acts :=
  always_iff_along (fun _ => Held.mutualExclusion) (fun _ _ _ h hg hs => h.step hg hs)
    (fun _ _ _ h hg hs => h.not_mutualExclusion hg hs) acts init (Held.init k)

/-- Tealet 0 releases while tealet 1 waits, and takes the lock again before tealet 1 has run. -/
theorem lock_barging_two_holders :
    ¬ Always (step .lock) MutualExclusion init
        [Act.acquire 0, .acquire 1, .release 0, .acquire 0, .turn 1] ∧
      ¬ Always (step .priorityLock) MutualExclusion init
        [Act.acquire 0, .acquire 1, .release 0, .acquire 0, .turn 1] := by
  decide

/-! ## Lost wake-ups -/

/-- While the lock is free and somebody is parked, some woken waiter has yet to run. -/
def NoLostWakeup (s : State τ) : Prop :=
  s.locked = false → s.waiters.parked ≠ [] → s.waiters.woken ≠ []

instance : DecidablePred (NoLostWakeup (τ := τ)) := fun _ =>
  inferInstanceAs (Decidable (_ → _ → _))

/-- The steps that lose no wake: an exception that reaches a woken waiter of a free lock leaves
another woken waiter behind, or nobody parked, and so does a release that finds an event at which
nobody waits.  Neither the handler in `sacquire` nor `release` passes the wake on. -/
def WakeGuard (k : Kind) (s : State τ) : Act τ → Prop
  | .throw t =>
    t ∈ s.waiters.woken → s.locked = false → s.waiters.parked ≠ [] → ∃ u ∈ s.waiters.woken, u ≠ t
  | .release t =>
    s.locked = true → (k = .priorityLock → IsCurrent s t) → s.waiters.Abandoned →
      s.waiters.parked ≠ [] → s.waiters.woken ≠ []
  | _ => True

theorem NoLostWakeup.interrupt_parked {t : τ} (h : NoLostWakeup s)
    (ht : t ∈ s.waiters.parked) : NoLostWakeup (interrupt s t) := by
  intro hl _
  have hw : s.waiters.woken ≠ [] := h hl (ne_nil_of_mem ht)
  rwa [← WaitQueue.leave_woken_of_parked ht] at hw

/-- A release of a lock for which somebody waits leaves a woken waiter behind. -/
theorem NoLostWakeup.step {a : Act τ} (h : NoLostWakeup s)
    (hg : WakeGuard k s a) (hs : Lock.step k s a = some s') : NoLostWakeup s' := by
  cases Move.of_step hs with
  | park t ht hl =>
    -- the caller parks only because the lock is locked
    intro hl'
    exact absurd hl' (by simp [hl])
  | fast t ht hl =>
    intro hl'
    exact absurd hl' (by simp [take])
  | refused t ht hl => exact h
  | unlock t ht hl ho =>
    intro _ hp
    rcases s.waiters.wakeNext_cases with ⟨habandoned, hq⟩ | ⟨-, hq⟩
    · rw [released_waiters, hq] at hp ⊢
      exact hg hl ho habandoned hp
    -- the release has woken somebody
    · rw [released_waiters, hq] at hp ⊢
      have hlen := WaitQueue.length_wakeNext_woken (WaitQueue.ne_nil_of_wakeNext_parked hp)
      exact ne_nil_of_length_pos (by omega)
  | turn t ht =>
    intro hl'
    exact absurd hl' (by simp [resume, take])
  | steal t ht =>
    intro hl'
    exact absurd hl' (by simp [steal, take])
  | throw t ht =>
    rcases WaitLine.mem_iff.1 ht with hp | hw
    · exact h.interrupt_parked hp
    · intro hl hp
      have hp' : s.waiters.parked ≠ [] := WaitQueue.parked_of_leave hp
      -- the guard gives another woken waiter, which stays
      rcases hg hw hl hp' with ⟨u, hu, hut⟩
      exact ne_nil_of_mem ((mem_erase_of_ne hut).2 hu)

theorem NoLostWakeup.not_of_step {a : Act τ}
    (hg : ¬ WakeGuard k s a) (hs : Lock.step k s a = some s') : ¬ NoLostWakeup s' := by
  cases Move.of_step hs with
  | throw t ht =>
    simp only [WakeGuard, Classical.not_imp, not_exists, not_and, not_not] at hg
    rcases hg with ⟨hw, hl, hp, hall⟩
    intro hn
    have hp' : (interrupt s t).waiters.parked ≠ [] := by
      rwa [← WaitQueue.leave_parked_of_woken hw] at hp
    rcases exists_mem_of_ne_nil _ (hn hl hp') with ⟨u, hu⟩
    -- every waiter left over would be `t` itself, which has just been removed
    have hut : u = t := hall u (mem_of_mem_erase hu)
    exact WaitQueue.not_mem_leave (WaitQueue.mem_iff.2 (.inr (hut ▸ hu)))
  | unlock t ht hl ho =>
    simp only [WakeGuard, Classical.not_imp, not_not] at hg
    rcases hg with ⟨-, -, habandoned, hp, hw⟩
    rcases s.waiters.wakeNext_cases with ⟨-, hq⟩ | ⟨hkept, -⟩
    · intro hn
      have hne := hn rfl (by rwa [released_waiters, hq])
      rw [released_waiters, hq] at hne
      exact hne hw
    · exact absurd habandoned hkept
  | refused t ht hl =>
    refine absurd (fun hl' ho => ?_) hg
    rcases hl with hl | ⟨hk, hc⟩
    · simp [hl] at hl'
    · exact absurd (ho hk) hc
  | park | fast | turn | steal => exact absurd trivial hg

theorem noLostWakeup_iff_along (k : Kind) (acts : List (Act τ)) :
    Always (step k) NoLostWakeup init acts ↔ Along (step k) (WakeGuard k) init acts :=
  always_iff_along (fun _ h => h) (fun _ _ _ h hg hs => h.step hg hs)
    (fun _ _ _ _ hg hs => NoLostWakeup.not_of_step hg hs) acts init
    (fun _ hp => absurd rfl hp)

end Pytealet.Locks.Lock
