import Mathlib.Logic.Function.Basic
import Mathlib.Logic.Function.Iterate
import Pytealet.Locks.Lock

/-!
# Condition — `Condition.swait` of `locks.py`

`swait` gives the lock back while it waits, and takes it again in a `finally`.  That is another
wait, and what is thrown into it leaves `swait` without the lock.

The lock and what its tealets do with it are the model of the module `Lock`; either class may be
given to `Condition`.  A tealet calls `swait` with the lock; the model leaves out the `RuntimeError`
of a call without.  Each call has an `Event` of its own, which stands for its tealet in `_waiters`.
-/

namespace Pytealet.Locks.Condition

open Lib Lib.Transition List Option

/-- Where a tealet is with its call of `swait`. -/
inductive Phase
  /-- it has none -/
  | outside
  /-- in `waiter.swait()` -/
  | waiting
  /-- in the `finally`, and the lock was not free -/
  | reacquiring
  deriving DecidableEq, Repr

structure State (τ : Type*) where
  lock : Lock.State τ
  /-- `_waiters`, and the calls whose event has been set -/
  waiters : WaitQueue τ
  phase : τ → Phase

inductive Action (τ : Type*)
  /-- something else is done with the lock -/
  | lock (a : Lock.Act τ)
  | swait (t : τ)
  | notify (n : Nat)
  /-- the event of a call has been set, and its tealet has its turn -/
  | wake (t : τ)
  /-- a tealet whose event in the lock has been set has its turn -/
  | turn (t : τ)
  /-- a tealet whose event is not set is resumed -/
  | steal (t : τ)
  | throw (t : τ)
  deriving DecidableEq, Repr

variable {τ : Type*}

/-- Who calls `sacquire` or `release`, or waits in it. -/
def caller : Lock.Act τ → τ
  | .acquire t | .release t | .turn t | .steal t | .throw t => t

def init : State τ where
  lock := Lock.init
  waiters := .empty
  phase := fun _ => .outside

/-- The tealet has the lock. -/
def Holds (k : Lock.Kind) (l : Lock.State τ) (t : τ) : Prop :=
  l.locked = true ∧ t ∈ l.holders ∧ (k = .priorityLock → l.owner = some t)

variable [DecidableEq τ]

instance (k : Lock.Kind) (l : Lock.State τ) (t : τ) : Decidable (Holds k l t) :=
  inferInstanceAs (Decidable (_ ∧ _ ∧ _))

def setPhase (s : State τ) (t : τ) (p : Phase) : State τ :=
  { s with phase := Function.update s.phase t p }

/-- `swait` up to its switch. -/
def swait (k : Lock.Kind) (s : State τ) (t : τ) (h : t ∉ s.waiters) : State τ :=
  setPhase { s with waiters := s.waiters.park t h, lock := Lock.released k s.lock t } t .waiting

def notify (s : State τ) (n : Nat) : State τ :=
  if s.lock.locked then { s with waiters := Nat.iterate WaitQueue.wakeNext n s.waiters } else s

/-- The `finally` of `swait`: the call ends if the lock is free. -/
def reacquire (k : Lock.Kind) (s : State τ) (t : τ) (h : t ∉ s.lock.waiters) : State τ :=
  setPhase { s with waiters := s.waiters.leave t, lock := Lock.sacquire k s.lock t h } t
    (if s.lock.locked then .reacquiring else .outside)

/-- A tealet goes on without a wake, in the lock by the action `a`. -/
def comesOut (k : Lock.Kind) (s : State τ) (t : τ) (a : Lock.Act τ) : Option (State τ) :=
  match s.phase t with
  | .outside => none
  | .waiting => if h : t ∉ s.lock.waiters then some (reacquire k s t h) else none
  | .reacquiring => (Lock.step k s.lock a).map fun lock => setPhase { s with lock } t .outside

def step (k : Lock.Kind) (s : State τ) : Action τ → Option (State τ)
  | .lock a =>
    if s.phase (caller a) = .outside then (Lock.step k s.lock a).map fun lock => { s with lock } else none
  | .swait t =>
    if h : s.phase t = .outside ∧ t ∉ s.lock.waiters ∧ Holds k s.lock t ∧ t ∉ s.waiters then
      some (swait k s t h.2.2.2)
    else none
  | .notify n => some (notify s n)
  | .wake t =>
    if h : s.phase t = .waiting ∧ t ∈ s.waiters.woken ∧
      t ∉ s.lock.waiters then some (reacquire k s t h.2.2) else none
  | .turn t =>
    if s.phase t = .reacquiring then
      (Lock.step k s.lock (.turn t)).map fun lock => setPhase { s with lock } t .outside
    else none
  | .steal t => comesOut k s t (.steal t)
  | .throw t => comesOut k s t (.throw t)

/-- Nothing is thrown into a tealet that waits for the lock at the end of its call. -/
def Clear (s : State τ) : Action τ → Prop
  | .throw t => s.phase t ≠ .reacquiring
  | _ => True

instance (s : State τ) (a : Action τ) : Decidable (Clear s a) := by
  cases a <;> unfold Clear <;> infer_instance

/-- A tealet waits in one place at a time, so that its call can always go on. -/
structure Placed (s : State τ) : Prop where
  waiting : ∀ t, s.phase t = .waiting ↔ t ∈ s.waiters
  apart : ∀ t, s.phase t = .waiting → t ∉ s.lock.waiters
  reacquiring : ∀ t, s.phase t = .reacquiring → t ∈ s.lock.waiters

variable {k : Lock.Kind} {s s' : State τ} {t : τ}

/-! ## The steps -/

theorem phase_setPhase (s : State τ) (t u : τ) (p : Phase) :
    (setPhase s t p).phase u = if u = t then p else s.phase u := by
  simp [setPhase, Function.update_apply]

theorem mem_waiters_step {l l' : Lock.State τ} {a : Lock.Act τ} (h : Lock.step k l a = some l') {u : τ}
    (hu : u ≠ caller a) : u ∈ l'.waiters ↔ u ∈ l.waiters := by
  have hleave : ∀ t, u ≠ t → (u ∈ l.waiters.leave t ↔ u ∈ l.waiters) := by
    intro t hne
    show u ∈ l.waiters.toWaitQueue.leave t ↔ _
    simp only [WaitLine.mem_iff, WaitQueue.mem_iff, WaitQueue.leave_parked, WaitQueue.leave_woken,
      mem_erase_of_ne hne]
  cases Lock.Move.of_step h with
  | park t ht hl =>
    simp only [WaitLine.mem_iff, WaitLine.park_parked, WaitLine.park_woken, mem_append, mem_singleton]
    have hne : u ≠ t := hu
    simp [hne]
  | fast t ht hl => exact Iff.rfl
  | refused t ht hl => exact Iff.rfl
  | unlock t ht hl ho => exact WaitLine.mem_wakeNext
  | turn t ht => exact hleave t hu
  -- the place stays, but nobody waits there
  | steal t ht => exact hleave t hu
  | throw t ht => exact hleave t hu

omit [DecidableEq τ] in
theorem mem_iterate_wakeNext (n : Nat) (q : WaitQueue τ) :
    t ∈ Nat.iterate WaitQueue.wakeNext n q ↔ t ∈ q := by
  induction n generalizing q with
  | zero => exact Iff.rfl
  | succ n ih => exact (ih q.wakeNext).trans WaitQueue.mem_wakeNext

omit [DecidableEq τ] in
theorem sacquire_cases (l : Lock.State τ) (h : t ∉ l.waiters) :
    (l.locked = false ∧ Lock.sacquire k l t h = Lock.take k l t) ∨
      l.locked = true ∧ Lock.sacquire k l t h = { l with waiters := l.waiters.park t h } := by
  cases hl : l.locked with
  | true => exact Or.inr ⟨rfl, by simp [Lock.sacquire, hl]⟩
  | false => exact Or.inl ⟨rfl, by simp [Lock.sacquire, hl]⟩

/-! ## Calls that end -/

namespace Placed

omit [DecidableEq τ] in
theorem init : Placed (init : State τ) where
  waiting := fun t => by simp [Condition.init, WaitQueue.mem_iff]
  apart := nofun
  reacquiring := nofun

theorem lock (h : Placed s) {a : Lock.Act τ} {l : Lock.State τ} (hs : Lock.step k s.lock a = some l)
    (hphase : s.phase (caller a) = .outside) : Placed { s with lock := l } := by
  have hother : ∀ u, s.phase u ≠ .outside → (u ∈ l.waiters ↔ u ∈ s.lock.waiters) :=
    fun u hu => mem_waiters_step hs fun heq => hu (heq ▸ hphase)
  refine ⟨h.waiting, fun u hu => ?_, fun u hu => ?_⟩
  · rw [hother u (by rw [hu]; decide)]
    exact h.apart u hu
  · rw [hother u (by rw [hu]; decide)]
    exact h.reacquiring u hu

theorem leaveLock (h : Placed s) {a : Lock.Act τ} {l : Lock.State τ} (hs : Lock.step k s.lock a = some l)
    (hphase : s.phase (caller a) = .reacquiring) :
      Placed (setPhase { s with lock := l } (caller a) .outside) := by
  refine ⟨fun u => ?_, fun u hu => ?_, fun u hu => ?_⟩
  · rw [phase_setPhase]
    split
    · rename_i heq
      subst heq
      have hout := (h.waiting (caller a)).not.1 (by rw [hphase]; decide)
      exact ⟨nofun, fun hin => absurd hin hout⟩
    · exact h.waiting u
  · rw [phase_setPhase] at hu
    split at hu
    · cases hu
    · rename_i hne
      exact fun hin => h.apart u hu ((mem_waiters_step hs hne).1 hin)
  · rw [phase_setPhase] at hu
    split at hu
    · cases hu
    · rename_i hne
      exact (mem_waiters_step hs hne).2 (h.reacquiring u hu)

theorem swait (h : Placed s) (hout : t ∉ s.lock.waiters) (ht : t ∉ s.waiters) :
    Placed (swait k s t ht) := by
  refine ⟨fun u => ?_, fun u hu => ?_, fun u hu => ?_⟩
  · have hmem : u ∈ s.waiters.park t ht ↔ u ∈ s.waiters ∨ u = t := by
      simp only [WaitQueue.mem_iff, WaitQueue.park_parked, WaitQueue.park_woken, mem_append, mem_singleton]
      tauto
    refine Iff.trans ?_ hmem.symm
    unfold Condition.swait
    rw [phase_setPhase]
    split
    · rename_i heq
      exact ⟨fun _ => Or.inr heq, fun _ => rfl⟩
    · rename_i hne
      exact (h.waiting u).trans ⟨Or.inl, fun hin => hin.resolve_right hne⟩
  · refine fun hin => ?_
    have hin' : u ∈ s.lock.waiters := WaitLine.mem_wakeNext.1 hin
    unfold Condition.swait at hu
    rw [phase_setPhase] at hu
    split at hu
    · rename_i heq
      exact hout (heq ▸ hin')
    · exact h.apart u hu hin'
  · unfold Condition.swait at hu
    rw [phase_setPhase] at hu
    split at hu
    · cases hu
    · exact WaitLine.mem_wakeNext.2 (h.reacquiring u hu)

omit [DecidableEq τ] in
theorem notify (h : Placed s) (n : Nat) : Placed (notify s n) := by
  unfold Condition.notify
  split
  · exact ⟨fun u => (h.waiting u).trans (mem_iterate_wakeNext n s.waiters).symm, h.apart, h.reacquiring⟩
  · exact h

theorem reacquire (h : Placed s) (ht : t ∉ s.lock.waiters) : Placed (reacquire k s t ht) := by
  have hother : ∀ u, u ≠ t → (u ∈ (Lock.sacquire k s.lock t ht).waiters ↔ u ∈ s.lock.waiters) := by
    intro u hne
    refine mem_waiters_step (k := k) (a := .acquire t) ?_ hne
    simp only [Lock.step]
    exact dif_neg ht
  unfold Condition.reacquire
  refine ⟨fun u => ?_, fun u hu => ?_, fun u hu => ?_⟩
  · rw [phase_setPhase]
    split
    · rename_i heq
      subst heq
      refine ⟨fun hwaiting => ?_, fun hin => absurd hin WaitQueue.not_mem_leave⟩
      split at hwaiting <;> cases hwaiting
    · rename_i hne
      refine (h.waiting u).trans ?_
      show u ∈ s.waiters ↔ u ∈ s.waiters.leave t
      simp only [WaitQueue.mem_iff, WaitQueue.leave_parked, WaitQueue.leave_woken, mem_erase_of_ne hne]
  · rw [phase_setPhase] at hu
    split at hu
    · split at hu <;> cases hu
    · rename_i hne
      exact fun hin => h.apart u hu ((hother u hne).1 hin)
  · rw [phase_setPhase] at hu
    split at hu
    · rename_i heq
      subst heq
      rcases sacquire_cases (k := k) s.lock ht with ⟨hl, -⟩ | ⟨-, hparked⟩
      · rw [hl] at hu
        cases hu
      · show u ∈ (Lock.sacquire k s.lock u ht).waiters
        rw [hparked]
        exact WaitQueue.mem_iff.2 (Or.inl (mem_append_right _ mem_cons_self))
    · rename_i hne
      exact (hother u hne).2 (h.reacquiring u hu)

theorem comesOut (h : Placed s) {a : Lock.Act τ} (hs : comesOut k s (caller a) a = some s') :
    Placed s' := by
  unfold Condition.comesOut at hs
  split at hs
  · cases hs
  · split at hs
    · cases hs
      exact h.reacquire _
    · cases hs
  · rename_i hphase
    rcases map_eq_some_iff.1 hs with ⟨l, hl, rfl⟩
    exact h.leaveLock hl hphase

theorem step {a : Action τ} (h : Placed s) (hs : Condition.step k s a = some s') : Placed s' := by
  cases a with
  | lock a =>
    simp only [Condition.step] at hs
    split at hs
    · rename_i hphase
      rcases map_eq_some_iff.1 hs with ⟨l, hl, rfl⟩
      exact h.lock hl hphase
    · cases hs
  | swait t =>
    simp only [Condition.step] at hs
    split at hs
    · rename_i hcall
      cases hs
      exact h.swait hcall.2.1 hcall.2.2.2
    · cases hs
  | notify n =>
    cases hs
    exact h.notify n
  | wake t =>
    simp only [Condition.step] at hs
    split at hs
    · cases hs
      exact h.reacquire _
    · cases hs
  | turn t =>
    simp only [Condition.step] at hs
    split at hs
    · rename_i hphase
      rcases map_eq_some_iff.1 hs with ⟨l, hl, rfl⟩
      exact h.leaveLock hl hphase
    · cases hs
  | steal t => exact h.comesOut (a := .steal t) hs
  | throw t => exact h.comesOut (a := .throw t) hs

theorem steps (h : Placed s) (hphase : s.phase t ≠ .outside) :
    (Condition.step k s (.throw t)).isSome = true ∧
    (s.phase t = .waiting → t ∈ s.waiters.woken → (Condition.step k s (.wake t)).isSome = true) := by
  constructor
  · simp only [Condition.step, Condition.comesOut]
    split
    · rename_i hnone
      exact absurd hnone hphase
    · rename_i hwaiting
      rw [dif_pos (h.apart t hwaiting)]
      rfl
    · rename_i hreacquiring
      simp only [Lock.step]
      rw [if_pos (h.reacquiring t hreacquiring)]
      rfl
  · intro hwaiting hwoken
    simp only [Condition.step]
    rw [dif_pos ⟨hwaiting, hwoken, h.apart t hwaiting⟩]
    rfl

end Placed

/-! ## Runs -/

end Pytealet.Locks.Condition
