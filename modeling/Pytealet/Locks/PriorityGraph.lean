import Mathlib.Algebra.Order.Ring.Int
import Mathlib.Data.List.MinMax
import Mathlib.Logic.Function.Basic
import Pytealet.Lib.Descent

/-!
# PriorityGraph — owners and waiters of `PriorityLock`, and the priorities they pass on

A task inherits from the waiters of the locks that it owns, a waiter from those of its own locks,
and so on.  Two recursions follow these edges: `get_effective_priority` from a task to the waiters,
and `_propagate_priority` from a lock to its owner and to the lock that this one waits for.  Both
take the number of nested calls as fuel here; `none` and `false` are a recursion that has not
returned by then.
-/

namespace Pytealet.Locks.PriorityGraph

open Lib Lib.Descent Function List

/-- What acquires a lock.  A tealet without priorities and an asyncio task own no locks that they
know of, and their priority is 0. -/
inductive Agent
  | task (t : Nat)
  | plain (n : Nat)
  deriving DecidableEq, Repr

/-- A call of `sacquire` (or `acquire`) that waits. -/
structure Wait where
  agent : Agent
  lock : Nat
  /-- its event is set -/
  woken : Bool := false
  /-- before the call: the agent was in the waiter set of the lock -/
  wasWaiter : Bool
  /-- before the call: the lock the task was waiting on -/
  waitedOn : Option Nat
  deriving DecidableEq, Repr

structure Graph (κ : Type*) where
  /-- the base priorities of the tasks -/
  priority : Nat → κ
  /-- `_owned_priority_locks` -/
  owned : Nat → List Nat := fun _ => []
  /-- `_waiting_on_priority` -/
  waitingOn : Nat → Option Nat := fun _ => none
  locked : Nat → Bool := fun _ => false
  owner : Nat → Option Agent := fun _ => none
  waiterTasks : Nat → List Agent := fun _ => []
  /-- the calls that wait, each lock's in the order of its `_waiters` -/
  waits : List Wait := []
  /-- how many calls have waited so far -/
  calls : Nat := 0

namespace Graph

variable {κ : Type*} [LinearOrder κ] [Zero κ] (g : Graph κ)

/-! ## The recursions -/

/-- `PriorityLock.get_effective_priority`, with `rec` for its waiters. -/
def lockPriority (rec : Agent → Option κ) (l : Nat) : Option (Option κ) :=
  ((g.waiterTasks l).mapM rec).map List.min?

def getEffectivePriority : Nat → Agent → Option κ
  | 0, _ => none
  | _ + 1, .plain _ => some 0
  | n + 1, .task t =>
    ((g.owned t).mapM (g.lockPriority (getEffectivePriority n))).map fun inherited =>
      match (inherited.filterMap id).min? with
      | some p => min (g.priority t) p
      | none => g.priority t

/-- `_propagate_priority` of a lock: it comes to a task that is runnable and computes that one's
priority anew, or to an owner that waits for nothing. -/
def propagatePriority (runnable : Nat → Bool) (depth : Nat) : Nat → Nat → Bool
  | 0, _ => false
  | n + 1, l =>
    match g.owner l with
    | some (.task t) =>
      if runnable t then (g.getEffectivePriority depth (.task t)).isSome
      else
        match g.waitingOn t with
        | some l' => propagatePriority runnable depth n l'
        | none => true
    | _ => true

/-- Deep enough for every recursion that comes to an end: there are no more waiters than there were
calls. -/
def depth : Nat :=
  g.calls + 2

/-! ## The operations -/

/-- `_waiting_on_priority` of an agent. -/
def waiting : Agent → Option Nat
  | .task t => g.waitingOn t
  | .plain _ => none

def setWaiting (a : Agent) (l : Option Nat) : Graph κ :=
  match a with
  | .task t => { g with waitingOn := update g.waitingOn t l }
  | .plain _ => g

/-- `_take_lock` -/
def take (a : Agent) (l : Nat) : Graph κ :=
  { g with
    locked := update g.locked l true
    owner := update g.owner l (some a)
    owned :=
      match a with
      | .task t => update g.owned t ((g.owned t).insert l)
      | .plain _ => g.owned }

/-- The waiter is entered, before the protected part of `sacquire`. -/
def enter (a : Agent) (l : Nat) : Graph κ :=
  { g.setWaiting a (some l) with
    waiterTasks := update g.waiterTasks l ((g.waiterTasks l).insert a)
    calls := g.calls + 1 }

/-- The event of the call is in `_waiters`. -/
def park (w : Wait) : Graph κ :=
  { g with waits := g.waits ++ [w] }

/-- The `finally` of `sacquire`, up to its propagation. -/
def leaveWait (i : Nat) (w : Wait) : Graph κ :=
  { g.setWaiting w.agent none with
    waiterTasks := update g.waiterTasks w.lock ((g.waiterTasks w.lock).filter (· ≠ w.agent))
    waits := g.waits.eraseIdx i }

/-- `_waiters.popleft()`, and its event is set. -/
def wakeFirst (l : Nat) : List Wait → List Wait
  | [] => []
  | w :: ws => if w.lock = l ∧ w.woken = false then { w with woken := true } :: ws else w :: wakeFirst l ws

def release (a : Agent) (l : Nat) : Graph κ :=
  { g with
    locked := update g.locked l false
    owner := update g.owner l none
    owned :=
      match a with
      | .task t => update g.owned t ((g.owned t).filter (· ≠ l))
      | .plain _ => g.owned
    waits := wakeFirst l g.waits }

/-! ## When the recursions return -/

/-- `u` waits for a lock that the task owns. -/
def Child (u v : Agent) : Prop :=
  ∃ t l, v = .task t ∧ l ∈ g.owned t ∧ u ∈ g.waiterTasks l

variable {g}

theorem mapM_isSome {α β : Type*} {f : α → Option β} {xs : List α} :
    (xs.mapM f).isSome = true ↔ ∀ x ∈ xs, (f x).isSome = true := by
  induction xs with
  | nil => simp
  | cons x xs ih =>
    rw [mapM_cons]
    cases hx : f x with
    | none => simp [hx]
    | some y =>
      cases hxs : xs.mapM f with
      | none =>
        rw [hxs] at ih
        simp only [forall_mem_cons, hx, ← ih]
        simp
      | some ys =>
        rw [hxs] at ih
        simp only [forall_mem_cons, hx, ← ih]
        simp

theorem recursion_getEffectivePriority :
    Recursion g.Child fun n a => (g.getEffectivePriority n a).isSome where
  zero _ := rfl
  succ n a := by
    cases a with
    | plain m =>
      refine ⟨?_, fun _ => rfl⟩
      rintro - u ⟨t, l, heq, -⟩
      cases heq
    | task t =>
      have hlock : ∀ l, (g.lockPriority (g.getEffectivePriority n) l).isSome = true ↔
          ∀ u ∈ g.waiterTasks l, (g.getEffectivePriority n u).isSome = true := by
        intro l
        rw [lockPriority, Option.isSome_map]
        exact mapM_isSome
      rw [getEffectivePriority, Option.isSome_map, mapM_isSome]
      constructor
      · rintro hall u ⟨t', l, heq, hl, hu⟩
        cases heq
        exact (hlock l).1 (hall l hl) u hu
      · intro hall l hl
        exact (hlock l).2 fun u hu => hall u ⟨t, l, rfl, hl, hu⟩

/-- The owner of `l` waits for `l'`. -/
def Next (g : Graph κ) (runnable : Nat → Bool) (l' l : Nat) : Prop :=
  ∃ t, g.owner l = some (.task t) ∧ runnable t = false ∧ g.waitingOn t = some l'

theorem recursion_propagatePriority {runnable : Nat → Bool} {depth : Nat}
    (heffective : ∀ a, (g.getEffectivePriority depth a).isSome = true) :
    Recursion (g.Next runnable) (g.propagatePriority runnable depth) where
  zero _ := rfl
  succ n l := by
    rw [propagatePriority]
    cases howner : g.owner l with
    | none =>
      refine ⟨?_, fun _ => rfl⟩
      rintro - l' ⟨t, heq, -⟩
      rw [howner] at heq
      cases heq
    | some a =>
      cases a with
      | plain m =>
        refine ⟨?_, fun _ => rfl⟩
        rintro - l' ⟨t, heq, -⟩
        rw [howner] at heq
        cases heq
      | task t =>
        cases hrunnable : runnable t with
        | true =>
          simp only [hrunnable, if_true, heffective, true_iff]
          rintro l' ⟨t', heq, hnot, -⟩
          rw [howner] at heq
          cases heq
          rw [hrunnable] at hnot
          cases hnot
        | false =>
          cases hwaiting : g.waitingOn t with
          | none =>
            simp only [hrunnable, hwaiting]
            refine ⟨?_, fun _ => rfl⟩
            rintro - l' ⟨t', heq, -, hwaits⟩
            rw [howner] at heq
            cases heq
            rw [hwaiting] at hwaits
            cases hwaits
          | some l₁ =>
            simp only [hrunnable, hwaiting, Bool.false_eq_true, if_false]
            constructor
            · rintro hreturns l' ⟨t', heq, -, hwaits⟩
              rw [howner] at heq
              cases heq
              rw [hwaiting] at hwaits
              cases hwaits
              exact hreturns
            · exact fun hall => hall l₁ ⟨t, howner, hrunnable, hwaiting⟩

theorem getEffectivePriority_park (w : Wait) (n : Nat) :
    (g.park w).getEffectivePriority n = g.getEffectivePriority n := by
  induction n with
  | zero => rfl
  | succ n ih =>
    funext a
    cases a with
    | plain m => rfl
    | task t =>
      rw [getEffectivePriority, getEffectivePriority, ih]
      rfl

theorem propagatePriority_park (w : Wait) (runnable : Nat → Bool) (depth n : Nat) :
    (g.park w).propagatePriority runnable depth n = g.propagatePriority runnable depth n := by
  induction n with
  | zero => rfl
  | succ n ih =>
    funext l
    rw [propagatePriority, propagatePriority, ih, getEffectivePriority_park]
    rfl

/-! ## The invariant of the graph -/

structure Ok (g : Graph κ) : Prop where
  acyclic : ∀ x, ¬ Relation.TransGen g.Child x x
  /-- the waiters of a lock are those whose calls wait for it -/
  waiter : ∀ a l, a ∈ g.waiterTasks l ↔ ∃ w ∈ g.waits, w.agent = a ∧ w.lock = l
  waiting : ∀ t l, g.waitingOn t = some l → ∃ w ∈ g.waits, w.agent = .task t ∧ w.lock = l
  single : (g.waits.map Wait.agent).Nodup
  /-- a call found its agent waiting for nothing -/
  fresh : ∀ w ∈ g.waits, w.wasWaiter = false ∧ w.waitedOn = none
  owner : ∀ l t, g.owner l = some (.task t) → l ∈ g.owned t
  calls : g.waits.length ≤ g.calls

variable {a : Agent} {l : Nat}

theorem Ok.not_waiter (h : g.Ok) (hidle : ∀ w ∈ g.waits, w.agent ≠ a) (l : Nat) : a ∉ g.waiterTasks l := by
  intro hmem
  obtain ⟨w, hw, hagent, -⟩ := (h.waiter a l).1 hmem
  exact hidle w hw hagent

theorem Ok.not_waiting (h : g.Ok) (hidle : ∀ w ∈ g.waits, w.agent ≠ a) : g.waiting a = none := by
  cases a with
  | plain n => rfl
  | task t =>
    cases hwaiting : g.waitingOn t with
    | none => exact hwaiting
    | some l =>
      obtain ⟨w, hw, hagent, -⟩ := h.waiting t l hwaiting
      exact absurd hagent (hidle w hw)

theorem Ok.card_agents (h : g.Ok) : (g.waits.map Wait.agent).toFinset.card + 1 ≤ g.depth := by
  have hle := toFinset_card_le (g.waits.map Wait.agent)
  rw [length_map] at hle
  have hcalls := h.calls
  unfold depth
  omega

theorem Ok.effective_returns (h : g.Ok) (a : Agent) : (g.getEffectivePriority g.depth a).isSome = true := by
  apply recursion_getEffectivePriority.mono h.card_agents
  apply recursion_getEffectivePriority.returns _ h.acyclic
  rintro u v ⟨t, l, -, -, hu⟩
  obtain ⟨w, hw, rfl, -⟩ := (h.waiter u l).1 hu
  exact mem_toFinset.2 (mem_map_of_mem hw)

theorem Ok.child_of_next (h : g.Ok) {runnable : Nat → Bool} {l l' : Nat}
    (hpath : Relation.TransGen (g.Next runnable) l' l) {t t' : Nat} (howner : g.owner l = some (.task t))
    (howner' : g.owner l' = some (.task t')) : Relation.TransGen g.Child (.task t) (.task t') := by
  have hchild : ∀ {l l' t t'}, g.Next runnable l' l → g.owner l = some (.task t) →
      g.owner l' = some (.task t') →
      g.Child (.task t) (.task t') := by
    rintro l l' t t' ⟨t₀, howner₀, -, hwaits⟩ howner howner'
    rw [howner] at howner₀
    cases howner₀
    exact ⟨t', l', rfl, h.owner l' t' howner', (h.waiter _ _).2 (h.waiting t l' hwaits)⟩
  induction hpath generalizing t with
  | single hstep => exact .single (hchild hstep howner howner')
  | tail hbelow hstep ih =>
    -- the lock in the middle has an owner: the path goes on below it
    rcases Relation.TransGen.tail'_iff.1 hbelow with ⟨_, -, t₁, howner₁, -⟩
    exact .head (hchild hstep howner howner₁) (ih howner₁)

theorem Ok.propagate_returns (h : g.Ok) (runnable : Nat → Bool) (l : Nat) :
    g.propagatePriority runnable g.depth g.depth l = true := by
  have hrecursion : Recursion (g.Next runnable) (g.propagatePriority runnable g.depth) :=
    recursion_propagatePriority h.effective_returns
  have hcard : (g.waits.map Wait.lock).toFinset.card + 1 ≤ g.depth := by
    have hle := toFinset_card_le (g.waits.map Wait.lock)
    rw [length_map] at hle
    have hcalls := h.calls
    unfold depth
    omega
  apply hrecursion.mono hcard
  apply hrecursion.returns
  · rintro l' l ⟨t, -, -, hwaits⟩
    obtain ⟨w, hw, -, rfl⟩ := h.waiting t l' hwaits
    exact mem_toFinset.2 (mem_map_of_mem hw)
  · intro l hcycle
    rcases Relation.TransGen.tail'_iff.1 hcycle with ⟨_, -, t, howner, -⟩
    exact h.acyclic _ (h.child_of_next hcycle howner howner)

/-! ## The operations keep it -/

theorem child_enter {u v : Agent} (huv : (g.enter a l).Child u v) :
    g.Child u v ∨ u = a ∧ ∃ t, v = .task t ∧ l ∈ g.owned t := by
  obtain ⟨t, l', rfl, hl', hu⟩ := huv
  have howned : (g.enter a l).owned = g.owned := by cases a <;> rfl
  rw [howned] at hl'
  by_cases hsame : l' = l
  · subst hsame
    simp only [enter, update_self] at hu
    rcases mem_insert_iff.1 hu with rfl | hold
    · exact .inr ⟨rfl, t, rfl, hl'⟩
    · exact .inl ⟨t, l', rfl, hl', hold⟩
  · simp only [enter, update_of_ne hsame] at hu
    exact .inl ⟨t, l', rfl, hl', hu⟩

theorem child_enter_new {t : Nat} (howned : l ∈ g.owned t) : (g.enter a l).Child a (.task t) := by
  refine ⟨t, l, rfl, ?_, ?_⟩
  · cases a <;> exact howned
  · simp [enter]

theorem child_enter_old {u v : Agent} (huv : g.Child u v) : (g.enter a l).Child u v := by
  obtain ⟨t, l', rfl, hl', hu⟩ := huv
  refine ⟨t, l', rfl, ?_, ?_⟩
  · cases a <;> exact hl'
  · by_cases hsame : l' = l
    · subst hsame
      simpa [enter] using .inr hu
    · simpa [enter, update_of_ne hsame] using hu

theorem Ok.park (h : g.Ok) (hidle : ∀ w ∈ g.waits, w.agent ≠ a)
    (hcycle : ∀ t, l ∈ g.owned t → ¬ Relation.ReflTransGen g.Child (.task t) a) :
    ((g.enter a l).park ⟨a, l, false, a ∈ g.waiterTasks l, g.waiting a⟩).Ok := by
  have hwaits : (g.enter a l).waits = g.waits := by cases a <;> rfl
  have howned : (g.enter a l).owned = g.owned := by cases a <;> rfl
  have howner : (g.enter a l).owner = g.owner := by cases a <;> rfl
  have hnew : ∀ w, w ∈ (g.enter a l).waits ++ [⟨a, l, false, a ∈ g.waiterTasks l, g.waiting a⟩] ↔
      w ∈ g.waits ∨ w = ⟨a, l, false, a ∈ g.waiterTasks l, g.waiting a⟩ := by
    intro w
    rw [hwaits, mem_append, mem_singleton]
  constructor
  · apply acyclic_of_edges (A := fun u => u = a) (B := fun v => ∃ t, v = .task t ∧ l ∈ g.owned t) h.acyclic
    · exact fun u v => child_enter
    · rintro u v rfl ⟨t, rfl, hl⟩
      exact hcycle t hl
  · intro u l'
    show u ∈ update g.waiterTasks l ((g.waiterTasks l).insert a) l' ↔ _
    by_cases hsame : l' = l
    · subst hsame
      rw [update_self, mem_insert_iff, h.waiter]
      constructor
      · rintro (rfl | ⟨w, hw, hagent, hlock⟩)
        · exact ⟨_, (hnew _).2 (.inr rfl), rfl, rfl⟩
        · exact ⟨w, (hnew w).2 (.inl hw), hagent, hlock⟩
      · rintro ⟨w, hw, hagent, hlock⟩
        rcases (hnew w).1 hw with hold | rfl
        · exact .inr ⟨w, hold, hagent, hlock⟩
        · exact .inl hagent.symm
    · rw [update_of_ne hsame, h.waiter]
      constructor
      · rintro ⟨w, hw, hagent, hlock⟩
        exact ⟨w, (hnew w).2 (.inl hw), hagent, hlock⟩
      · rintro ⟨w, hw, hagent, hlock⟩
        rcases (hnew w).1 hw with hold | rfl
        · exact ⟨w, hold, hagent, hlock⟩
        · exact absurd hlock.symm hsame
  · intro t l' hl'
    have hcases : g.waitingOn t = some l' ∨ a = .task t ∧ l' = l := by
      cases a with
      | plain n => exact .inl hl'
      | task t₀ =>
        by_cases hsame : t = t₀
        · subst hsame
          have hl' : update g.waitingOn t (some l) t = some l' := hl'
          rw [update_self] at hl'
          exact .inr ⟨rfl, (Option.some.inj hl').symm⟩
        · have hl' : update g.waitingOn t₀ (some l) t = some l' := hl'
          rw [update_of_ne hsame] at hl'
          exact .inl hl'
    rcases hcases with hold | ⟨rfl, rfl⟩
    · obtain ⟨w, hw, hagent, hlock⟩ := h.waiting t l' hold
      exact ⟨w, (hnew w).2 (.inl hw), hagent, hlock⟩
    · exact ⟨_, (hnew _).2 (.inr rfl), rfl, rfl⟩
  · show (((g.enter a l).waits ++ [_]).map Wait.agent).Nodup
    rw [hwaits, map_append, map_singleton]
    refine nodup_append.2 ⟨h.single, nodup_singleton _, ?_⟩
    rintro u hu v hv rfl
    obtain ⟨w, hw, rfl⟩ := mem_map.1 hu
    exact hidle w hw (mem_singleton.1 hv)
  · intro w hw
    rcases (hnew w).1 hw with hold | rfl
    · exact h.fresh w hold
    · exact ⟨decide_eq_false (h.not_waiter hidle l), h.not_waiting hidle⟩
  · intro l' t ht
    have ht : (g.enter a l).owner l' = some (.task t) := ht
    rw [howner] at ht
    show l' ∈ (g.enter a l).owned t
    rw [howned]
    exact h.owner l' t ht
  · show ((g.enter a l).waits ++ [_]).length ≤ g.calls + 1
    rw [hwaits, length_append]
    exact Nat.succ_le_succ h.calls

theorem owned_take {t l' : Nat} (hl' : l' ∈ (g.take a l).owned t) : l' ∈ g.owned t ∨
    a = .task t ∧ l' = l := by
  cases a with
  | plain n => exact .inl hl'
  | task t₀ =>
    by_cases hsame : t = t₀
    · subst hsame
      simp only [take, update_self, mem_insert_iff] at hl'
      rcases hl' with rfl | hold
      · exact .inr ⟨rfl, rfl⟩
      · exact .inl hold
    · simp only [take, update_of_ne hsame] at hl'
      exact .inl hl'

theorem Ok.take (h : g.Ok) (hidle : ∀ w ∈ g.waits, w.agent ≠ a) : (g.take a l).Ok where
  acyclic := by
    apply acyclic_of_edges (A := fun u => u ∈ g.waiterTasks l) (B := fun v => v = a) h.acyclic
    · rintro u v ⟨t, l', rfl, hl', hu⟩
      rcases owned_take hl' with hold | ⟨rfl, rfl⟩
      · exact .inl ⟨t, l', rfl, hold, hu⟩
      · exact .inr ⟨hu, rfl⟩
    · rintro u v hu rfl hpath
      rcases Relation.ReflTransGen.cases_head hpath with rfl | ⟨w, ⟨t, l', -, -, hw⟩, -⟩
      · exact h.not_waiter hidle l hu
      · exact h.not_waiter hidle l' hw
  waiter := h.waiter
  waiting := h.waiting
  single := h.single
  fresh := h.fresh
  owner := by
    intro l' t ht
    by_cases hsame : l' = l
    · subst hsame
      have ht : update g.owner l' (some a) l' = some (.task t) := ht
      rw [update_self] at ht
      cases ht
      simp [Graph.take]
    · have ht : update g.owner l (some a) l' = some (.task t) := ht
      rw [update_of_ne hsame] at ht
      have hold := h.owner l' t ht
      cases a with
      | plain n => exact hold
      | task t₀ =>
        by_cases htask : t = t₀
        · subst htask
          simpa [Graph.take] using .inr hold
        · simpa [Graph.take, update_of_ne htask] using hold
  calls := h.calls

theorem acyclic_of_subset {g' : Graph κ} (h : ∀ x, ¬ Relation.TransGen g.Child x x)
    (hsub : ∀ u v, g'.Child u v → g.Child u v) : ∀ x, ¬ Relation.TransGen g'.Child x x :=
  fun x hcycle => h x (Relation.TransGen.mono hsub _ _ hcycle)

theorem Ok.leaveWait (h : g.Ok) {i : Nat} {w : Wait} (hw : g.waits[i]? = some w) :
    (g.leaveWait i w).Ok ∧ ∀ w' ∈ (g.leaveWait i w).waits, w'.agent ≠ w.agent := by
  obtain ⟨hi, hget⟩ := List.getElem?_eq_some_iff.1 hw
  have hperm : (w :: g.waits.eraseIdx i).Perm g.waits := hget ▸ getElem_cons_eraseIdx_perm hi
  have hnodup : ((w :: g.waits.eraseIdx i).map Wait.agent).Nodup :=
    (hperm.map Wait.agent).nodup_iff.2 h.single
  rw [map_cons, nodup_cons] at hnodup
  have hother : ∀ w' ∈ g.waits.eraseIdx i, w'.agent ≠ w.agent :=
    fun w' hw' heq => hnodup.1 (heq ▸ mem_map_of_mem hw')
  have hrest : ∀ w', w' ∈ g.waits.eraseIdx i ↔ w' ∈ g.waits ∧ w'.agent ≠ w.agent := by
    intro w'
    constructor
    · exact fun hmem => ⟨hperm.subset (mem_cons_of_mem _ hmem), hother w' hmem⟩
    · rintro ⟨hmem, hne⟩
      rcases mem_cons.1 (hperm.symm.subset hmem) with rfl | hrest
      · exact absurd rfl hne
      · exact hrest
  have hwaits : (g.leaveWait i w).waits = g.waits.eraseIdx i := by
    unfold Graph.leaveWait
    cases w.agent <;> rfl
  have howned : (g.leaveWait i w).owned = g.owned := by
    unfold Graph.leaveWait
    cases w.agent <;> rfl
  have hwaiters : ∀ u l, u ∈ (g.leaveWait i w).waiterTasks l ↔ u ∈ g.waiterTasks l ∧
      ¬ (l = w.lock ∧ u = w.agent) := by
    intro u l
    show u ∈ update g.waiterTasks w.lock ((g.waiterTasks w.lock).filter (· ≠ w.agent)) l ↔ _
    by_cases hsame : l = w.lock
    · subst hsame
      simp
    · simp [hsame]
  refine ⟨?_, by rw [hwaits]; exact hother⟩
  constructor
  · apply acyclic_of_subset h.acyclic
    rintro u v ⟨t, l, rfl, hl, hu⟩
    rw [howned] at hl
    exact ⟨t, l, rfl, hl, ((hwaiters u l).1 hu).1⟩
  · intro u l
    rw [hwaiters, hwaits, h.waiter]
    constructor
    · rintro ⟨⟨w', hw', hagent, hlock⟩, hnot⟩
      refine ⟨w', (hrest w').2 ⟨hw', ?_⟩, hagent, hlock⟩
      intro hsame
      rcases mem_cons.1 (hperm.symm.subset hw') with rfl | hmem
      · exact hnot ⟨hlock.symm, hagent.symm⟩
      · exact hother w' hmem hsame
    · rintro ⟨w', hw', hagent, hlock⟩
      refine ⟨⟨w', ((hrest w').1 hw').1, hagent, hlock⟩, ?_⟩
      rintro ⟨-, rfl⟩
      exact hother w' hw' hagent
  · intro t l hl
    have hcases : g.waitingOn t = some l ∧ w.agent ≠ .task t := by
      unfold Graph.leaveWait setWaiting at hl
      cases hagent : w.agent with
      | plain n =>
        rw [hagent] at hl
        exact ⟨hl, nofun⟩
      | task t₀ =>
        rw [hagent] at hl
        have hl : update g.waitingOn t₀ none t = some l := hl
        by_cases hsame : t = t₀
        · subst hsame
          rw [update_self] at hl
          cases hl
        · rw [update_of_ne hsame] at hl
          refine ⟨hl, ?_⟩
          intro heq
          cases heq
          exact hsame rfl
    obtain ⟨w', hw', hagent, hlock⟩ := h.waiting t l hcases.1
    rw [hwaits]
    refine ⟨w', (hrest w').2 ⟨hw', ?_⟩, hagent, hlock⟩
    rw [hagent]
    exact hcases.2.symm
  · rw [hwaits]
    exact hnodup.2
  · intro w' hw'
    rw [hwaits] at hw'
    exact h.fresh w' ((hrest w').1 hw').1
  · intro l t ht
    rw [howned]
    apply h.owner l t
    unfold Graph.leaveWait at ht
    cases hagent : w.agent <;> rw [hagent] at ht <;> exact ht
  · have hcalls : (g.leaveWait i w).calls = g.calls := by
      unfold Graph.leaveWait
      cases w.agent <;> rfl
    rw [hwaits, hcalls]
    exact (length_eraseIdx_le _ _).trans h.calls

theorem mem_wakeFirst {l : Nat} {w : Wait} : ∀ {ws : List Wait}, w ∈ wakeFirst l ws →
    ∃ w₀ ∈ ws, w = w₀ ∨ w = { w₀ with woken := true } := by
  intro ws
  induction ws with
  | nil =>
    intro hw
    cases hw
  | cons w₁ ws ih =>
    intro hw
    unfold wakeFirst at hw
    split at hw
    · rcases mem_cons.1 hw with rfl | hw
      · exact ⟨w₁, mem_cons_self, .inr rfl⟩
      · exact ⟨w, mem_cons_of_mem _ hw, .inl rfl⟩
    · rcases mem_cons.1 hw with rfl | hw
      · exact ⟨w, mem_cons_self, .inl rfl⟩
      · obtain ⟨w₀, hw₀, heq⟩ := ih hw
        exact ⟨w₀, mem_cons_of_mem _ hw₀, heq⟩

theorem wakeFirst_map {β : Type*} (f : Wait → β)
    (hf : ∀ w : Wait, f { w with woken := true } = f w) (l : Nat)
    (ws : List Wait) : (wakeFirst l ws).map f = ws.map f := by
  induction ws with
  | nil => rfl
  | cons w ws ih =>
    unfold wakeFirst
    split
    · rw [map_cons, map_cons, hf]
    · rw [map_cons, map_cons, ih]

theorem exists_wakeFirst {p : Agent → Nat → Prop} {l : Nat} {ws : List Wait} :
    (∃ w ∈ wakeFirst l ws, p w.agent w.lock) ↔ ∃ w ∈ ws, p w.agent w.lock := by
  have hmap := wakeFirst_map (fun w => (w.agent, w.lock)) (fun _ => rfl) l ws
  constructor
  · rintro ⟨w, hw, hp⟩
    obtain ⟨w₀, hw₀, rfl | rfl⟩ := mem_wakeFirst hw
    · exact ⟨_, hw₀, hp⟩
    · exact ⟨_, hw₀, hp⟩
  · rintro ⟨w, hw, hp⟩
    have hmem : (w.agent, w.lock) ∈ (wakeFirst l ws).map fun w => (w.agent, w.lock) :=
      hmap ▸ mem_map_of_mem hw
    obtain ⟨w₁, hw₁, heq⟩ := mem_map.1 hmem
    obtain ⟨hagent, hlock⟩ := Prod.mk.inj heq
    exact ⟨w₁, hw₁, by rw [hagent, hlock]; exact hp⟩

theorem Ok.release (h : g.Ok) : (g.release a l).Ok where
  acyclic := by
    apply acyclic_of_subset h.acyclic
    rintro u v ⟨t, l', rfl, hl', hu⟩
    refine ⟨t, l', rfl, ?_, hu⟩
    cases a with
    | plain n => exact hl'
    | task t₀ =>
      by_cases hsame : t = t₀
      · subst hsame
        simp only [Graph.release, update_self] at hl'
        exact mem_of_mem_filter hl'
      · simpa [Graph.release, update_of_ne hsame] using hl'
  waiter u l' := by
    rw [show (g.release a l).waiterTasks = g.waiterTasks from rfl, h.waiter]
    exact (exists_wakeFirst (p := fun agent lock => agent = u ∧ lock = l')).symm
  waiting t l' hl' :=
    (exists_wakeFirst (p := fun agent lock => agent = .task t ∧ lock = l')).2 (h.waiting t l' hl')
  single := by
    show ((wakeFirst l g.waits).map Wait.agent).Nodup
    rw [wakeFirst_map Wait.agent fun _ => rfl]
    exact h.single
  fresh w hw := by
    obtain ⟨w₀, hw₀, rfl | rfl⟩ := mem_wakeFirst hw
    · exact h.fresh w hw₀
    · exact h.fresh w₀ hw₀
  owner l' t ht := by
    by_cases hsame : l' = l
    · subst hsame
      have ht : update g.owner l' none l' = some (.task t) := ht
      rw [update_self] at ht
      cases ht
    · have ht : update g.owner l none l' = some (.task t) := ht
      rw [update_of_ne hsame] at ht
      have hold := h.owner l' t ht
      cases a with
      | plain n => exact hold
      | task t₀ =>
        by_cases htask : t = t₀
        · subst htask
          simpa [Graph.release, hsame] using hold
        · simpa [Graph.release, update_of_ne htask] using hold
  calls := by
    show (wakeFirst l g.waits).length ≤ g.calls
    rw [← length_map Wait.agent, wakeFirst_map Wait.agent fun _ => rfl, length_map]
    exact h.calls

end Graph
end Pytealet.Locks.PriorityGraph
