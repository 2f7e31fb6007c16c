import Pytealet.Locks.PriorityGraph
import Pytealet.Scheduler.RunnableLanes

/-!
# PriorityKeys — the priorities that the runnable queue has stored

An item of the heap of `PriorityRunnableQueue` has the effective priority that its task had when it
was put there.  That priority changes with the waiters of the locks that the task owns, and with
their own; `on_modified` takes the task out and puts it back.

What the scheduler does is any call on its queue, at any time.  An agent that is not in the queue
may run; a call that waits goes on when its event is set, or when something is thrown into it.
-/

namespace Pytealet

open Function List Option

/-! ## The stored priorities under the calls of the queue -/

namespace Scheduler
namespace PriorityQueue

variable {κ : Type*} [LinearOrder κ] {q : PriorityQueue κ} {prio : Nat → Option κ} {task : Nat}

/-- Each item has the priority of its task. -/
def Keyed (prio : Nat → Option κ) (q : PriorityQueue κ) : Prop :=
  ∀ e ∈ q.priorityItems.toList, prio e.task = some e.priority

instance : Decidable (Keyed prio q) :=
  inferInstanceAs (Decidable (∀ e ∈ q.priorityItems.toList, prio e.task = some e.priority))

omit [LinearOrder κ] in
theorem mem_normal {e : HeapEntry κ} (he : e ∈ q.priorityItems.toList) : e.task ∈ q.normal :=
  mem_map_of_mem he

theorem removeNormal_subset {e : HeapEntry κ} (he : e ∈ (q.removeNormal task).2.priorityItems.toList) :
    e ∈ q.priorityItems.toList := by
  unfold removeNormal at he
  dsimp only at he
  split at he
  · have hperm := Array.perm_iff_toList_perm.1
      (Lib.Heapq.heapify_perm HeapEntry.key (q.priorityItems.eraseP fun e => e.task = task))
    have hmem := hperm.mem_iff.1 he
    exact Array.mem_toList_iff.2 (Array.mem_of_mem_eraseP (Array.mem_toList_iff.1 hmem))
  · exact he

theorem mem_insertNormal {e : HeapEntry κ} (he : e ∈ (insertNormal prio q task).2.priorityItems.toList) :
    e ∈ q.priorityItems.toList ∨ prio task = some e.priority ∧ e.task = task := by
  unfold insertNormal at he
  split at he
  · exact .inl he
  · rename_i p hp
    have hperm := Array.perm_iff_toList_perm.1
      (Lib.Heapq.heappush_perm HeapEntry.key q.priorityItems ⟨p, q.prioritySequence, task⟩)
    rw [Array.toList_push] at hperm
    rcases mem_append.1 (hperm.mem_iff.1 he) with hold | hnew
    · exact .inl hold
    · rw [mem_singleton.1 hnew]
      exact .inr ⟨hp, rfl⟩

namespace Keyed

theorem insertNormal (h : Keyed prio q) : Keyed prio (insertNormal prio q task).2 := by
  intro e he
  rcases mem_insertNormal he with hold | ⟨hp, rfl⟩
  · exact h e hold
  · exact hp

theorem removeNormal (h : Keyed prio q) : Keyed prio (q.removeNormal task).2 :=
  fun e he => h e (removeNormal_subset he)

theorem removeWithoutUnlink (h : Keyed prio q) : Keyed prio (q.removeWithoutUnlink task).2 := by
  unfold PriorityQueue.removeWithoutUnlink
  split
  · exact h
  · split
    · exact h.removeNormal
    · exact h

theorem add (h : Keyed prio q) (position : Option Int) : Keyed prio (add prio q task position).2 := by
  unfold PriorityQueue.add
  split
  · exact h
  · split
    · exact h.insertNormal
    · exact h

theorem discard (h : Keyed prio q) : Keyed prio (q.discard task).2 := by
  unfold PriorityQueue.discard
  split
  · exact h
  · split
    · exact h.removeNormal
    · exact h

theorem popNext (hq : q.Represents) (h : Keyed prio q) : Keyed prio q.popNext.2 := by
  unfold PriorityQueue.popNext
  split
  · exact h
  · split
    · exact h
    · rename_i e rest hpop
      obtain ⟨-, hperm, -⟩ := Lib.Heapq.heappop_spec hq.ordered hpop
      have hlist := Array.perm_iff_toList_perm.1 hperm
      rw [Array.toList_push] at hlist
      exact fun e' he' => h e' (hlist.mem_iff.1 (mem_append_left _ he'))

theorem reschedule (h : Keyed prio q) (position : Option Int) :
    Keyed prio (reschedule prio q task position).2 := by
  unfold PriorityQueue.reschedule
  have hremoved : Keyed prio (q.removeWithoutUnlink task).2 := h.removeWithoutUnlink
  split
  · rename_i heq
    rwa [heq] at hremoved
  · rename_i heq
    rw [heq] at hremoved
    split
    · exact hremoved.insertNormal
    · exact hremoved

theorem onModified (h : Keyed prio q) : Keyed prio (onModified prio q task).2 := by
  unfold PriorityQueue.onModified
  have hremoved : Keyed prio (q.removeNormal task).2 := h.removeNormal
  split
  · exact h
  · split
    · split
      · rename_i heq
        rwa [heq] at hremoved
      · rename_i heq
        rw [heq] at hremoved
        exact hremoved.insertNormal
    · exact h

theorem perform (hq : q.Represents) (h : Keyed prio q) (op : QueueOp) :
    Keyed prio ((priorityClass prio).perform q op).2 := by
  have hboth := (priorityClass prio).perform_of (I := fun q => q.Represents ∧ Keyed prio q)
    (fun _ _ p hq => ⟨hq.1.add _ p, hq.2.add p⟩) (fun _ _ hq => ⟨hq.1.discard _, hq.2.discard⟩)
    (fun _ hq => ⟨hq.1.popNext, Keyed.popNext hq.1 hq.2⟩)
      (fun _ _ p hq => ⟨hq.1.reschedule _ p, hq.2.reschedule p⟩)
    (fun _ _ hq => ⟨hq.1.onModified _, hq.2.onModified⟩) ⟨hq, h⟩ op
  exact hboth.2

theorem rekey (hq : q.Represents) {p : κ} (hp : prio task = some p)
    (hrest : ∀ e ∈ q.priorityItems.toList, e.task ≠ task → prio e.task = some e.priority) :
    (PriorityQueue.onModified prio q task).1 = .ok () ∧
      Keyed prio (PriorityQueue.onModified prio q task).2 := by
  unfold PriorityQueue.onModified
  by_cases hlane : task ∈ q.prescheduledSet
  · -- no item of the heap is the task's
    rw [if_pos hlane]
    refine ⟨rfl, fun e he => hrest e he ?_⟩
    rintro rfl
    exact hq.apart _ ((hq.laneSame _).1 hlane) (mem_normal he)
  · rw [if_neg hlane]
    by_cases hset : task ∈ q.set
    · rw [if_pos hset]
      obtain ⟨q₁, hresult, -, hnormal, -⟩ := hq.removeNormal hset
      have hkeyed : Keyed prio q₁ := by
        intro e he
        have hremoved : e ∈ (q.removeNormal task).2.priorityItems.toList := by
          rw [hresult]
          exact he
        exact hrest e (removeNormal_subset hremoved)
          (hq.normal.mem_erase_iff.1 (hnormal.mem_iff.1 (mem_normal he))).1
      rw [hresult]
      refine ⟨insertNormal_some ?_ q₁, hkeyed.insertNormal⟩
      rw [hp]
      exact some_ne_none p
    · rw [if_neg hset]
      refine ⟨rfl, fun e he => hrest e he ?_⟩
      rintro rfl
      exact hset ((hq.normalSame _).2 (mem_normal he))

theorem least (hq : q.Represents) (h : Keyed prio q) (hlane : q.prescheduled = []) {t : Nat}
    (hpop : q.popNext.1 = .ok t) :
    ∃ p, prio t = some p ∧ ∀ t', q.contains t' = true → ∃ p', prio t' = some p' ∧ p ≤ p' := by
  unfold PriorityQueue.popNext at hpop
  rw [hlane] at hpop
  dsimp only at hpop
  split at hpop
  · cases hpop
  · rename_i e rest hheap
    cases hpop
    obtain ⟨-, hperm, hleast⟩ := Lib.Heapq.heappop_spec hq.ordered hheap
    have hmem : e ∈ q.priorityItems := hperm.mem_iff.1 (by simp)
    refine ⟨e.priority, h e (Array.mem_toList_iff.2 hmem), fun t' ht' => ?_⟩
    rcases hq.contains_iff.1 ht' with hin | hin
    · rw [hlane] at hin
      cases hin
    · obtain ⟨e', he', rfl⟩ := mem_map.1 hin
      refine ⟨e'.priority, h e' he', ?_⟩
      exact Prod.Lex.monotone_fst _ _ (hleast e' (Array.mem_toList_iff.1 he'))

end Keyed
end PriorityQueue
end Scheduler

/-! ## The priorities that depend on a lock -/

namespace Locks
namespace PriorityGraph
namespace Graph

variable {κ : Type*} [LinearOrder κ] [Zero κ] {g g' : Graph κ} {a : Agent} {l : Nat}

/-- What `get_effective_priority` gives for the tasks. -/
def priorities (g : Graph κ) (t : Nat) : Option κ :=
  g.getEffectivePriority g.depth (.task t)

/-- The agents of `P` inherit from each other only, and from the same ones in both graphs. -/
def Alike (P : Agent → Prop) (g g' : Graph κ) : Prop :=
  ∀ t, P (.task t) → g'.priority t = g.priority t ∧ g'.owned t = g.owned t ∧
    ∀ l ∈ g.owned t, g'.waiterTasks l = g.waiterTasks l ∧ ∀ u ∈ g.waiterTasks l, P u

omit [LinearOrder κ] [Zero κ] in
theorem mapM_le {α β : Type*} {f f' : α → Option β} {xs : List α} {ys : List β}
    (h : ∀ x ∈ xs, ∀ y, f x = some y → f' x = some y) (hxs : xs.mapM f = some ys) :
      xs.mapM f' = some ys := by
  induction xs generalizing ys with
  | nil => exact hxs
  | cons x xs ih =>
    rw [mapM_cons] at hxs ⊢
    obtain ⟨y, hy, hrest⟩ := bind_eq_some_iff.1 hxs
    obtain ⟨ys', hys', heq⟩ := bind_eq_some_iff.1 hrest
    have htail := ih (fun x' hx' => h x' (mem_cons_of_mem _ hx')) hys'
    rw [h x mem_cons_self y hy, htail]
    exact heq

theorem getEffectivePriority_le {P : Agent → Prop} (halike : Alike P g g') :
    ∀ {n m : Nat} {a : Agent} {k : κ}, n ≤ m → P a → g.getEffectivePriority n a = some k →
      g'.getEffectivePriority m a = some k := by
  intro n
  induction n with
  | zero =>
    intro m a k _ _ hk
    cases hk
  | succ n ih =>
    intro m a k hle ha hk
    obtain ⟨m, rfl⟩ :=
      Nat.exists_eq_add_one_of_ne_zero (Nat.ne_of_gt (lt_of_lt_of_le (Nat.succ_pos n) hle))
    have hle := Nat.le_of_succ_le_succ hle
    cases a with
    | plain i => exact hk
    | task t =>
      obtain ⟨hpriority, howned, hwaiters⟩ := halike t ha
      unfold getEffectivePriority at hk ⊢
      rw [hpriority, howned]
      obtain ⟨inherited, hinherited, heq⟩ := map_eq_some_iff.1 hk
      refine map_eq_some_iff.2 ⟨inherited, mapM_le ?_ hinherited, heq⟩
      intro l hl p hp
      obtain ⟨hsame, hin⟩ := hwaiters l hl
      unfold lockPriority at hp ⊢
      rw [hsame]
      obtain ⟨ps, hps, hmin⟩ := map_eq_some_iff.1 hp
      exact map_eq_some_iff.2 ⟨ps, mapM_le (fun u hu p hp => ih hle (hin u hu) hp) hps, hmin⟩

theorem Ok.priorities_some (h : g.Ok) (t : Nat) : ∃ k, g.priorities t = some k :=
  isSome_iff_exists.1 (h.effective_returns (.task t))

theorem Ok.priorities_eq (h : g.Ok) (h' : g'.Ok) {P : Agent → Prop} (halike : Alike P g g') {t : Nat}
    (ht : P (.task t)) : g'.priorities t = g.priorities t := by
  obtain ⟨k, hk⟩ := h.priorities_some t
  obtain ⟨k', hk'⟩ := h'.priorities_some t
  have hself : Alike (fun _ => True) g' g' := fun _ _ => ⟨rfl, rfl, fun _ _ => ⟨rfl, fun _ _ => trivial⟩⟩
  have hmax := getEffectivePriority_le halike (Nat.le_max_left g.depth g'.depth) ht hk
  have hmax' := getEffectivePriority_le hself (Nat.le_max_right g.depth g'.depth) trivial hk'
  rw [hmax] at hmax'
  rw [hk, hk', Option.some.inj hmax']

theorem priorities_park (w : Wait) : (g.park w).priorities = g.priorities := by
  funext t
  unfold priorities
  rw [getEffectivePriority_park]
  rfl

/-- A waiter of the lock passes its priority on to the task: the owner of the lock, the owner of the
lock that this one waits for, and so on. -/
def Inherits (g : Graph κ) (l t : Nat) : Prop :=
  ∃ l', Relation.ReflTransGen (g.Next fun _ => false) l' l ∧ g.owner l' = some (.task t)

omit [LinearOrder κ] [Zero κ] in
theorem Inherits.cases {t : Nat} (h : g.Inherits l t) :
    ∃ t₀, g.owner l = some (.task t₀) ∧ (t = t₀ ∨ ∃ l', g.waitingOn t₀ = some l' ∧ g.Inherits l' t) := by
  obtain ⟨l', hpath, howner⟩ := h
  rcases Relation.ReflTransGen.cases_tail hpath with rfl | ⟨x, hbelow, t₀, howner₀, -, hwaits⟩
  · exact ⟨t, howner, .inl rfl⟩
  · exact ⟨t₀, howner₀, .inr ⟨x, hwaits, l', hbelow, howner⟩⟩

omit [LinearOrder κ] [Zero κ] in
theorem Inherits.up {t u l' : Nat} (h : g.Inherits l u) (hwaits : g.waitingOn u = some l')
    (howner : g.owner l' = some (.task t)) : g.Inherits l t := by
  obtain ⟨x, hpath, hu⟩ := h
  exact ⟨l', .head ⟨u, hu, rfl, hwaits⟩ hpath, howner⟩

/-- Only its owner has a lock among its own, and a task in a call has `_waiting_on_priority` set to
that call's lock. -/
structure Tracked (g : Graph κ) : Prop where
  ok : g.Ok
  sole : ∀ t l, l ∈ g.owned t → g.owner l = some (.task t)
  parked : ∀ w ∈ g.waits, ∀ t, w.agent = .task t → g.waitingOn t = some w.lock
  taken : ∀ l t, g.owner l = some (.task t) → g.locked l = true

omit [LinearOrder κ] [Zero κ] in
theorem Tracked.alike_waiters (h : g'.Tracked) (hpriority : g'.priority = g.priority)
    (howned : g'.owned = g.owned)
    (hwaiters : ∀ l', l' ≠ l → g'.waiterTasks l' = g.waiterTasks l') :
    Alike (fun u => ∀ t, u = .task t → ¬ g'.Inherits l t) g g' := by
  intro t ht
  have hnot := ht t rfl
  refine ⟨congrFun hpriority t, congrFun howned t, fun l' hl' => ?_⟩
  rw [← howned] at hl'
  have howner := h.sole t l' hl'
  have hsame := hwaiters l' (by rintro rfl; exact hnot ⟨l', .refl, howner⟩)
  refine ⟨hsame, ?_⟩
  rintro u hu t' rfl hinherits
  rw [← hsame] at hu
  obtain ⟨w, hw, hagent, rfl⟩ := (h.ok.waiter _ _).1 hu
  exact hnot (hinherits.up (h.parked w hw t' hagent) howner)

omit [LinearOrder κ] [Zero κ] in
theorem alike_agent (hwaiters : g'.waiterTasks = g.waiterTasks)
    (hsame : ∀ t, Agent.task t ≠ a → g'.priority t = g.priority t ∧ g'.owned t = g.owned t)
    (hnot : ∀ l, a ∉ g.waiterTasks l) : Alike (fun u => u ≠ a) g g' := by
  intro t ht
  obtain ⟨hpriority, howned⟩ := hsame t ht
  refine ⟨hpriority, howned, fun l _ => ⟨congrFun hwaiters l, ?_⟩⟩
  rintro u hu rfl
  exact hnot l hu

theorem Tracked.take (h : g.Tracked) (hidle : ∀ w ∈ g.waits, w.agent ≠ a)
    (hfree : ∀ t, g.owner l ≠ some (.task t)) :
    (g.take a l).Tracked where
  ok := h.ok.take hidle
  sole := by
    intro t l' hl'
    show update g.owner l (some a) l' = some (.task t)
    rcases owned_take hl' with hold | ⟨rfl, rfl⟩
    · have howner := h.sole t l' hold
      rw [update_of_ne (by rintro rfl; exact hfree t howner)]
      exact howner
    · rw [update_self]
  parked := h.parked
  taken := by
    intro l' t ht
    show update g.locked l true l' = true
    by_cases hsame : l' = l
    · rw [hsame, update_self]
    · have ht : update g.owner l (some a) l' = some (.task t) := ht
      rw [update_of_ne hsame] at ht ⊢
      exact h.taken l' t ht

theorem Tracked.park (h : g.Tracked) (hidle : ∀ w ∈ g.waits, w.agent ≠ a)
    (hcycle : ∀ t, l ∈ g.owned t → ¬ Relation.ReflTransGen g.Child (.task t) a) :
    ((g.enter a l).park ⟨a, l, false, a ∈ g.waiterTasks l, g.waiting a⟩).Tracked where
  ok := h.ok.park hidle hcycle
  sole := by
    cases a <;> exact h.sole
  parked := by
    intro w hw t hagent
    cases a with
    | plain n =>
      rcases mem_append.1 hw with hold | hnew
      · exact h.parked w hold t hagent
      · rw [mem_singleton.1 hnew] at hagent
        cases hagent
    | task t₀ =>
      show update g.waitingOn t₀ (some l) t = some w.lock
      rcases mem_append.1 hw with hold | hnew
      · have hne : t ≠ t₀ := by
          rintro rfl
          exact hidle w hold hagent
        rw [update_of_ne hne]
        exact h.parked w hold t hagent
      · rw [mem_singleton.1 hnew] at hagent ⊢
        cases hagent
        rw [update_self]
  taken := by
    cases a <;> exact h.taken

omit [LinearOrder κ] [Zero κ] in
theorem leaveWait_fields (g : Graph κ) (i : Nat) (w : Wait) : (g.leaveWait i w).priority = g.priority ∧
    (g.leaveWait i w).owned = g.owned ∧ (g.leaveWait i w).owner = g.owner ∧
    (g.leaveWait i w).waits = g.waits.eraseIdx i ∧ (g.leaveWait i w).locked = g.locked := by
  unfold Graph.leaveWait
  cases w.agent <;> exact ⟨rfl, rfl, rfl, rfl, rfl⟩

omit [LinearOrder κ] [Zero κ] in
theorem waitingOn_leaveWait {i t : Nat} {w : Wait} (hne : w.agent ≠ .task t) :
    (g.leaveWait i w).waitingOn t = g.waitingOn t := by
  unfold Graph.leaveWait setWaiting
  cases hagent : w.agent with
  | plain n => rfl
  | task t₀ =>
    apply update_of_ne
    rintro rfl
    exact hne hagent

theorem Tracked.leaveWait (h : g.Tracked) {i : Nat} {w : Wait} (hw : g.waits[i]? = some w) :
    (g.leaveWait i w).Tracked := by
  obtain ⟨hok, hidle⟩ := h.ok.leaveWait hw
  obtain ⟨-, howned, howner, hwaits, hlocked⟩ := leaveWait_fields g i w
  refine ⟨hok, ?_, ?_, ?_⟩
  · rw [howned, howner]
    exact h.sole
  · intro w' hw' t hagent
    have hne := hidle w' hw'
    rw [hagent] at hne
    rw [waitingOn_leaveWait hne.symm]
    rw [hwaits] at hw'
    exact h.parked w' (mem_of_mem_eraseIdx hw') t hagent
  · rw [howner, hlocked]
    exact h.taken

theorem Tracked.release (h : g.Tracked) (howner : g.owner l = some a) : (g.release a l).Tracked where
  ok := h.ok.release
  sole := by
    intro t l' hl'
    show update g.owner l none l' = some (.task t)
    have hold : l' ∈ g.owned t ∧ (a = .task t → l' ≠ l) := by
      cases a with
      | plain n => exact ⟨hl', nofun⟩
      | task t₀ =>
        by_cases hsame : t = t₀
        · subst hsame
          simp only [Graph.release, update_self, mem_filter, decide_eq_true_eq] at hl'
          exact ⟨hl'.1, fun _ => hl'.2⟩
        · simp only [Graph.release, update_of_ne hsame] at hl'
          refine ⟨hl', fun heq => ?_⟩
          cases heq
          exact absurd rfl hsame
    have hne : l' ≠ l := by
      rintro rfl
      have htask := h.sole t l' hold.1
      rw [howner] at htask
      exact hold.2 (Option.some.inj htask) rfl
    rw [update_of_ne hne]
    exact h.sole t l' hold.1
  parked := by
    intro w hw t hagent
    obtain ⟨w₀, hw₀, rfl | rfl⟩ := mem_wakeFirst hw
    · exact h.parked w hw₀ t hagent
    · exact h.parked w₀ hw₀ t hagent
  taken := by
    intro l' t ht
    show update g.locked l false l' = true
    have ht : update g.owner l none l' = some (.task t) := ht
    by_cases hsame : l' = l
    · rw [hsame, update_self] at ht
      cases ht
    · rw [update_of_ne hsame] at ht ⊢
      exact h.taken l' t ht

omit [LinearOrder κ] [Zero κ] in
theorem Tracked.setPriority (h : g.Tracked) (priority : Nat → κ) :
    Tracked { g with priority := priority } where
  ok := ⟨h.ok.acyclic, h.ok.waiter, h.ok.waiting, h.ok.single, h.ok.fresh, h.ok.owner, h.ok.calls⟩
  sole := h.sole
  parked := h.parked
  taken := h.taken

omit [LinearOrder κ] [Zero κ] in
theorem Tracked.setLocked (h : g.Tracked) (l : Nat) :
    Tracked { g with locked := update g.locked l true } where
  ok := ⟨h.ok.acyclic, h.ok.waiter, h.ok.waiting, h.ok.single, h.ok.fresh, h.ok.owner, h.ok.calls⟩
  sole := h.sole
  parked := h.parked
  taken := by
    intro l' t ht
    show update g.locked l true l' = true
    by_cases hsame : l' = l
    · rw [hsame, update_self]
    · rw [update_of_ne hsame]
      exact h.taken l' t ht

end Graph
end PriorityGraph

/-! ## The queue and the locks -/

namespace PriorityKeys

open Lib Lib.Transition PriorityGraph Scheduler

structure State (κ : Type*) where
  graph : Graph κ
  queue : PriorityQueue κ := {}

inductive Event (κ : Type*)
  | setPriority (t : Nat) (p : κ)
  /-- what the scheduler does with its queue: a task is made runnable or taken out, the next one is
  popped, … -/
  | queue (op : QueueOp)
  | acquire (a : Agent) (l : Nat)
  /-- a call whose event is set goes on -/
  | resume (i : Nat)
  /-- an exception is thrown into a call that waits -/
  | throw (i : Nat)
  | release (a : Agent) (l : Nat)

variable {κ : Type*} [LinearOrder κ] [Zero κ]

/-- `_propagate_priority` of a lock, with the `on_modified` in which it ends. -/
def propagatePriority (g : Graph κ) (q : PriorityQueue κ) : Nat → Nat →
    Except QueueError Unit × PriorityQueue κ
  | 0, _ => (.error .priority, q)
  | n + 1, l =>
    match g.owner l with
    | some (.task t) =>
      if q.contains t then q.onModified g.priorities t
      else
        match g.waitingOn t with
        | some l' => propagatePriority g q n l'
        | none => (.ok (), q)
    | _ => (.ok (), q)

namespace State

variable (s : State κ)

/-- The agent is not in the scheduler's queue. -/
def runs : Agent → Bool
  | .task t => !s.queue.contains t
  | .plain _ => true

/-- The agent runs, and is in no call. -/
def idle (a : Agent) : Bool :=
  s.runs a && s.graph.waits.all fun w => w.agent ≠ a

/-- The `priority` setter -/
def setPriority (t : Nat) (p : κ) : State κ :=
  let g := { s.graph with priority := update s.graph.priority t p }
  ⟨g, (s.queue.onModified g.priorities t).2⟩

/-- `sacquire`, up to where it waits -/
def acquire (a : Agent) (l : Nat) : State κ :=
  if !s.graph.locked l then { s with graph := s.graph.take a l }
  else
    let g := s.graph.enter a l
    match propagatePriority g s.queue g.depth l with
    | (.ok (), q) => ⟨g.park ⟨a, l, false, a ∈ s.graph.waiterTasks l, s.graph.waiting a⟩, q⟩
    | (.error _, q) => ⟨g, q⟩

/-- `sacquire` after its wait -/
def resume (i : Nat) (w : Wait) : State κ :=
  let g := { s.graph with locked := update s.graph.locked w.lock true }.leaveWait i w
  if g.owner w.lock = some w.agent then { s with graph := g.take w.agent w.lock }
  else
    match propagatePriority g s.queue g.depth w.lock with
    | (.ok (), q) => ⟨g.take w.agent w.lock, q⟩
    | (.error _, q) => ⟨g, q⟩

/-- `sacquire` raises what was thrown. -/
def throw (i : Nat) (w : Wait) : State κ :=
  let g := s.graph.leaveWait i w
  if g.locked w.lock = true ∧ g.owner w.lock ≠ some w.agent then
    ⟨g, (propagatePriority g s.queue g.depth w.lock).2⟩
  else ⟨g, s.queue⟩

def release (a : Agent) (l : Nat) : State κ :=
  let g := s.graph.release a l
  match a with
  | .task t => ⟨g, (s.queue.onModified g.priorities t).2⟩
  | .plain _ => ⟨g, s.queue⟩

end State

def step (s : State κ) : Event κ → Option (State κ)
  | .setPriority t p => some (s.setPriority t p)
  | .queue op => some { s with queue := ((priorityClass s.graph.priorities).perform s.queue op).2 }
  | .acquire a l => if s.idle a then some (s.acquire a l) else none
  | .resume i =>
    match s.graph.waits[i]? with
    | some w => if w.woken && s.runs w.agent then some (s.resume i w) else none
    | none => none
  | .throw i =>
    match s.graph.waits[i]? with
    | some w => if s.runs w.agent then some (s.throw i w) else none
    | none => none
  | .release a l =>
    if s.idle a ∧ s.graph.locked l = true ∧ s.graph.owner l = some a then some (s.release a l) else none

/-- No lock is taken, no task is queued, and each has a priority. -/
def start (priority : Nat → κ) : State κ where
  graph := { priority := priority }

/-! ## The property -/

/-- `pop_next` takes a task whose effective priority is the least of all queued tasks. -/
def PopsLeast (s : State κ) : Prop :=
  ∀ t, s.queue.popNext.1 = .ok t → ∃ p, s.graph.priorities t = some p ∧
    ∀ t', s.queue.contains t' = true → ∃ p', s.graph.priorities t' = some p' ∧ p ≤ p'

/-- The stored priorities are those of now.  `pop_next` takes the first task of the immediate lane,
and one of least priority where that lane is empty. -/
structure Fresh (s : State κ) : Prop where
  keys : s.queue.Keyed s.graph.priorities
  lane : ∀ t, s.queue.prescheduled.head? = some t → s.queue.popNext.1 = .ok t
  least : s.queue.prescheduled = [] → PopsLeast s

/-- No task is both in the queue and in a call for a lock that a task owns, among those that inherit
from the waiters of the lock: the priority is passed on no further than to the first task in the
queue. -/
def Reaches (g : Graph κ) (q : PriorityQueue κ) (l : Nat) : Prop :=
  ∀ t, g.Inherits l t → q.contains t = true → ∀ l', g.waitingOn t = some l' →
    ∀ t', g.owner l' ≠ some (.task t')

/-- The priority is set of a task in no call; a call that waits closes no cycle; a lock is free
again when its waiter goes on; and a lock passes on all the way what its waiters change. -/
def Orderly (s : State κ) : Event κ → Prop
  | .setPriority t _ => ∀ l, .task t ∉ s.graph.waiterTasks l
  | .acquire a l =>
    s.graph.locked l = true →
      (∀ t, l ∈ s.graph.owned t → ¬ Relation.ReflTransGen s.graph.Child (.task t) a) ∧
        Reaches s.graph s.queue l
  | .resume i => ∀ w, s.graph.waits[i]? = some w → ∀ t, s.graph.owner w.lock ≠ some (.task t)
  | .throw i => ∀ w, s.graph.waits[i]? = some w → Reaches s.graph s.queue w.lock
  | _ => True

/-! ## Every step keeps the priorities fresh -/

/-- The keys of the queue are the priorities that the graph gives. -/
structure Inv (s : State κ) : Prop where
  tracked : s.graph.Tracked
  queue : s.queue.Represents
  keyed : s.queue.Keyed s.graph.priorities

variable {s s' : State κ} {g : Graph κ} {q : PriorityQueue κ} {a : Agent} {l : Nat}

theorem Inv.fresh (h : Inv s) : Fresh s where
  keys := h.keyed
  lane := by
    intro t ht
    obtain ⟨rest, hrest⟩ := List.head?_eq_some_iff.1 ht
    unfold PriorityQueue.popNext
    rw [hrest]
  least := fun hlane _ hpop => PriorityQueue.Keyed.least h.queue h.keyed hlane hpop

omit [LinearOrder κ] [Zero κ] in
theorem not_inherits (hfree : ∀ t, g.owner l ≠ some (.task t)) (t : Nat) : ¬ g.Inherits l t := by
  intro hinherits
  obtain ⟨t₀, howner, -⟩ := hinherits.cases
  exact hfree t₀ howner

theorem propagatePriority_free (hfree : ∀ t, g.owner l ≠ some (.task t)) (n : Nat) :
    propagatePriority g q (n + 1) l = (.ok (), q) := by
  unfold propagatePriority
  cases howner : g.owner l with
  | none => rfl
  | some a =>
    cases a with
    | plain i => rfl
    | task t => exact absurd howner (hfree t)

theorem propagatePriority_keyed (h : g.Tracked) (hq : q.Represents) :
    ∀ {n l : Nat}, Reaches g q l → g.propagatePriority q.contains g.depth n l = true →
      (∀ e ∈ q.priorityItems.toList, ¬ g.Inherits l e.task → g.priorities e.task = some e.priority) →
      ∃ q', propagatePriority g q n l = (.ok (), q') ∧ q'.Represents ∧ q'.Keyed g.priorities := by
  intro n
  induction n with
  | zero =>
    intro l _ hreturns
    cases hreturns
  | succ n ih =>
    intro l hreach hreturns hrest
    by_cases hfree : ∀ t, g.owner l ≠ some (.task t)
    · exact ⟨q, propagatePriority_free hfree n, hq, fun e he => hrest e he (not_inherits hfree e.task)⟩
    · simp only [not_forall, not_not] at hfree
      obtain ⟨t, howner⟩ := hfree
      rw [Graph.propagatePriority, howner] at hreturns
      rw [propagatePriority, howner]
      dsimp only at hreturns ⊢
      by_cases hin : q.contains t = true
      · -- the task is in the queue: nobody else inherits
        rw [if_pos hin]
        obtain ⟨p, hp⟩ := h.ok.priorities_some t
        have hothers : ∀ e ∈ q.priorityItems.toList, e.task ≠ t →
            g.priorities e.task = some e.priority := by
          intro e he hne
          refine hrest e he fun hinherits => ?_
          obtain ⟨t₀, howner₀, hcases⟩ := hinherits.cases
          rw [howner] at howner₀
          cases howner₀
          rcases hcases with heq | ⟨l', hwaits, habove⟩
          · exact hne heq
          · have hlast := hreach t ⟨l, .refl, howner⟩ hin l' hwaits
            exact not_inherits hlast e.task habove
        obtain ⟨hok, hkeyed⟩ := PriorityQueue.Keyed.rekey hq hp hothers
        exact ⟨_, Prod.ext hok rfl, hq.onModified t, hkeyed⟩
      · rw [if_neg hin] at hreturns ⊢
        -- the items are not the task's
        have hitem : ∀ e ∈ q.priorityItems.toList, e.task ≠ t := by
          rintro e he rfl
          exact hin (hq.contains_iff.2 (.inr (PriorityQueue.mem_normal he)))
        cases hwaits : g.waitingOn t with
        | none =>
          refine ⟨q, rfl, hq, fun e he => hrest e he fun hinherits => ?_⟩
          obtain ⟨t₀, howner₀, hcases⟩ := hinherits.cases
          rw [howner] at howner₀
          cases howner₀
          rcases hcases with heq | ⟨l', hsome, -⟩
          · exact hitem e he heq
          · rw [hwaits] at hsome
            cases hsome
        | some l' =>
          rw [hwaits] at hreturns
          refine ih ?_ hreturns ?_
          · rintro t' ⟨x, hpath, hx⟩
            exact hreach t' ⟨x, hpath.tail ⟨t, howner, rfl, hwaits⟩, hx⟩
          · intro e he hnot
            refine hrest e he fun hinherits => ?_
            obtain ⟨t₀, howner₀, hcases⟩ := hinherits.cases
            rw [howner] at howner₀
            cases howner₀
            rcases hcases with heq | ⟨l'', hsome, habove⟩
            · exact hitem e he heq
            · rw [hwaits] at hsome
              cases hsome
              exact hnot habove

theorem propagatePriority_park (w : Wait) (n : Nat) : propagatePriority (g.park w) q n =
    propagatePriority g q n := by
  induction n with
  | zero => rfl
  | succ n ih =>
    funext l
    rw [propagatePriority, propagatePriority, ih, Graph.priorities_park]
    rfl

omit [LinearOrder κ] [Zero κ] in
theorem waitingOn_enter {t : Nat} (hne : Agent.task t ≠ a) : (g.enter a l).waitingOn t = g.waitingOn t := by
  cases a with
  | plain n => rfl
  | task t₀ =>
    apply update_of_ne
    rintro rfl
    exact hne rfl

omit [LinearOrder κ] [Zero κ] in
theorem owner_enter : (g.enter a l).owner = g.owner := by
  cases a <;> rfl

theorem inherits_enter (h : g.Tracked) (hcycle : ∀ t, l ∈ g.owned t →
    ¬ Relation.ReflTransGen g.Child (.task t) a)
    {t : Nat} (hinherits : (g.enter a l).Inherits l t) : g.Inherits l t := by
  obtain ⟨l', hpath, howner⟩ := hinherits
  rw [owner_enter] at howner
  refine ⟨l', ?_, howner⟩
  clear howner
  induction hpath using Relation.ReflTransGen.head_induction_on with
  | refl => exact .refl
  | head hstep _ ih =>
    obtain ⟨u, hu, -, hwaits⟩ := hstep
    rw [owner_enter] at hu
    by_cases hsame : Agent.task u = a
    · -- the owner that waits is the new waiter: it has closed a cycle
      subst hsame
      rcases Relation.reflTransGen_iff_eq_or_transGen.1 ih with rfl | hchain
      · exact absurd .refl (hcycle u (h.ok.owner _ u hu))
      · obtain ⟨_, -, t₀, howner₀, -⟩ := Relation.TransGen.tail'_iff.1 hchain
        have hchild := h.ok.child_of_next hchain howner₀ hu
        exact absurd hchild.to_reflTransGen (hcycle t₀ (h.ok.owner l t₀ howner₀))
    · rw [waitingOn_enter hsame] at hwaits
      exact .head ⟨u, hu, rfl, hwaits⟩ ih

omit [LinearOrder κ] [Zero κ] in
theorem inherits_leaveWait {i t : Nat} {w : Wait} (hidle : (g.leaveWait i w).waiting w.agent = none)
    (hinherits : (g.leaveWait i w).Inherits l t) : g.Inherits l t := by
  obtain ⟨l', hpath, howner⟩ := hinherits
  have hsame := (Graph.leaveWait_fields g i w).2.2.1
  rw [hsame] at howner
  refine ⟨l', Relation.ReflTransGen.mono ?_ _ _ hpath, howner⟩
  rintro x y ⟨u, hu, hnot, hwaits⟩
  rw [hsame] at hu
  have hne : w.agent ≠ .task u := by
    intro heq
    rw [heq] at hidle
    rw [show (g.leaveWait i w).waitingOn u = none from hidle] at hwaits
    cases hwaits
  rw [Graph.waitingOn_leaveWait hne] at hwaits
  exact ⟨u, hu, hnot, hwaits⟩

omit [Zero κ] in
theorem not_runs {e : HeapEntry κ} (hq : q.Represents) (he : e ∈ q.priorityItems.toList)
    (hruns : State.runs ⟨g, q⟩ a = true) : Agent.task e.task ≠ a := by
  rintro rfl
  have hin := hq.contains_iff.2 (.inr (PriorityQueue.mem_normal he))
  simp [State.runs, hin] at hruns

theorem Inv.setPriority (h : Inv s) {t : Nat} (p : κ) (hnot : ∀ l, .task t ∉ s.graph.waiterTasks l) :
    Inv (s.setPriority t p) := by
  have htracked := h.tracked.setPriority (update s.graph.priority t p)
  have halike : Graph.Alike (fun u => u ≠ .task t) s.graph
      { s.graph with priority := update s.graph.priority t p } := by
    refine Graph.alike_agent rfl ?_ hnot
    intro u hu
    refine ⟨update_of_ne ?_ _ _, rfl⟩
    rintro rfl
    exact hu rfl
  obtain ⟨k, hk⟩ := htracked.ok.priorities_some t
  have hkeyed := PriorityQueue.Keyed.rekey h.queue hk fun e he hne => by
    rw [h.tracked.ok.priorities_eq htracked.ok halike (by simpa using hne)]
    exact h.keyed e he
  exact ⟨htracked, h.queue.onModified t, hkeyed.2⟩

theorem Inv.take (h : Inv ⟨g, q⟩) (hruns : State.runs ⟨g, q⟩ a = true) (hidle : ∀ w ∈ g.waits, w.agent ≠ a)
    (hfree : ∀ t, g.owner l ≠ some (.task t)) : Inv ⟨g.take a l, q⟩ where
  tracked := h.tracked.take hidle hfree
  queue := h.queue
  keyed := by
    have halike : Graph.Alike (fun u => u ≠ a) g (g.take a l) := by
      refine Graph.alike_agent rfl ?_ (h.tracked.ok.not_waiter hidle)
      intro t ht
      refine ⟨rfl, ?_⟩
      cases a with
      | plain n => rfl
      | task t₀ =>
        apply update_of_ne
        rintro rfl
        exact ht rfl
    intro e he
    rw [h.tracked.ok.priorities_eq (h.tracked.take hidle hfree).ok halike (not_runs h.queue he hruns)]
    exact h.keyed e he

theorem Inv.propagate {g' : Graph κ} (h : Inv ⟨g, q⟩) (htracked : g'.Tracked)
    (hpriority : g'.priority = g.priority)
    (howned : g'.owned = g.owned) (hwaiters : ∀ l', l' ≠ l → g'.waiterTasks l' = g.waiterTasks l')
    (hreach : Reaches g' q l) :
    ∃ q', propagatePriority g' q g'.depth l = (.ok (), q') ∧ Inv ⟨g', q'⟩ := by
  have halike := htracked.alike_waiters hpriority howned hwaiters
  have hreturns := htracked.ok.propagate_returns q.contains l
  obtain ⟨q', hresult, hqueue, hkeyed⟩ :=
    propagatePriority_keyed htracked h.queue hreach hreturns fun e he hnot => by
    rw [h.tracked.ok.priorities_eq htracked.ok halike (by rintro t heq; cases heq; exact hnot)]
    exact h.keyed e he
  exact ⟨q', hresult, htracked, hqueue, hkeyed⟩

omit [LinearOrder κ] [Zero κ] in
theorem idle_waits (hidle : s.idle a = true) : ∀ w ∈ s.graph.waits, w.agent ≠ a := by
  simp only [State.idle, Bool.and_eq_true, List.all_eq_true, decide_eq_true_eq] at hidle
  exact hidle.2

omit [LinearOrder κ] [Zero κ] in
theorem idle_runs (hidle : s.idle a = true) : s.runs a = true := by
  unfold State.idle at hidle
  exact (Bool.and_eq_true_iff.1 hidle).1

theorem Inv.acquire (h : Inv s) (hidle : s.idle a = true) (horderly : Orderly s (.acquire a l)) :
    Inv (s.acquire a l) := by
  have hwaits := idle_waits hidle
  have hruns := idle_runs hidle
  unfold State.acquire
  split
  · rename_i hlocked
    refine Inv.take h hruns hwaits fun t howner => ?_
    rw [h.tracked.taken l t howner] at hlocked
    cases hlocked
  · rename_i hlocked
    obtain ⟨hcycle, hreach⟩ := horderly (by simpa using hlocked)
    have htracked := h.tracked.park hwaits hcycle
    dsimp only
    generalize hw : Wait.mk a l false (a ∈ s.graph.waiterTasks l) (s.graph.waiting a) = w at htracked ⊢
    have hreach' : Reaches ((s.graph.enter a l).park w) s.queue l := by
      intro t hinherits hin l' hwaiting t' howner
      have hne : Agent.task t ≠ a := by
        rintro rfl
        simp [State.runs, hin] at hruns
      rw [show ((s.graph.enter a l).park w).waitingOn t = _ from waitingOn_enter hne] at hwaiting
      rw [show ((s.graph.enter a l).park w).owner = _ from owner_enter] at howner
      exact hreach t (inherits_enter h.tracked hcycle hinherits) hin l' hwaiting t' howner
    have hwaiters : ∀ l', l' ≠ l → ((s.graph.enter a l).park w).waiterTasks l' = s.graph.waiterTasks l' :=
      fun l' hne => update_of_ne hne _ _
    have hdepth : ((s.graph.enter a l).park w).depth = (s.graph.enter a l).depth := rfl
    obtain ⟨q, hresult, hinv⟩ :=
      Inv.propagate h htracked (by cases a <;> rfl) (by cases a <;> rfl) hwaiters hreach'
    rw [propagatePriority_park, hdepth] at hresult
    rw [hresult]
    exact hinv

omit [LinearOrder κ] [Zero κ] in
theorem waiters_leaveWait (i : Nat) (w : Wait) :
    ∀ l, l ≠ w.lock → (g.leaveWait i w).waiterTasks l = g.waiterTasks l :=
  fun _ hne => update_of_ne hne _ _

theorem Inv.resume (h : Inv s) {i : Nat} {w : Wait} (hw : s.graph.waits[i]? = some w)
    (hruns : s.runs w.agent = true)
    (hfree : ∀ t, s.graph.owner w.lock ≠ some (.task t)) : Inv (s.resume i w) := by
  unfold State.resume
  dsimp only
  generalize hg : { s.graph with locked := update s.graph.locked w.lock true } = g
  have hlocked : Inv ⟨g, s.queue⟩ := by
    have htracked := h.tracked.setLocked w.lock
    have halike : Graph.Alike (fun _ => True) s.graph
        { s.graph with locked := update s.graph.locked w.lock true } :=
      fun _ _ => ⟨rfl, rfl, fun _ _ => ⟨rfl, fun _ _ => trivial⟩⟩
    subst hg
    refine ⟨htracked, h.queue, fun e he => ?_⟩
    rw [h.tracked.ok.priorities_eq htracked.ok halike trivial]
    exact h.keyed e he
  have hwaits : g.waits[i]? = some w := by
    subst hg
    exact hw
  have hout : ∀ t, (g.leaveWait i w).owner w.lock ≠ some (.task t) := by
    intro t
    rw [(Graph.leaveWait_fields g i w).2.2.1]
    subst hg
    exact hfree t
  -- nobody inherits through a lock that is free
  have hreach : Reaches (g.leaveWait i w) s.queue w.lock :=
    fun t hinherits => absurd hinherits (not_inherits hout t)
  obtain ⟨hpriority, howned, -, -, -⟩ := Graph.leaveWait_fields g i w
  obtain ⟨q, hresult, hinv⟩ := Inv.propagate hlocked (hlocked.tracked.leaveWait hwaits) hpriority howned
    (waiters_leaveWait i w) hreach
  have hdepth : (g.leaveWait i w).depth = (g.leaveWait i w).calls + 1 + 1 := rfl
  rw [hdepth, propagatePriority_free hout] at hresult
  cases hresult
  have htaken := Inv.take hinv hruns (hlocked.tracked.ok.leaveWait hwaits).2 hout
  split
  · exact htaken
  · rw [hdepth, propagatePriority_free hout]
    exact htaken

theorem Inv.throw (h : Inv s) {i : Nat} {w : Wait} (hw : s.graph.waits[i]? = some w)
    (hreach : Reaches s.graph s.queue w.lock) : Inv (s.throw i w) := by
  have htracked := h.tracked.leaveWait hw
  obtain ⟨hok, hidle⟩ := h.tracked.ok.leaveWait hw
  obtain ⟨hpriority, howned, howner, -, hlocked⟩ := Graph.leaveWait_fields s.graph i w
  have hreach' : Reaches (s.graph.leaveWait i w) s.queue w.lock := by
    intro t hinherits hin l' hwaiting t' hother
    rw [howner] at hother
    have hnone := hok.not_waiting hidle
    have hne : w.agent ≠ .task t := by
      intro heq
      rw [heq] at hnone
      rw [show (s.graph.leaveWait i w).waitingOn t = none from hnone] at hwaiting
      cases hwaiting
    rw [Graph.waitingOn_leaveWait hne] at hwaiting
    exact hreach t (inherits_leaveWait hnone hinherits) hin l' hwaiting t' hother
  obtain ⟨q, hresult, hinv⟩ := Inv.propagate h htracked hpriority howned (waiters_leaveWait i w) hreach'
  unfold State.throw
  dsimp only
  split
  · rw [hresult]
    exact hinv
  · rename_i hnot
    -- the lock is free, and there is nothing to pass on
    have hfree : ∀ t, (s.graph.leaveWait i w).owner w.lock ≠ some (.task t) := by
      intro t ht
      refine hnot ⟨htracked.taken w.lock t ht, fun heq => ?_⟩
      rw [ht] at heq
      have hagent : w.agent = .task t := (Option.some.inj heq).symm
      rw [howner] at ht
      have hwaiter := (h.tracked.ok.waiter (.task t) w.lock).2 ⟨w, mem_of_getElem? hw, hagent, rfl⟩
      exact h.tracked.ok.acyclic _ (.single ⟨t, w.lock, rfl, h.tracked.ok.owner w.lock t ht, hwaiter⟩)
    have hdepth : (s.graph.leaveWait i w).depth = (s.graph.leaveWait i w).calls + 1 + 1 := rfl
    rw [hdepth, propagatePriority_free hfree] at hresult
    cases hresult
    exact hinv

theorem Inv.release (h : Inv s) (hidle : s.idle a = true) (howner : s.graph.owner l = some a) :
    Inv (s.release a l) := by
  have hwaits := idle_waits hidle
  have htracked := h.tracked.release howner
  have halike : Graph.Alike (fun u => u ≠ a) s.graph (s.graph.release a l) := by
    refine Graph.alike_agent rfl ?_ (h.tracked.ok.not_waiter hwaits)
    intro t ht
    refine ⟨rfl, ?_⟩
    cases a with
    | plain n => rfl
    | task t₀ =>
      apply update_of_ne
      rintro rfl
      exact ht rfl
  have hothers : ∀ e ∈ s.queue.priorityItems.toList, Agent.task e.task ≠ a →
      (s.graph.release a l).priorities e.task = some e.priority := by
    intro e he hne
    rw [h.tracked.ok.priorities_eq htracked.ok halike hne]
    exact h.keyed e he
  cases a with
  | plain n => exact ⟨htracked, h.queue, fun e he => hothers e he nofun⟩
  | task t =>
    obtain ⟨k, hk⟩ := htracked.ok.priorities_some t
    have hkeyed := PriorityQueue.Keyed.rekey h.queue hk fun e he hne => hothers e he (by simpa using hne)
    exact ⟨htracked, h.queue.onModified t, hkeyed.2⟩

/-- A change of priority reaches the keys of the tasks that wait behind it. -/
theorem Inv.step {e : Event κ} (h : Inv s) (horderly : Orderly s e)
    (hs : PriorityKeys.step s e = some s') : Inv s' := by
  cases e with
  | setPriority t p =>
    cases hs
    exact h.setPriority p horderly
  | queue op =>
    cases hs
    exact ⟨h.tracked, h.queue.perform op, h.keyed.perform h.queue op⟩
  | acquire a l =>
    simp only [PriorityKeys.step] at hs
    split at hs <;> cases hs
    rename_i hidle
    exact h.acquire hidle horderly
  | resume i =>
    simp only [PriorityKeys.step] at hs
    split at hs
    · rename_i w hw
      split at hs <;> cases hs
      rename_i hgoes
      exact h.resume hw (Bool.and_eq_true_iff.1 hgoes).2 (horderly w hw)
    · cases hs
  | throw i =>
    simp only [PriorityKeys.step] at hs
    split at hs
    · rename_i w hw
      split at hs <;> cases hs
      exact h.throw hw (horderly w hw)
    · cases hs
  | release a l =>
    simp only [PriorityKeys.step] at hs
    split at hs <;> cases hs
    rename_i howns
    exact h.release howns.1 howns.2.2

theorem Inv.start (priority : Nat → κ) : Inv (start priority) where
  tracked :=
    { ok :=
        { acyclic := by
            intro x hcycle
            rcases Relation.TransGen.tail'_iff.1 hcycle with ⟨_, -, t, l, -, hl, -⟩
            cases hl
          waiter := by simp [PriorityKeys.start]
          waiting := nofun
          single := nodup_nil
          fresh := nofun
          owner := nofun
          calls := le_refl 0 }
      sole := nofun
      parked := nofun
      taken := nofun }
  queue :=
    { lane := nodup_nil
      laneSame := by simp [PriorityKeys.start]
      normal := nodup_nil
      normalSame := by simp [PriorityKeys.start, PriorityQueue.normal]
      apart := nofun
      ordered := nofun
      sequences := nodup_nil
      counted := nofun }
  keyed := nofun

/-- In every orderly run the stored priorities are those of now. -/
theorem priorities_fresh (priority : Nat → κ) (run : List (Event κ))
    (horderly : Along step Orderly (start priority) run) : Always step Fresh (start priority) run :=
  always_of_along (fun _ h => h.fresh) (fun _ _ _ h hok hs => Inv.step h hok hs) run _
    (Inv.start priority) horderly

def basePriority (t : Nat) : Int :=
  if t = 0 then 5 else if t = 1 then 1 else if t = 2 then 3 else 0

/-- Task 1 waits for the lock of task 0, which is in the heap. -/
theorem priorities_fresh_inherited : Played step (Always step Fresh) (start basePriority)
    [.acquire (.task 0) 7, .queue (.add 0 none), .acquire (.task 1) 7] := by
  refine ⟨priorities_fresh basePriority _ ?_, rfl⟩
  have hcycle : ∀ t, 7 ∈ ((start basePriority).graph.take (.task 0) 7).owned t →
      ¬ Relation.ReflTransGen ((start basePriority).graph.take (.task 0) 7).Child (.task t) (.task 1) := by
    intro t ht hpath
    rcases Relation.ReflTransGen.cases_head hpath with heq | ⟨_, ⟨u, l, -, -, hwaits⟩, -⟩
    · cases heq
      cases ht
    · cases hwaits
  have hfirst : Orderly (start basePriority) (.acquire (.task 0) 7) := nofun
  have hwaits : ∀ q, Orderly ⟨(start basePriority).graph.take (.task 0) 7, q⟩ (.acquire (.task 1) 7) := by
    intro q _
    refine ⟨hcycle, fun t _ _ l' hwaiting => ?_⟩
    cases hwaiting
  exact And.intro hfirst (And.intro trivial (And.intro (hwaits _) trivial))

/-- The task at the front of the immediate lane is popped before one of higher priority.  And stored
priorities stay behind: where the priority of a task that waits is set; where a task has taken the
lock before the waiter that was woken, which then takes it as well; and where a waiter is in the
queue, as when it is cancelled, and its own lock gets a waiter. -/
theorem pops_another :
    ¬ Always step (fun s => s.queue.Keyed s.graph.priorities ∧ PopsLeast s) (start basePriority)
        [.queue (.add 0 (some 0)), .queue (.add 1 none)] ∧
      ¬ Always step (fun s => s.queue.Keyed s.graph.priorities) (start basePriority)
        [.acquire (.task 0) 7, .queue (.add 0 none), .acquire (.task 1) 7, .setPriority 1 (-2)] ∧
      ¬ Always step (fun s => s.queue.Keyed s.graph.priorities) (start basePriority)
        [.acquire (.task 0) 7, .acquire (.task 1) 7, .release (.task 0) 7, .acquire (.task 2) 7, .resume 0,
          .queue (.add 2 none), .acquire (.task 3) 7] ∧
      ¬ Always step (fun s => s.queue.Keyed s.graph.priorities) (start basePriority)
        [.acquire (.task 0) 7, .queue (.add 0 none), .acquire (.task 1) 8,
          .acquire (.task 1) 7, .queue (.add 1 none),
          .acquire (.task 3) 8] := by
  refine ⟨fun h => ?_, by decide +kernel, by decide +kernel, by decide +kernel⟩
  have hreached : (exec step (start basePriority) [.queue (.add 0 (some 0)), .queue (.add 1 none)]).map
      (fun s => (s.queue.popNext.1.toOption, s.graph.priorities 0,
        s.graph.priorities 1, s.queue.contains 1)) =
        some (some 0, some 5, some 1, true) := by
    decide +kernel
  obtain ⟨s, hs, heq⟩ := map_eq_some_iff.1 hreached
  obtain ⟨hpop, hrest⟩ := Prod.mk.inj heq
  obtain ⟨hzero, hrest⟩ := Prod.mk.inj hrest
  obtain ⟨hone, hin⟩ := Prod.mk.inj hrest
  have hok : s.queue.popNext.1 = .ok 0 := by
    cases hresult : s.queue.popNext.1 with
    | error e =>
      rw [hresult] at hpop
      cases hpop
    | ok t =>
      rw [hresult] at hpop
      cases hpop
      rfl
  obtain ⟨p, hp, hleast⟩ := (h.exec hs).2 0 hok
  obtain ⟨p', hp', hle⟩ := hleast 1 hin
  rw [hzero] at hp
  rw [hone] at hp'
  cases hp
  cases hp'
  exact absurd hle (by decide)

end PriorityKeys
end Locks
end Pytealet
