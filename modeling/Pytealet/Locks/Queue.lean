import Pytealet.Lib.Transition
import Pytealet.Lib.WaitQueue
import Pytealet.Lib.Heapq
import Mathlib.Logic.Function.Basic

/-!
# Queue — `Queue`, `PriorityQueue` and `LifoQueue` of `locks.py`

The state is one queue together with the tealets that use it.  As for the locks, a waiting call has
an `Event` of its own: the deques `_getters` and `_putters` are the `parked` parts of two wait
queues, and a tealet whose event is set but which has not run yet is `woken`.  A third wait queue
holds the tealets inside `sjoin`, which all wait for the one event `_finished`.

Unlike `Lock`, a woken waiter tests the queue again and parks again when the slot is gone, and a
waiter that is thrown out after its wake hands the wake on (`_abandon_waiter`).  `sput` and `put`,
`sget` and `get`, `sjoin` and `join` have the same bodies up to `await`.

The items of a `PriorityQueue` need not all be comparable.  A comparison inside `heapq` that raises
leaves the call with `TypeError`, when `heappush` has already appended the item, and when `heappop`
has already taken the one that it would return.
-/

namespace Pytealet.Locks.Queue

open Lib Lib.Transition Function List Option

/-! ## The three stores -/

/-- The three queue classes.  The items of a `PriorityQueue` are ordered by `key`; the comparison of
two items that are not `comparable` raises. -/
inductive Kind (α κ : Type*)
  | queue
  | lifoQueue
  | priorityQueue (key : α → κ) (comparable : α → α → Bool)

variable {α κ τ : Type*} [LinearOrder κ]

/-- `_put` of the class; an error is the store that the `TypeError` leaves. -/
def Kind.put : Kind α κ → List α → α → Except (List α) (List α)
  | .queue, items, x => .ok (items ++ [x])
  | .lifoQueue, items, x => .ok (items ++ [x])
  | .priorityQueue key comparable, items, x =>
    match Heapq.Raising.heappush key comparable items.toArray x with
    | .ok heap => .ok heap.toList
    | .error heap => .error heap.toList

/-- `_get` of the class; `none` is the `IndexError` of an empty store. -/
def Kind.get : Kind α κ → List α → Option (Except (List α) (α × List α))
  | .queue, [] => none
  | .queue, x :: rest => some (.ok (x, rest))
  | .lifoQueue, items => items.getLast?.map fun x => .ok (x, items.dropLast)
  | .priorityQueue key comparable, items =>
    (Heapq.Raising.heappop key comparable items.toArray).map fun
      | .ok r => .ok (r.1, r.2.toList)
      | .error heap => .error heap.toList

/-- Any two items of the class can be compared, as far as it compares them. -/
def Kind.Comparable : Kind α κ → Prop
  | .priorityQueue _ comparable => ∀ x y, comparable x y = true
  | _ => True

/-- The representation invariant of the store: a `PriorityQueue` is a heap. -/
def Kind.Ok : Kind α κ → List α → Prop
  | .queue, _ => True
  | .lifoQueue, _ => True
  | .priorityQueue key _, items => Heapq.Ordered key items.toArray

/-- `x` is the item which a get has to return: the first, the last or a least one. -/
def Kind.Serves : Kind α κ → List α → α → Prop
  | .queue, items, x => items.head? = some x
  | .lifoQueue, items, x => items.getLast? = some x
  | .priorityQueue key _, items, x => x ∈ items ∧ ∀ y ∈ items, key x ≤ key y

variable {k : Kind α κ}

theorem Kind.put_cases (k : Kind α κ) (items : List α) (x : α) :
    (∃ items', k.put items x = .ok items' ∧ items'.Perm (x :: items) ∧ (k.Ok items → k.Ok items')) ∨
      ∃ left, k.put items x = .error left ∧ ¬ k.Comparable := by
  cases k with
  | queue => exact .inl ⟨_, rfl, perm_append_singleton x items, fun _ => trivial⟩
  | lifoQueue => exact .inl ⟨_, rfl, perm_append_singleton x items, fun _ => trivial⟩
  | priorityQueue key comparable =>
    rcases Heapq.Raising.heappush_cases key comparable items.toArray x with
      hpush | ⟨left, y, z, hpush, hyz⟩
    · refine .inl ⟨(Heapq.heappush key items.toArray x).toList,
        by simp only [Kind.put, hpush], ?_, fun h => ?_⟩
      · have hperm := (Heapq.heappush_perm key items.toArray x).toList
        simp only [Array.toList_push] at hperm
        exact hperm.trans (perm_append_singleton x items)
      · simpa [Kind.Ok] using Heapq.heappush_ordered h x
    · refine .inr ⟨left.toList, by simp only [Kind.put, hpush], fun hall => ?_⟩
      exact Bool.false_ne_true (hyz.symm.trans (hall y z))

theorem Kind.ok_nil (k : Kind α κ) : k.Ok [] := by
  cases k with
  | queue => trivial
  | lifoQueue => trivial
  | priorityQueue key comparable =>
    intro p i hp
    simp at hp

theorem Kind.heappop_get (key : α → κ) (comparable : α → α → Bool) (items : List α) :
    (Kind.priorityQueue key comparable).get items =
        (Heapq.heappop key items.toArray).map (fun r => .ok (r.1, r.2.toList)) ∨
      ∃ left, (Kind.priorityQueue key comparable).get items = some (.error left) ∧
        ¬ (Kind.priorityQueue key comparable).Comparable := by
  rcases Heapq.Raising.heappop_cases key comparable items.toArray with
    hpop | ⟨left, y, z, hpop, hyz⟩
  · exact .inl (by simp only [Kind.get, hpop, Option.map_map, comp_def])
  · refine .inr ⟨left.toList, by simp only [Kind.get, hpop, map_some], fun hall => ?_⟩
    exact Bool.false_ne_true (hyz.symm.trans (hall y z))

theorem Kind.get_nil (k : Kind α κ) : k.get [] = none := by
  cases k <;> rfl

theorem Kind.ne_nil_of_get {items : List α} {r : Except (List α) (α × List α)} (h : k.get items = some r) :
    items ≠ [] := by
  rintro rfl
  simp [k.get_nil] at h

theorem Kind.get_eq_none {items : List α} (h : k.get items = none) : items = [] := by
  cases k with
  | queue =>
    cases items with
    | nil => rfl
    | cons x rest => cases h
  | lifoQueue => simpa [Kind.get] using h
  | priorityQueue key comparable =>
    rcases Kind.heappop_get key comparable items with hget | ⟨left, hget, -⟩
    · simpa [hget, Heapq.heappop_eq_none_iff] using h
    · simp [hget] at h

theorem Kind.not_comparable_of_get {items left : List α} (h : k.get items = some (.error left)) :
    ¬ k.Comparable := by
  cases k with
  | queue => cases items <;> cases h
  | lifoQueue => simp [Kind.get] at h
  | priorityQueue key comparable =>
    rcases Kind.heappop_get key comparable items with hget | ⟨-, -, hall⟩
    · simp [hget] at h
    · exact hall

theorem Kind.Ok.get {items rest : List α} {x : α} (h : k.Ok items)
    (hget : k.get items = some (.ok (x, rest))) :
    k.Ok rest ∧ (x :: rest).Perm items ∧ k.Serves items x := by
  cases k with
  | queue =>
    cases items with
    | nil => simp [Kind.get] at hget
    | cons y ys =>
      simp only [Kind.get, Option.some.injEq, Except.ok.injEq, Prod.mk.injEq] at hget
      rcases hget with ⟨rfl, rfl⟩
      exact ⟨trivial, .refl _, rfl⟩
  | lifoQueue =>
    simp only [Kind.get, map_eq_some_iff, Except.ok.injEq, Prod.mk.injEq] at hget
    rcases hget with ⟨y, hlast, rfl, rfl⟩
    refine ⟨trivial, ?_, hlast⟩
    have hitems : items.dropLast ++ [y] = items := dropLast_append_getLast? y hlast
    calc
      (y :: items.dropLast).Perm (items.dropLast ++ [y]) :=
        (perm_append_singleton y items.dropLast).symm
      _ = items := hitems
  | priorityQueue key comparable =>
    rcases Kind.heappop_get key comparable items with heq | ⟨left, heq, -⟩
    · simp only [heq, map_eq_some_iff, Except.ok.injEq, Prod.mk.injEq] at hget
      rcases hget with ⟨⟨y, heap⟩, hpop, rfl, rfl⟩
      rcases Heapq.heappop_spec h hpop with ⟨hord, hperm, hleast⟩
      have hcons : (y :: heap.toList).Perm items := by
        have hpush := hperm.toList
        simp only [Array.toList_push] at hpush
        exact (perm_append_singleton y heap.toList).symm.trans hpush
      refine ⟨by simpa [Kind.Ok] using hord, hcons, hcons.mem_iff.1 (by simp), ?_⟩
      intro z hz
      exact hleast z (by simpa using hz)
    · simp [heq] at hget

/-! ## The queue and its operations -/

inductive QueueError
  | negativeMaxsize
  | queueFull
  | queueEmpty
  | queueShutDown
  | taskDoneTooManyTimes
  deriving DecidableEq, Repr

/-- The text of the error; the three queue exceptions are raised without one. -/
def QueueError.message : QueueError → String
  | .negativeMaxsize => "maxsize must be >= 0"
  | .taskDoneTooManyTimes => "task_done() called too many times"
  | .queueFull => ""
  | .queueEmpty => ""
  | .queueShutDown => ""

/-- `items` is `_queue`, `finished` the flag of the event `_finished`, `joiners` the tealets that
wait for it.  `arg t` is the item that a suspended `sput` of `t` is to store. -/
structure State (α τ : Type*) where
  maxsize : Nat
  items : List α
  getters : WaitQueue τ
  putters : WaitQueue τ
  joiners : WaitQueue τ
  arg : τ → Option α
  unfinishedTasks : Nat
  isShutdown : Bool
  finished : Bool

def init (maxsize : Nat) : State α τ where
  maxsize := maxsize
  items := []
  getters := .empty
  putters := .empty
  joiners := .empty
  arg := fun _ => none
  unfinishedTasks := 0
  isShutdown := false
  finished := true

/-- `__init__`, which rejects a negative `maxsize`. -/
def new (maxsize : Int) : Except QueueError (State α τ) :=
  if maxsize < 0 then
    .error .negativeMaxsize
  else
    .ok (init maxsize.toNat)

variable {s s' : State α τ}

theorem new_eq_ok_iff {maxsize : Int} :
    new maxsize = .ok s ↔ ∃ n : Nat, maxsize = n ∧ s = init n := by
  unfold new
  constructor
  · intro h
    split at h
    · cases h
    · cases h
      exact ⟨maxsize.toNat, by omega, rfl⟩
  · rintro ⟨n, rfl, rfl⟩
    rw [if_neg (by omega), Int.toNat_natCast]

/-- `full()`. -/
def State.Full (s : State α τ) : Prop :=
  0 < s.maxsize ∧ s.maxsize ≤ s.items.length

instance (s : State α τ) : Decidable s.Full :=
  inferInstanceAs (Decidable (_ ∧ _))

/-- How a call ends: it parks, it returns, or it raises.  `dropped` are the items that
`shutdown(immediate=True)` threw away, `thrown` is a waiting call that ends with the exception
thrown into it, and `typeError` a call in which a comparison raises. -/
inductive Outcome (α : Type*)
  | parked
  | put (x : α)
  | got (x : α)
  | joined
  | taskDone
  | dropped (xs : List α)
  | thrown
  | typeError
  | raised (e : QueueError)
  deriving DecidableEq, Repr

/-- `put_nowait` after `_put` has returned with `items` in the store. -/
def stored (s : State α τ) (items : List α) : State α τ :=
  { s with
    items := items
    unfinishedTasks := s.unfinishedTasks + 1
    finished := false
    getters := s.getters.wakeNext }

def putNowait (k : Kind α κ) (s : State α τ) (x : α) : Outcome α × State α τ :=
  if s.isShutdown then
    (.raised .queueShutDown, s)
  else if s.Full then
    (.raised .queueFull, s)
  else
    match k.put s.items x with
    | .ok items => (.put x, stored s items)
    | .error left => (.typeError, { s with items := left })

/-- `get_nowait` after `_get` has left `rest` in the store. -/
def taken (s : State α τ) (rest : List α) : State α τ :=
  { s with
    items := rest
    putters := s.putters.wakeNext
    -- the last item of a queue that is shut down: the getters that still wait will raise
    getters := if rest = [] ∧ s.isShutdown then s.getters.wakeAll else s.getters }

def getNowait (k : Kind α κ) (s : State α τ) : Outcome α × State α τ :=
  match k.get s.items with
  | none =>
    if s.isShutdown then
      (.raised .queueShutDown, s)
    else
      (.raised .queueEmpty, s)
  | some (.error left) => (.typeError, { s with items := left })
  | some (.ok (x, rest)) => (.got x, taken s rest)

/-- One turn of the loop of `sput`, up to its return or to the switch inside `waiter.swait()`. -/
def sput [DecidableEq τ] (k : Kind α κ) (s : State α τ) (t : τ) (x : α) (h : t ∉ s.putters) :
    Outcome α × State α τ :=
  if s.Full then
    if s.isShutdown then
      (.raised .queueShutDown, s)
    else
      (.parked, { s with putters := s.putters.park t h, arg := update s.arg t (some x) })
  else
    putNowait k s x

/-- One turn of the loop of `sget`. -/
def sget (k : Kind α κ) (s : State α τ) (t : τ) (h : t ∉ s.getters) : Outcome α × State α τ :=
  if s.items = [] then
    if s.isShutdown then
      (.raised .queueShutDown, s)
    else
      (.parked, { s with getters := s.getters.park t h })
  else
    getNowait k s

/-- One turn of the loop of `sjoin`.  While `_finished` is set, `swait` returns at once; the loop
would then spin if tasks were unfinished, which is `none` here. -/
def sjoin (s : State α τ) (t : τ) (h : t ∉ s.joiners) : Option (Outcome α × State α τ) :=
  if s.unfinishedTasks = 0 then
    some (.joined, s)
  else if s.finished then
    none
  else
    some (.parked, { s with joiners := s.joiners.park t h })

/-- `_finished.set()`. -/
def setFinished (s : State α τ) : State α τ :=
  { s with finished := true, joiners := s.joiners.wakeAll }

def taskDone (s : State α τ) : Outcome α × State α τ :=
  if s.unfinishedTasks = 0 then
    (.raised .taskDoneTooManyTimes, s)
  else if s.unfinishedTasks = 1 then
    (.taskDone, setFinished { s with unfinishedTasks := 0 })
  else
    (.taskDone, { s with unfinishedTasks := s.unfinishedTasks - 1 })

/-- The loop of `shutdown(immediate=True)`: no `_get` has raised, the dropped items, what is left of
the store, and the unfinished count. -/
def drain (k : Kind α κ) : Nat → List α → Nat → Bool × List α × List α × Nat
  | 0, items, unfinished => (true, [], items, unfinished)
  | fuel + 1, items, unfinished =>
    match k.get items with
    | none => (true, [], items, unfinished)
    | some (.error left) => (false, [], left, unfinished)
    | some (.ok (x, rest)) =>
      -- every dropped item counts as done, but the count does not go below zero
      let r := drain k fuel rest (unfinished - 1)
      (r.1, x :: r.2.1, r.2.2)

/-- `_wakeup_all(self._getters)` -/
def wakeGetters (s : State α τ) : State α τ :=
  { s with getters := s.getters.wakeAll }

def shutdown (k : Kind α κ) (s : State α τ) (immediate : Bool) : Outcome α × State α τ :=
  let s₁ := { s with isShutdown := true, putters := s.putters.wakeAll }
  if immediate then
    let r := drain k s.items.length s.items s.unfinishedTasks
    let s₂ := { s₁ with items := r.2.2.1, unfinishedTasks := r.2.2.2 }
    if r.1 then
      (.dropped r.2.1, wakeGetters (if r.2.2.2 = 0 then setFinished s₂ else s₂))
    else
      (.typeError, s₂)
  else
    (.dropped [], wakeGetters s₁)

variable [DecidableEq τ]

/-- `_abandon_waiter` of a waiter that has left the deque: a waiter which was already woken passes
its wake on while the slot is open. -/
def abandonWaiter (waiters : WaitQueue τ) (t : τ) (openSlot : Prop) [Decidable openSlot] :
    WaitQueue τ :=
  if t ∈ waiters.woken ∧ openSlot then (waiters.leave t).wakeNext else waiters.leave t

/-! ## Runs -/

/-- What can happen next.  `put`, `get` and `join` are called by a tealet that is not waiting; the
calls that never wait may come from any tealet or callback. -/
inductive Act (α τ : Type*)
  | put (t : τ) (x : α)
  | get (t : τ)
  | join (t : τ)
  | putNowait (x : α)
  | getNowait
  | taskDone
  | shutdown (immediate : Bool)
  | turn (t : τ)
  | throw (t : τ)
  deriving DecidableEq, Repr

def State.Idle (s : State α τ) (t : τ) : Prop :=
  t ∉ s.getters ∧ t ∉ s.putters ∧ t ∉ s.joiners

instance (s : State α τ) (t : τ) : Decidable (s.Idle t) :=
  inferInstanceAs (Decidable (_ ∧ _ ∧ _))

/-- The getter `t` is back from `swait`. -/
def leaveGetter (s : State α τ) (t : τ) : State α τ :=
  { s with getters := s.getters.leave t }

/-- The putter `t` is back from `swait`, or out of it with an exception. -/
def leavePutter (s : State α τ) (t : τ) : State α τ :=
  { s with putters := s.putters.leave t, arg := update s.arg t none }

def step (k : Kind α κ) (s : State α τ) : Act α τ → Option (Outcome α × State α τ)
  | .put t x =>
    if h : s.Idle t then some (sput k s t x h.2.1) else none
  | .get t =>
    if h : s.Idle t then some (sget k s t h.1) else none
  | .join t =>
    if h : s.Idle t then sjoin s t h.2.2 else none
  | .putNowait x => some (putNowait k s x)
  | .getNowait => some (getNowait k s)
  | .taskDone => some (taskDone s)
  | .shutdown immediate => some (shutdown k s immediate)
  | .turn t =>
    -- a woken waiter tests its loop condition again
    if t ∈ s.getters.woken then
      some (sget k (leaveGetter s t) t WaitQueue.not_mem_leave)
    else if t ∈ s.joiners.woken then
      sjoin { s with joiners := s.joiners.leave t } t WaitQueue.not_mem_leave
    else if t ∈ s.putters.woken then
      match s.arg t with
      | some x => some (sput k (leavePutter s t) t x WaitQueue.not_mem_leave)
      | none => none
    else
      none
  | .throw t =>
    -- `_abandon_waiter` with the test of `sget` and of `sput`
    if t ∈ s.getters then
      some (.thrown, { s with getters := abandonWaiter s.getters t (s.items ≠ []) })
    else if t ∈ s.putters then
      some (.thrown, { leavePutter s t with putters := abandonWaiter s.putters t (¬ s.Full) })
    else if t ∈ s.joiners then
      some (.thrown, { s with joiners := s.joiners.leave t })
    else
      none

/-! ## The moves -/

/-- What a call that takes an item can do. -/
inductive GetEffect (k : Kind α κ) (s : State α τ) : Outcome α → State α τ → Prop
  | refused (e : QueueError) (hi : s.items = []) :
      GetEffect k s (.raised e) s
  | park (t : τ) (ht : t ∉ s.getters) (hi : s.items = []) (hs : s.isShutdown = false) :
      GetEffect k s .parked { s with getters := s.getters.park t ht }
  | failed (left : List α) (hget : k.get s.items = some (.error left)) :
      GetEffect k s .typeError { s with items := left }
  | taken (x : α) (rest : List α) (hget : k.get s.items = some (.ok (x, rest))) :
      GetEffect k s (.got x) (taken s rest)

/-- What a call that stores an item can do. -/
inductive PutEffect (k : Kind α κ) (s : State α τ) : Outcome α → State α τ → Prop
  | refused (e : QueueError) (hs : s.Full ∨ s.isShutdown = true) :
      PutEffect k s (.raised e) s
  | park (t : τ) (x : α) (ht : t ∉ s.putters) (hf : s.Full) (hs : s.isShutdown = false) :
      PutEffect k s .parked
        { s with putters := s.putters.park t ht, arg := update s.arg t (some x) }
  | failed (left : List α) (hk : ¬ k.Comparable) :
      PutEffect k s .typeError { s with items := left }
  | stored (x : α) (items : List α) (hperm : items.Perm (x :: s.items)) (hok : k.Ok s.items → k.Ok items)
      (hput : k.put s.items x = .ok items) (hf : ¬ s.Full) (hs : s.isShutdown = false) :
      PutEffect k s (.put x) (stored s items)

omit [DecidableEq τ] in
theorem getNowait_effect (k : Kind α κ) (s : State α τ) :
    GetEffect k s (getNowait k s).1 (getNowait k s).2 := by
  unfold getNowait
  cases hget : k.get s.items with
  | none =>
    have hi : s.items = [] := Kind.get_eq_none hget
    cases hs : s.isShutdown with
    | true => exact GetEffect.refused _ hi
    | false => exact GetEffect.refused _ hi
  | some r =>
    cases r with
    | error left => exact GetEffect.failed left hget
    | ok r => exact GetEffect.taken r.1 r.2 hget

omit [DecidableEq τ] in
theorem sget_effect (k : Kind α κ) (s : State α τ) (t : τ) (h : t ∉ s.getters) :
    GetEffect k s (sget k s t h).1 (sget k s t h).2 := by
  unfold sget
  by_cases hi : s.items = []
  · rw [if_pos hi]
    by_cases hs : s.isShutdown = true
    · rw [if_pos hs]
      exact GetEffect.refused _ hi
    · rw [if_neg hs]
      exact GetEffect.park t h hi (by simpa using hs)
  · rw [if_neg hi]
    exact getNowait_effect k s

theorem putNowait_effect (k : Kind α κ) (s : State α τ) (x : α) :
    PutEffect k s (putNowait k s x).1 (putNowait k s x).2 := by
  unfold putNowait
  split
  · rename_i hs
    exact PutEffect.refused _ (.inr hs)
  · rename_i hs
    split
    · rename_i hf
      exact PutEffect.refused _ (.inl hf)
    · rename_i hf
      rcases k.put_cases s.items x with ⟨items, hput, hperm, hok⟩ | ⟨left, hput, hk⟩
      · rw [hput]
        exact PutEffect.stored x items hperm hok hput hf (Bool.eq_false_of_not_eq_true hs)
      · rw [hput]
        exact PutEffect.failed left hk

theorem sput_effect (k : Kind α κ) (s : State α τ) (t : τ) (x : α) (h : t ∉ s.putters) :
    PutEffect k s (sput k s t x h).1 (sput k s t x h).2 := by
  unfold sput
  by_cases hf : s.Full
  · rw [if_pos hf]
    by_cases hs : s.isShutdown = true
    · rw [if_pos hs]
      exact PutEffect.refused _ (.inl hf)
    · rw [if_neg hs]
      exact PutEffect.park t x h hf (by simpa using hs)
  · rw [if_neg hf]
    exact putNowait_effect k s x

/-- The moves of the queue.  A waiter that gets its turn first leaves its wait queue and then does
what a fresh call would do; the moves of `sjoin` concern the joiners only. -/
inductive Move (k : Kind α κ) (s : State α τ) : Outcome α → State α τ → Prop
  | get {o : Outcome α} {s' : State α τ} (h : GetEffect k s o s') : Move k s o s'
  | getTurn {o : Outcome α} {s' : State α τ} (t : τ) (ht : t ∈ s.getters.woken)
      (h : GetEffect k (leaveGetter s t) o s') : Move k s o s'
  | put {o : Outcome α} {s' : State α τ} (h : PutEffect k s o s') : Move k s o s'
  | putTurn {o : Outcome α} {s' : State α τ} (t : τ) (ht : t ∈ s.putters.woken)
      (h : PutEffect k (leavePutter s t) o s') : Move k s o s'
  | join (o : Outcome α) (q : WaitQueue τ) (ho : o = .joined ∨ o = .parked ∨ o = .thrown)
      (hq : q.parked ≠ [] → s.joiners.parked ≠ [] ∨ s.unfinishedTasks ≠ 0) :
      Move k s o { s with joiners := q }
  | taskDoneRefused (hu : s.unfinishedTasks = 0) : Move k s (.raised .taskDoneTooManyTimes) s
  | taskDone (u : Nat) (hu : s.unfinishedTasks = u + 1) (h0 : u ≠ 0) :
      Move k s .taskDone { s with unfinishedTasks := u }
  | taskDoneLast (hu : s.unfinishedTasks = 1) :
      Move k s .taskDone (setFinished { s with unfinishedTasks := 0 })
  | shutdown (immediate : Bool) :
      Move k s (Queue.shutdown k s immediate).1 (Queue.shutdown k s immediate).2
  | getThrow (t : τ) (ht : t ∈ s.getters) :
      Move k s .thrown { s with getters := abandonWaiter s.getters t (s.items ≠ []) }
  | putThrow (t : τ) (ht : t ∈ s.putters) :
      Move k s .thrown { leavePutter s t with putters := abandonWaiter s.putters t (¬ s.Full) }

variable {o : Outcome α}

omit [DecidableEq τ] in
theorem sjoin_cases {t : τ} {h : t ∉ s.joiners} (hs : sjoin s t h = some (o, s')) :
    (o = .joined ∧ s' = s) ∨
      (o = .parked ∧ s.unfinishedTasks ≠ 0 ∧ s' = { s with joiners := s.joiners.park t h }) := by
  unfold sjoin at hs
  split at hs
  · simp only [Option.some.injEq, Prod.mk.injEq] at hs
    exact .inl ⟨hs.1.symm, hs.2.symm⟩
  · rename_i hu
    split at hs
    · cases hs
    · simp only [Option.some.injEq, Prod.mk.injEq] at hs
      exact .inr ⟨hs.1.symm, hu, hs.2.symm⟩

theorem taskDone_move (k : Kind α κ) (s : State α τ) : Move k s (taskDone s).1 (taskDone s).2 := by
  unfold taskDone
  split
  · rename_i h0
    exact Move.taskDoneRefused h0
  · rename_i h0
    split
    · rename_i h1
      exact Move.taskDoneLast h1
    · rename_i h1
      exact Move.taskDone _ (by omega) (by omega)

theorem Move.of_step {a : Act α τ} (h : step k s a = some (o, s')) : Move k s o s' := by
  cases a with
  | put t x =>
    simp only [step] at h
    split at h
    · rename_i ht
      have he := sput_effect k s t x ht.2.1
      rw [Option.some.inj h] at he
      exact Move.put he
    · cases h
  | get t =>
    simp only [step] at h
    split at h
    · rename_i ht
      have he := sget_effect k s t ht.1
      rw [Option.some.inj h] at he
      exact Move.get he
    · cases h
  | join t =>
    simp only [step] at h
    split at h
    · rename_i ht
      rcases sjoin_cases h with ⟨rfl, rfl⟩ | ⟨rfl, hu, rfl⟩
      · exact Move.join .joined s'.joiners (.inl rfl) .inl
      · exact Move.join .parked _ (.inr (.inl rfl)) fun _ => .inr hu
    · cases h
  | putNowait x =>
    have he := putNowait_effect k s x
    rw [Option.some.inj h] at he
    exact Move.put he
  | getNowait =>
    have he := getNowait_effect k s
    rw [Option.some.inj h] at he
    exact Move.get he
  | taskDone =>
    have hm := taskDone_move k s
    rwa [Option.some.inj h] at hm
  | shutdown immediate =>
    have hm := Move.shutdown (k := k) (s := s) immediate
    rwa [Option.some.inj h] at hm
  | turn t =>
    simp only [step] at h
    split at h
    · rename_i ht
      have he := sget_effect k (leaveGetter s t) t WaitQueue.not_mem_leave
      rw [Option.some.inj h] at he
      exact Move.getTurn t ht he
    · split at h
      · rcases sjoin_cases h with ⟨rfl, rfl⟩ | ⟨rfl, hu, rfl⟩
        · exact Move.join .joined _ (.inl rfl) fun hq => .inl (WaitQueue.parked_of_leave hq)
        · exact Move.join .parked _ (.inr (.inl rfl)) fun _ => .inr hu
      · split at h
        · rename_i ht
          cases harg : s.arg t with
          | none => simp [harg] at h
          | some x =>
            have he := sput_effect k (leavePutter s t) t x WaitQueue.not_mem_leave
            simp only [harg] at h
            rw [Option.some.inj h] at he
            exact Move.putTurn t ht he
        · cases h
  | throw t =>
    simp only [step] at h
    split at h
    · rename_i ht
      cases h
      exact Move.getThrow t ht
    · split at h
      · rename_i ht
        cases h
        exact Move.putThrow t ht
      · split at h
        · cases h
          exact Move.join .thrown _ (.inr (.inr rfl)) fun hq => .inl (WaitQueue.parked_of_leave hq)
        · cases h

/-! ## The invariant -/

/-- The invariant of a queue.  The wakes cover the stored items for the parked getters, and the
free places for the parked putters, up to `g` and `p`: a waiter that has just left its wait queue is
inside the queue's code with the wake still unused. -/
structure Inv (k : Kind α κ) (g p : Nat) (s : State α τ) : Prop where
  ok : k.Ok s.items
  getters : s.getters.Covers (s.items.length - g)
  putters : s.putters.Covers (s.maxsize - s.items.length - p)
  closed : s.isShutdown = true → s.getters.parked = [] ∧ s.putters.parked = []
  size : 0 < s.maxsize → s.items.length ≤ s.maxsize
  finished : s.unfinishedTasks = 0 ↔ s.finished = true
  joiners : s.joiners.parked ≠ [] → s.unfinishedTasks ≠ 0

omit [DecidableEq τ] in
theorem Inv.init (k : Kind α κ) (maxsize : Nat) : Inv k 0 0 (init maxsize : State α τ) where
  ok := k.ok_nil
  getters := fun h => absurd rfl h
  putters := fun h => absurd rfl h
  closed := by simp [Queue.init]
  size := by simp [Queue.init]
  finished := by simp [Queue.init]
  joiners := fun h => absurd rfl h

omit [DecidableEq τ] in
theorem Inv.get (h : Inv k 1 0 s) (he : GetEffect k s o s') (ho : o ≠ .typeError) : Inv k 0 0 s' := by
  cases he with
  | failed left hget => exact absurd rfl ho
  | refused e hi => exact { h with getters := by simpa [hi] using WaitQueue.covers_zero }
  | park t ht hi hs =>
    refine { h with getters := ?_, closed := ?_ }
    · simpa [hi] using WaitQueue.covers_zero
    · intro hs'
      simp [hs] at hs'
  | taken x rest hget =>
    rcases h.ok.get hget with ⟨hok, hperm, -⟩
    have hlen : rest.length + 1 = s.items.length := by simpa using hperm.length_eq
    -- one item fewer: the caller's wake was for it, so the other wakes cover the rest
    refine ⟨hok, ?_, ?_, ?_, ?_, h.finished, h.joiners⟩
    · simp only [taken]
      split
      · exact WaitQueue.covers_wakeAll
      · exact h.getters.mono (by omega)
    · -- the place that the item leaves is covered by the wake of one putter
      refine h.putters.wakeNext.mono ?_
      simp only [taken]
      omega
    · intro hs
      rcases h.closed hs with ⟨hg, hp⟩
      refine ⟨?_, by simp [taken, hp]⟩
      simp only [taken]
      split
      · rfl
      · exact hg
    · intro hm
      have hle := h.size hm
      simp only [taken]
      omega

theorem Inv.put (h : Inv k 0 1 s) (he : PutEffect k s o s') (ho : o ≠ .typeError) : Inv k 0 0 s' := by
  cases he with
  | failed left hk => exact absurd rfl ho
  | refused e hs =>
    refine { h with putters := ?_ }
    rcases hs with ⟨-, hle⟩ | hs
    · simpa [Nat.sub_eq_zero_of_le hle] using WaitQueue.covers_zero
    · -- after a shutdown no putter is parked, so the wake may be lost
      exact fun hp => absurd (h.closed hs).2 hp
  | park t x ht hf hs =>
    refine { h with putters := ?_, closed := ?_ }
    · simpa [Nat.sub_eq_zero_of_le hf.2] using WaitQueue.covers_zero
    · intro hs'
      simp [hs] at hs'
  | stored x items hperm hok hput hf hs =>
    have hlen : items.length = s.items.length + 1 := hperm.length_eq
    -- one item more, and one getter is woken for it; the caller used up a free place and its wake
    refine ⟨hok h.ok, ?_, ?_, ?_, ?_, ?_, ?_⟩
    · refine h.getters.wakeNext.mono ?_
      simp only [stored]
      omega
    · refine h.putters.mono ?_
      simp only [stored]
      omega
    · intro hs'
      simp [stored, hs] at hs'
    · intro hm
      have hlt : ¬ s.maxsize ≤ s.items.length := fun hle => hf ⟨hm, hle⟩
      simp only [stored]
      omega
    · simp [stored]
    · simp [stored]

theorem covers_abandonWaiter {q : WaitQueue τ} {t : τ} {n : Nat} {openSlot : Prop}
    [Decidable openSlot] (h : q.Covers n) (ht : t ∈ q) (hclosed : ¬ openSlot → n = 0) :
    (abandonWaiter q t openSlot).Covers n := by
  unfold abandonWaiter
  by_cases hw : t ∈ q.woken
  · by_cases ho : openSlot
    -- the wake that leaves with `t` is given to the next in line
    · rw [if_pos ⟨hw, ho⟩]
      exact h.leave.wakeNext.mono (by omega)
    · rw [if_neg fun hc => ho hc.2, hclosed ho]
      exact WaitQueue.covers_zero
  · rw [if_neg fun hc => hw hc.1]
    exact h.leave_of_parked ((WaitQueue.mem_iff.1 ht).resolve_right hw)

theorem parked_abandonWaiter {q : WaitQueue τ} {t : τ} {openSlot : Prop} [Decidable openSlot]
    (h : q.parked = []) : (abandonWaiter q t openSlot).parked = [] := by
  unfold abandonWaiter
  split <;> simp [WaitQueue.leave_parked, h]

theorem drain_spec (k : Kind α κ) (fuel : Nat) (items : List α) (unfinished : Nat)
    (hok : k.Ok items) (hf : items.length ≤ fuel) (h : (drain k fuel items unfinished).1 = true) :
    (drain k fuel items unfinished).2.1.Perm items ∧
      (drain k fuel items unfinished).2.2 = ([], unfinished - items.length) := by
  -- on the fuel, which starts at the number of items
  induction fuel generalizing items unfinished with
  | zero =>
    have hnil : items = [] := length_eq_zero_iff.1 (by omega)
    subst hnil
    exact ⟨.refl _, rfl⟩
  | succ fuel ih =>
    unfold drain at h ⊢
    cases hget : k.get items with
    | none =>
      have hnil : items = [] := Kind.get_eq_none hget
      subst hnil
      exact ⟨.refl _, rfl⟩
    | some r =>
      simp only [hget] at h
      rcases r with left | ⟨x, rest⟩
      · cases h
      · rcases hok.get hget with ⟨hok', hperm, -⟩
        have hlen : rest.length + 1 = items.length := by simpa using hperm.length_eq
        rcases ih rest (unfinished - 1) hok' (by omega) h with ⟨hd, hrest⟩
        refine ⟨(hd.cons x).trans hperm, hrest.trans ?_⟩
        rw [Nat.sub_sub, Nat.add_comm, hlen]

theorem drain_le (k : Kind α κ) (fuel : Nat) (items : List α) (unfinished : Nat) :
    (drain k fuel items unfinished).2.2.2 ≤ unfinished := by
  induction fuel generalizing items unfinished with
  | zero => exact le_rfl
  | succ fuel ih =>
    unfold drain
    cases k.get items with
    | none => exact le_rfl
    | some r =>
      rcases r with left | ⟨x, rest⟩
      · exact le_rfl
      · exact (ih rest (unfinished - 1)).trans (Nat.sub_le _ _)

theorem drain_comparable (hk : k.Comparable) (fuel : Nat) (items : List α) (unfinished : Nat) :
    (drain k fuel items unfinished).1 = true := by
  induction fuel generalizing items unfinished with
  | zero => rfl
  | succ fuel ih =>
    unfold drain
    cases hget : k.get items with
    | none => rfl
    | some r =>
      rcases r with left | ⟨x, rest⟩
      · exact absurd hk (Kind.not_comparable_of_get hget)
      · exact ih rest (unfinished - 1)

omit [DecidableEq τ] in
/-- A `shutdown(immediate=True)` that raises nothing drops all items. -/
theorem shutdown_immediate (hok : k.Ok s.items) (ho : (shutdown k s true).1 ≠ .typeError) :
    ∃ xs u, xs.Perm s.items ∧ shutdown k s true = (.dropped xs, wakeGetters
      (if u = 0 then
        setFinished { s with isShutdown := true, putters := s.putters.wakeAll, items := [], unfinishedTasks := u }
      else
        { s with isShutdown := true, putters := s.putters.wakeAll, items := [], unfinishedTasks := u })) ∧
      u = s.unfinishedTasks - s.items.length := by
  have hd : (drain k s.items.length s.items s.unfinishedTasks).1 = true := by
    by_contra hraised
    exact ho (by simp [shutdown, hraised])
  rcases drain_spec k _ _ _ hok le_rfl hd with ⟨hperm, hrest⟩
  refine ⟨_, _, hperm, ?_, rfl⟩
  simp only [shutdown, if_true, hd, hrest]

omit [DecidableEq τ] in
theorem Inv.shutdown (h : Inv k 0 0 s) (immediate : Bool) (ho : (shutdown k s immediate).1 ≠ .typeError) :
    Inv k 0 0 (shutdown k s immediate).2 := by
  cases immediate with
  | false =>
    exact ⟨h.ok, WaitQueue.covers_wakeAll, WaitQueue.covers_wakeAll, fun _ => ⟨rfl, rfl⟩, h.size,
      h.finished, h.joiners⟩
  | true =>
    rcases shutdown_immediate h.ok ho with ⟨xs, u, -, heq, hu⟩
    rw [heq]
    -- `_finished` is set if the dropped items were the last unfinished ones
    split
    · rename_i h0
      exact ⟨k.ok_nil, WaitQueue.covers_wakeAll, WaitQueue.covers_wakeAll, fun _ => ⟨rfl, rfl⟩,
        by simp [wakeGetters, setFinished], by simp [wakeGetters, setFinished, h0], fun hp => absurd rfl hp⟩
    · rename_i h0
      have hu0 : s.unfinishedTasks ≠ 0 := by omega
      exact ⟨k.ok_nil, WaitQueue.covers_wakeAll, WaitQueue.covers_wakeAll, fun _ => ⟨rfl, rfl⟩,
        by simp [wakeGetters], by simpa [wakeGetters, h0, hu0] using h.finished, fun _ => h0⟩

theorem Inv.leaveGetter {t : τ} (h : Inv k 0 0 s)
    (ht : t ∈ s.getters.woken) : Inv k 1 0 (leaveGetter s t) where
  ok := h.ok
  getters := h.getters.leave
  putters := h.putters
  closed := by
    intro hs
    simpa [Queue.leaveGetter, WaitQueue.leave_parked_of_woken ht] using h.closed hs
  size := h.size
  finished := h.finished
  joiners := h.joiners

theorem Inv.leavePutter {t : τ} (h : Inv k 0 0 s)
    (ht : t ∈ s.putters.woken) : Inv k 0 1 (leavePutter s t) where
  ok := h.ok
  getters := h.getters
  putters := h.putters.leave
  closed := by
    intro hs
    simpa [Queue.leavePutter, WaitQueue.leave_parked_of_woken ht] using h.closed hs
  size := h.size
  finished := h.finished
  joiners := h.joiners

theorem Inv.move (h : Inv k 0 0 s) (hm : Move k s o s') (ho : o ≠ .typeError) : Inv k 0 0 s' := by
  cases hm with
  | get he =>
    -- a fresh call has no wake to use up; the invariant is only weakened for it
    exact Inv.get { h with getters := h.getters.mono (by omega) } he ho
  | getTurn t ht he => exact (h.leaveGetter ht).get he ho
  | put he => exact Inv.put { h with putters := h.putters.mono (by omega) } he ho
  | putTurn t ht he => exact (h.leavePutter ht).put he ho
  | join o q _ hq =>
    refine { h with joiners := ?_ }
    intro hp
    exact (hq hp).elim h.joiners id
  | taskDoneRefused hu => exact h
  | taskDone u hu h0 =>
    refine { h with finished := ?_, joiners := fun _ => h0 }
    simpa [hu, h0] using h.finished
  | taskDoneLast hu =>
    exact { h with finished := by simp [setFinished], joiners := fun hp => absurd rfl hp }
  | shutdown immediate => exact h.shutdown immediate ho
  | getThrow t ht =>
    refine { h with getters := ?_, closed := ?_ }
    · refine covers_abandonWaiter h.getters ht ?_
      intro hi
      have hnil : s.items = [] := by simpa using hi
      simp [hnil]
    · intro hs
      exact ⟨parked_abandonWaiter (h.closed hs).1, (h.closed hs).2⟩
  | putThrow t ht =>
    refine { h with putters := ?_, closed := ?_ }
    · refine covers_abandonWaiter h.putters ht ?_
      intro hf
      have hfull : s.Full := by simpa using hf
      show s.maxsize - s.items.length = 0
      exact Nat.sub_eq_zero_of_le hfull.2
    · intro hs
      exact ⟨(h.closed hs).1, parked_abandonWaiter (h.closed hs).2⟩

/-! ## No lost wake-ups -/

/-- The system: a queue and the log of what its calls have returned. -/
abbrev Run (k : Kind α κ) (maxsize : Nat) (s : State α τ) (log : List (Outcome α)) : Prop :=
  Reachable (logged (step k)) (init maxsize, []) (s, log)

theorem Run.of_exec {m : Nat} (acts : List (Act α τ)) {c : State α τ × List (Outcome α)}
    (h : exec (logged (step k)) (init m, []) acts = some c) : Run k m c.1 c.2 :=
  Reachable.exec acts Reachable.refl h

theorem Move.ne_typeError (hk : k.Comparable) (hm : Move k s o s') : o ≠ .typeError := by
  rintro rfl
  have hget : ∀ s₀ : State α τ, ¬ GetEffect k s₀ .typeError s' := by
    rintro s₀ ⟨⟩
    rename_i left hget
    exact Kind.not_comparable_of_get hget hk
  have hput : ∀ s₀ : State α τ, ¬ PutEffect k s₀ .typeError s' := by
    rintro s₀ ⟨⟩
    rename_i left hnot
    exact hnot hk
  generalize ho : (Outcome.typeError : Outcome α) = o at hm
  cases hm with
  | get he => exact hget _ (ho ▸ he)
  | getTurn t ht he => exact hget _ (ho ▸ he)
  | put he => exact hput _ (ho ▸ he)
  | putTurn t ht he => exact hput _ (ho ▸ he)
  | join o q hjoin hq => rcases hjoin with rfl | rfl | rfl <;> cases ho
  | shutdown immediate =>
    cases immediate with
    | false => cases ho
    | true => simp [Queue.shutdown, drain_comparable hk] at ho
  | taskDoneRefused hu => cases ho
  | taskDone u hu h0 => cases ho
  | taskDoneLast hu => cases ho
  | getThrow t ht => cases ho
  | putThrow t ht => cases ho

/-- Comparable items raise nothing. -/
theorem Run.typeError_not_mem {maxsize : Nat} {log : List (Outcome α)} (hk : k.Comparable)
    (h : Run k maxsize s log) : .typeError ∉ log := by
  refine Reachable.invariant (I := fun c => .typeError ∉ c.2) h not_mem_nil ?_
  intro c a c' hI hs
  rcases logged_eq_some hs with ⟨o, hstep, hlog⟩
  rw [hlog]
  exact not_mem_cons_of_ne_of_not_mem ((Move.of_step hstep).ne_typeError hk).symm hI

theorem Inv.of_run {maxsize : Nat} {log : List (Outcome α)}
    (h : Run k maxsize s log) (hlog : .typeError ∉ log) : Inv k 0 0 s := by
  refine Reachable.invariant (I := fun c => .typeError ∉ c.2 → Inv k 0 0 c.1) h
    (fun _ => Inv.init k maxsize) ?_ hlog
  intro c a c' hI hs hlog'
  rcases logged_eq_some hs with ⟨o, hstep, heq⟩
  rw [heq, mem_cons, not_or] at hlog'
  exact (hI hlog'.2).move (Move.of_step hstep) (Ne.symm hlog'.1)

/-- While a getter is parked there are at least as many woken getters as items, and while a putter
is parked there are at least as many woken putters as free places. -/
theorem queue_no_lost_wakeup {k : Kind α κ} {maxsize : Nat} {s : State α τ}
    {log : List (Outcome α)} (hk : k.Comparable) (h : Run k maxsize s log) :
    (s.getters.parked ≠ [] → s.items.length ≤ s.getters.woken.length) ∧
      (s.putters.parked ≠ [] → s.maxsize - s.items.length ≤ s.putters.woken.length) :=
  ⟨(Inv.of_run h (h.typeError_not_mem hk)).getters, (Inv.of_run h (h.typeError_not_mem hk)).putters⟩

/-- Tealets 0 and 1 wait for an item; one item is put, which wakes tealet 0. -/
theorem queue_no_lost_wakeup_two_getters :
    ∃ (s : State Nat Nat) (log : List (Outcome Nat)),
      Run (.queue : Kind Nat Nat) 0 s log ∧ s.getters.parked = [1] ∧ s.items = [7] ∧
        s.items.length ≤ s.getters.woken.length := by
  have hrun := Run.of_exec (k := (.queue : Kind Nat Nat)) (m := 0)
    [Act.get 0, .get 1, .putNowait 7] rfl
  exact ⟨_, _, hrun, rfl, rfl, (queue_no_lost_wakeup (k := (.queue : Kind Nat Nat)) trivial hrun).1
    (by decide)⟩

/-! ## Every woken tealet has its turn -/

/-- A suspended `sput` knows the item that it is to store. -/
def HasArgs (s : State α τ) : Prop :=
  ∀ t ∈ s.putters, (s.arg t).isSome

theorem mem_of_mem_abandonWaiter {q : WaitQueue τ} {t u : τ} {openSlot : Prop}
    [Decidable openSlot] (h : u ∈ abandonWaiter q t openSlot) : u ∈ q.leave t := by
  unfold abandonWaiter at h
  split at h
  · exact WaitQueue.mem_wakeNext.1 h
  · exact h

theorem HasArgs.leavePutter (h : HasArgs s) (t : τ) : HasArgs (leavePutter s t) := by
  intro u hu
  have hne : u ≠ t := by
    rintro rfl
    exact WaitQueue.not_mem_leave hu
  simpa [Queue.leavePutter, hne] using h u (WaitQueue.mem_of_mem_leave hu)

theorem HasArgs.put (h : HasArgs s) (he : PutEffect k s o s') : HasArgs s' := by
  cases he with
  | refused e hs => exact h
  | park t x ht hf hs =>
    intro u hu
    by_cases hut : u = t
    · simp [hut]
    · have hu' : u ∈ s.putters := by
        simpa [WaitQueue.mem_iff, hut] using hu
      simpa [hut] using h u hu'
  | failed left hk => exact h
  | stored x items hperm hok hput hf hs => exact h

omit [DecidableEq τ] in
theorem HasArgs.get (h : HasArgs s) (he : GetEffect k s o s') : HasArgs s' := by
  cases he with
  | refused e hi => exact h
  | park t ht hi hs => exact h
  | failed left hget => exact h
  | taken x rest hget => exact fun u hu => h u (WaitQueue.mem_wakeNext.1 hu)

theorem HasArgs.move (h : HasArgs s) (hm : Move k s o s') : HasArgs s' := by
  cases hm with
  | get he => exact h.get he
  | getTurn t ht he => exact HasArgs.get (s := leaveGetter s t) h he
  | put he => exact h.put he
  | putTurn t ht he => exact (h.leavePutter t).put he
  | join o q ho hq => exact h
  | shutdown immediate =>
    have hall : HasArgs { s with putters := s.putters.wakeAll } := fun u hu =>
      h u (WaitQueue.mem_wakeAll.1 hu)
    cases immediate with
    | false => exact hall
    | true =>
      simp only [Queue.shutdown, if_true]
      split
      · split <;> exact hall
      · exact hall
  | taskDoneRefused hu => exact h
  | taskDone u hu h0 => exact h
  | taskDoneLast hu => exact h
  | getThrow t ht => exact h
  | putThrow t ht => exact fun u hu => h.leavePutter t u (mem_of_mem_abandonWaiter hu)

/-- `_finished` is never set while tasks are unfinished, also after a call that has raised. -/
def State.NotEarly (s : State α τ) : Prop :=
  s.finished = true → s.unfinishedTasks = 0

omit [DecidableEq τ] in
theorem GetEffect.notEarly (he : GetEffect k s o s') (h : s.NotEarly) : s'.NotEarly := by
  cases he <;> exact h

theorem PutEffect.notEarly (he : PutEffect k s o s') (h : s.NotEarly) : s'.NotEarly := by
  cases he with
  | stored => exact fun hf => Bool.noConfusion hf
  | _ => exact h

theorem Move.notEarly (hm : Move k s o s') (h : s.NotEarly) : s'.NotEarly := by
  cases hm with
  | get he => exact he.notEarly h
  | getTurn t ht he => exact GetEffect.notEarly (s := leaveGetter s t) he h
  | put he => exact he.notEarly h
  | putTurn t ht he => exact PutEffect.notEarly (s := leavePutter s t) he h
  | taskDone u hu h0 => exact fun hf => absurd (h hf) (by simp [hu])
  | taskDoneLast hu => exact fun _ => rfl
  | shutdown immediate =>
    have hle := drain_le k s.items.length s.items s.unfinishedTasks
    have hzero : s.finished = true → (drain k s.items.length s.items s.unfinishedTasks).2.2.2 = 0 :=
      fun hf => by
      have h0 := h hf
      omega
    cases immediate with
    | false => exact h
    | true =>
      simp only [Queue.shutdown, if_true]
      split
      · split
        · rename_i h0
          exact fun _ => h0
        · exact hzero
      · exact hzero
  | _ => exact h

/-- No woken tealet is stuck: its turn is always possible.  In particular `sjoin` never spins on a
set `_finished` event. -/
theorem turn_of_woken {maxsize : Nat} {log : List (Outcome α)} {t : τ} (h : Run k maxsize s log)
    (ht : t ∈ s.getters.woken ∨ t ∈ s.putters.woken ∨ t ∈ s.joiners.woken) :
    ∃ r, step k s (.turn t) = some r := by
  obtain ⟨hargs, hearly⟩ : HasArgs s ∧ s.NotEarly := by
    refine Reachable.invariant (I := fun c => HasArgs c.1 ∧ c.1.NotEarly) h ⟨?_, fun _ => rfl⟩ ?_
    · intro u hu
      simp [Queue.init, WaitQueue.mem_iff] at hu
    · intro c a c' hI hs
      rcases logged_eq_some hs with ⟨o, hstep, -⟩
      exact ⟨hI.1.move (Move.of_step hstep), (Move.of_step hstep).notEarly hI.2⟩
  simp only [step]
  split
  · exact ⟨_, rfl⟩
  · rename_i hg
    split
    -- a joiner: with tasks unfinished the event is clear, so it parks again
    · unfold sjoin
      split
      · exact ⟨_, rfl⟩
      · rename_i hu
        have hunset : s.finished = false := Bool.eq_false_of_not_eq_true fun hf => hu (hearly hf)
        simp [hunset]
    · rename_i hj
      have hp : t ∈ s.putters.woken := by tauto
      rcases isSome_iff_exists.1 (hargs t (WaitQueue.mem_iff.2 (.inr hp))) with ⟨x, hx⟩
      simp [hp, hx]

/-- Tealet 0 waits in `get`, and is woken by an item. -/
theorem turn_of_woken_getter :
    ∃ (s : State Nat Nat) (log : List (Outcome Nat)), Run (.queue : Kind Nat Nat) 2 s log ∧
      0 ∈ s.getters.woken ∧
      ∃ r, step (.queue : Kind Nat Nat) s (.turn 0) = some r := by
  have hrun := Run.of_exec (k := (.queue : Kind Nat Nat)) (m := 2) [Act.get 0, .putNowait 8] rfl
  exact ⟨_, _, hrun, by decide, turn_of_woken hrun (.inl (by decide))⟩

/-! ## Conservation -/

/-- The items that the call has put, taken and dropped. -/
@[simp] def Outcome.puts : Outcome α → List α
  | .put x => [x]
  | _ => []

@[simp] def Outcome.gets : Outcome α → List α
  | .got x => [x]
  | _ => []

@[simp] def Outcome.drops : Outcome α → List α
  | .dropped xs => xs
  | _ => []

/-- A call with outcome `o` that leads from the items `before` to the items `after` loses and
invents none. -/
def Balanced (before : List α) (o : Outcome α) (after : List α) : Prop :=
  (o.puts ++ before).Perm (after ++ o.gets ++ o.drops)

omit [DecidableEq τ] in
theorem GetEffect.balanced (hok : k.Ok s.items) (he : GetEffect k s o s') (ho : o ≠ .typeError) :
    Balanced s.items o s'.items := by
  cases he with
  | failed left hget => exact absurd rfl ho
  | refused e _ => simp [Balanced]
  | park t _ _ _ => simp [Balanced]
  | taken x rest hget =>
    rcases hok.get hget with ⟨-, hperm, -⟩
    simpa [Balanced, Queue.taken] using hperm.symm.trans (perm_append_singleton x rest).symm

theorem PutEffect.balanced (he : PutEffect k s o s') (ho : o ≠ .typeError) :
    Balanced s.items o s'.items := by
  cases he with
  | failed left hk => exact absurd rfl ho
  | refused e _ => simp [Balanced]
  | park t x _ _ _ => simp [Balanced]
  | stored x items hperm _ _ _ _ =>
    simpa [Balanced, Queue.stored] using hperm.symm

omit [DecidableEq τ] in
theorem shutdown_balanced (hok : k.Ok s.items) (immediate : Bool)
    (ho : (shutdown k s immediate).1 ≠ .typeError) :
    Balanced s.items (shutdown k s immediate).1 (shutdown k s immediate).2.items := by
  cases immediate with
  | false => simp [Queue.shutdown, Balanced, wakeGetters]
  | true =>
    rcases shutdown_immediate hok ho with ⟨xs, u, hperm, heq, -⟩
    rw [heq]
    have hitems : ∀ s₁ s₂ : State α τ, s₁.items = [] → s₂.items = [] →
        (wakeGetters (if u = 0 then s₁ else s₂)).items = [] := by
      intro s₁ s₂ h₁ h₂
      split
      · exact h₁
      · exact h₂
    rw [hitems _ _ rfl rfl]
    simpa [Balanced] using hperm.symm

theorem Move.balanced (hok : k.Ok s.items) (hm : Move k s o s') (ho : o ≠ .typeError) :
    Balanced s.items o s'.items := by
  cases hm with
  | get he => exact he.balanced hok ho
  | getTurn t ht he => exact GetEffect.balanced (s := leaveGetter s t) hok he ho
  | put he => exact he.balanced ho
  | putTurn t ht he => exact PutEffect.balanced (s := leavePutter s t) he ho
  | join o q hjoin hq =>
    rcases hjoin with rfl | rfl | rfl <;> simp [Balanced]
  | shutdown immediate => exact shutdown_balanced hok immediate ho
  | taskDoneRefused hu => simp [Balanced]
  | taskDone u hu h0 => simp [Balanced]
  | taskDoneLast hu => simp [Balanced, setFinished]
  | getThrow t ht => simp [Balanced]
  | putThrow t ht => simp [Balanced, leavePutter]

/-- What has been put so far is stored, has been returned by a get, or was dropped. -/
def Conserved (s : State α τ) (log : List (Outcome α)) : Prop :=
  (log.flatMap Outcome.puts).Perm
    (s.items ++ log.flatMap Outcome.gets ++ log.flatMap Outcome.drops)

omit [DecidableEq τ] in
theorem Conserved.cons {log : List (Outcome α)}
    (h : Conserved s log) (hb : Balanced s.items o s'.items) : Conserved s' (o :: log) := by
  classical
  -- count every item: the new outcome adds on both sides what it moves
  refine perm_iff_count.2 fun x => ?_
  have hx := perm_iff_count.1 h x
  have ho := perm_iff_count.1 hb x
  simp only [flatMap_cons, count_append] at hx ho ⊢
  omega

theorem Conserved.of_run {maxsize : Nat} {log : List (Outcome α)}
    (h : Run k maxsize s log) (hlog : .typeError ∉ log) : Conserved s log := by
  refine (Reachable.invariant (I := fun c => .typeError ∉ c.2 → Inv k 0 0 c.1 ∧ Conserved c.1 c.2) h
    (fun _ => ⟨Inv.init k maxsize, by simp [Conserved, init]⟩) ?_ hlog).2
  rintro c a c' hI hs hlog'
  rcases logged_eq_some hs with ⟨o, hstep, heq⟩
  rw [heq, mem_cons, not_or] at hlog'
  rcases hI hlog'.2 with ⟨hinv, hconserved⟩
  have hm : Move k c.1 o c'.1 := Move.of_step hstep
  -- a heap that is in order is needed to know what `_get` takes out
  exact ⟨hinv.move hm (Ne.symm hlog'.1), heq ▸ hconserved.cons (hm.balanced hinv.ok (Ne.symm hlog'.1))⟩

/-- What a call may return in the state `s`: it puts only while the queue is open, and it gets the
item that its class promises. -/
def Allowed (k : Kind α κ) (s : State α τ) : Outcome α → Prop
  | .put _ => s.isShutdown = false
  | .got x => s.items ≠ [] ∧ k.Serves s.items x
  | _ => True

omit [DecidableEq τ] in
theorem GetEffect.allowed (hok : k.Ok s.items) (he : GetEffect k s o s') : Allowed k s o := by
  cases he with
  | refused e hi => trivial
  | park t ht hi hs => trivial
  | failed left hget => trivial
  | taken x rest hget => exact ⟨Kind.ne_nil_of_get hget, (hok.get hget).2.2⟩

theorem PutEffect.allowed (he : PutEffect k s o s') : Allowed k s o := by
  cases he with
  | refused e hs => trivial
  | park t x ht hf hs => trivial
  | failed left hk => trivial
  | stored x items hperm hok hput hf hs => exact hs

theorem Move.allowed (hok : k.Ok s.items) (hm : Move k s o s') : Allowed k s o := by
  cases hm with
  | get he => exact he.allowed hok
  | getTurn t ht he =>
    have ha := GetEffect.allowed (s := leaveGetter s t) hok he
    -- leaving the wait queue changes neither the items nor the shutdown flag
    cases o <;> exact ha
  | put he => exact he.allowed
  | putTurn t ht he =>
    have ha := PutEffect.allowed he
    cases o <;> exact ha
  | join o q ho hq =>
    rcases ho with rfl | rfl | rfl <;> trivial
  | shutdown immediate =>
    cases immediate with
    | false => trivial
    | true =>
      simp only [Queue.shutdown, if_true]
      split <;> trivial
  | taskDoneRefused hu => trivial
  | taskDone u hu h0 => trivial
  | taskDoneLast hu => trivial
  | getThrow t ht => trivial
  | putThrow t ht => trivial

/-- Conservation: in a run in which no comparison of items has raised, the items put are the items
stored, got and dropped; a get returns the item its class promises; the size bound, the finished
flag and the shutdown rules hold. -/
theorem queue_conservation {k : Kind α κ} {maxsize : Nat} {s : State α τ}
    {log : List (Outcome α)} (h : Run k maxsize s log) (hlog : .typeError ∉ log) :
    (log.flatMap Outcome.puts).Perm
        (s.items ++ log.flatMap Outcome.gets ++ log.flatMap Outcome.drops) ∧
      (0 < s.maxsize → s.items.length ≤ s.maxsize) ∧
      (s.unfinishedTasks = 0 ↔ s.finished = true) ∧
      (s.isShutdown = true → s.getters.parked = []) ∧
      ∀ a o s', step k s a = some (o, s') → Allowed k s o :=
  have hinv := Inv.of_run h hlog
  ⟨Conserved.of_run h hlog, hinv.size, hinv.finished, fun hs => (hinv.closed hs).1,
    fun _ _ _ hs => (Move.of_step hs).allowed hinv.ok⟩

/-- Three items go through a `LifoQueue` of size 2: the third putter waits until the last item is
taken, and the queue is then shut down with two items in it. -/
theorem queue_conservation_lifo :
    ∃ (s : State Nat Nat) (log : List (Outcome Nat)),
      Run (.lifoQueue : Kind Nat Nat) 2 s log ∧
        log = [.dropped [5, 8], .put 5, .got 3, .parked, .put 3, .put 8] ∧
        (log.flatMap Outcome.puts).Perm
          (s.items ++ log.flatMap Outcome.gets ++ log.flatMap Outcome.drops) := by
  have hrun := Run.of_exec (k := (.lifoQueue : Kind Nat Nat)) (m := 2)
    [Act.putNowait 8, .putNowait 3, .put 0 5, .getNowait, .turn 0, .shutdown true] rfl
  exact ⟨_, _, hrun, rfl, (queue_conservation hrun (by decide)).1⟩

/-- The items are pairs of a priority and a flag that tells whether the second component is a text.
The items `(0, "x")`, `(1, "a")` and `(1, 2)` are put, and the first get compares the last two. -/
theorem heappop_loses_item :
    ∃ (s : State (Nat × Bool) Nat) (log : List (Outcome (Nat × Bool))),
      Run (.priorityQueue Prod.fst fun x y => x.1 ≠ y.1 || x.2 == y.2) 0 s log ∧
        log = [.typeError, .put (1, false), .put (1, true), .put (0, true)] ∧
        ¬ (log.flatMap Outcome.puts).Perm
          (s.items ++ log.flatMap Outcome.gets ++ log.flatMap Outcome.drops) := by
  have hrun := Run.of_exec (k := .priorityQueue Prod.fst fun x y => x.1 ≠ y.1 || x.2 == y.2) (m := 0)
    (τ := Nat) [Act.putNowait (0, true), .putNowait (1, true), .putNowait (1, false), .getNowait] rfl
  exact ⟨_, _, hrun, rfl, by decide⟩

/-! ## First in, first out -/

/-- A call with outcome `o` puts at the end and takes from the front, and what drops items leaves
none. -/
def InLine (s : State α τ) (o : Outcome α) (s' : State α τ) : Prop :=
  s.items ++ o.puts = o.gets ++ o.drops ++ s'.items ∧
    (s.isShutdown = true → o.puts = [] ∧ s'.isShutdown = true) ∧
      (o.drops = [] ∨ s'.items = [] ∧ s'.isShutdown = true)

omit [DecidableEq τ] in
theorem GetEffect.inLine (he : GetEffect (.queue : Kind α κ) s o s') : InLine s o s' := by
  cases he with
  | refused e hi => simp [InLine]
  | park t ht hi hs => simp [InLine]
  | failed left hget => exact absurd trivial (Kind.not_comparable_of_get hget)
  | taken x rest hget =>
    cases hitems : s.items with
    | nil => simp [Kind.get, hitems] at hget
    | cons y ys =>
      simp only [Kind.get, hitems, Option.some.injEq, Except.ok.injEq, Prod.mk.injEq] at hget
      simp [InLine, Queue.taken, hitems, hget]

theorem PutEffect.inLine (he : PutEffect (.queue : Kind α κ) s o s') : InLine s o s' := by
  cases he with
  | refused e hs => simp [InLine]
  | park t x ht hf hs => simp [InLine]
  | failed left hk => exact absurd trivial hk
  | stored x items hperm hok hput hf hs =>
    cases hput
    simp [InLine, Queue.stored, hs]

theorem drain_queue (items : List α) (unfinished : Nat) :
    (drain (.queue : Kind α κ) items.length items unfinished).2.1 = items := by
  induction items generalizing unfinished with
  | nil => rfl
  | cons x rest ih => exact congrArg (x :: ·) (ih _)

omit [DecidableEq τ] in
theorem shutdown_inLine (s : State α τ) (immediate : Bool) :
    InLine s (shutdown (.queue : Kind α κ) s immediate).1 (shutdown (.queue : Kind α κ) s immediate).2 := by
  cases immediate with
  | false => simp [InLine, Queue.shutdown, wakeGetters]
  | true =>
    have hd := drain_comparable (k := (.queue : Kind α κ)) trivial s.items.length s.items s.unfinishedTasks
    rcases drain_spec (.queue : Kind α κ) _ s.items s.unfinishedTasks trivial le_rfl hd with ⟨-, hrest⟩
    simp only [Queue.shutdown, if_true, hd, hrest]
    split <;> simp [InLine, setFinished, wakeGetters, drain_queue]

theorem Move.inLine (hm : Move (.queue : Kind α κ) s o s') : InLine s o s' := by
  cases hm with
  | get he => exact he.inLine
  | getTurn t ht he => exact GetEffect.inLine (s := leaveGetter s t) he
  | put he => exact he.inLine
  | putTurn t ht he => exact PutEffect.inLine (s := leavePutter s t) he
  | join o q ho hq => rcases ho with rfl | rfl | rfl <;> simp [InLine]
  | shutdown immediate => exact shutdown_inLine s immediate
  | _ => simp [InLine, setFinished, leavePutter]

/-- A `Queue` hands its items on in the order in which they were put: those got, those dropped,
those stored. -/
theorem queue_fifo {maxsize : Nat} {s : State α τ} {log : List (Outcome α)}
    (h : Run (.queue : Kind α κ) maxsize s log) :
    log.reverse.flatMap Outcome.puts =
      log.reverse.flatMap Outcome.gets ++ log.reverse.flatMap Outcome.drops ++ s.items := by
  refine (Reachable.invariant (I := fun c => c.2.reverse.flatMap Outcome.puts =
      c.2.reverse.flatMap Outcome.gets ++ c.2.reverse.flatMap Outcome.drops ++ c.1.items ∧
        (c.2.reverse.flatMap Outcome.drops = [] ∨ c.1.items = [] ∧ c.1.isShutdown = true)) h
          ⟨rfl, .inl rfl⟩ ?_).1
  rintro ⟨s, log⟩ a ⟨s', log'⟩ hI hs
  rcases logged_eq_some hs with ⟨o, hstep, rfl⟩
  obtain ⟨hitems, hshut, hdrops⟩ : InLine s o s' := (Move.of_step hstep).inLine
  dsimp only at hI ⊢
  simp only [reverse_cons, flatMap_append, flatMap_singleton, hI.1]
  rcases hI.2 with hnone | ⟨hnil, hclosed⟩
  · rw [hnone]
    simpa only [append_nil, append_assoc, nil_append, hitems, true_and] using hdrops
  · -- nothing comes in any more
    obtain ⟨hputs, hstays⟩ := hshut hclosed
    rw [hnil, hputs] at hitems
    simp only [append_nil, nil_eq, append_eq_nil_iff] at hitems
    obtain ⟨⟨hgets, hnone⟩, hempty⟩ := hitems
    rw [hnil, hputs, hgets, hnone, hempty]
    simp only [append_nil, true_and]
    exact .inr hstays

/-- Two items are put and one is got; the other is dropped. -/
theorem queue_fifo_dropped :
    ∃ (s : State Nat Nat) (log : List (Outcome Nat)), Run (.queue : Kind Nat Nat) 2 s log ∧
      log = [.dropped [3], .got 8, .put 3, .put 8] ∧ log.reverse.flatMap Outcome.puts =
        log.reverse.flatMap Outcome.gets ++ log.reverse.flatMap Outcome.drops ++ s.items := by
  have hrun := Run.of_exec (k := (.queue : Kind Nat Nat)) (m := 2)
    [Act.putNowait 8, .putNowait 3, .get 0, .shutdown true] rfl
  exact ⟨_, _, hrun, rfl, queue_fifo hrun⟩

end Pytealet.Locks.Queue
