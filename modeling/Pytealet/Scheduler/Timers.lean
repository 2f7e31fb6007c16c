import Mathlib.Data.Prod.Lex
import Mathlib.Tactic.SplitIfs
import Pytealet.Lib.Heapq
import Pytealet.Lib.Transition

/-!
# Timers — `call_soon`, `call_later` and the drain of `_run_ready_timers`

The callbacks of `call_soon` are kept in a deque, the timers in a heap.  A drain first runs as many
callbacks as there were at its start, then reads the clock, takes every timer that is due off the
heap, and runs those.  A callback may schedule, cancel, switch to other code that does, or raise;
what raises through the drain ends it, and the timers that were not reached go back to the heap.

An exception that the handler of the loop takes is a return here.
-/

namespace Pytealet.Scheduler.Timers

open Lib Lib.Transition List

structure Callback where
  id : Nat
  /-- the drain that was going on when it was scheduled -/
  born : Option Nat
  deriving DecidableEq, Repr

/-- `TimerHandle`, with the number that `_timer_sequence` gave it. -/
structure TimerHandle where
  when : Int
  sequence : Nat
  born : Option Nat
  deriving DecidableEq, Repr

/-- What the heap compares. -/
def TimerHandle.key (t : TimerHandle) : Int ×ₗ Nat :=
  toLex (t.when, t.sequence)

inductive Item
  | soon (c : Callback)
  | timer (t : TimerHandle)
  deriving DecidableEq, Repr

def Item.born : Item → Option Nat
  | .soon c => c.born
  | .timer t => t.born

def Item.soon? : Item → Option Callback
  | .soon c => some c
  | .timer _ => none

def Item.timer? : Item → Option TimerHandle
  | .timer t => some t
  | .soon _ => none

/-- A callback that has been run. -/
structure Run where
  item : Item
  /-- the clock when it was called -/
  time : Int
  drain : Nat
  deriving DecidableEq, Repr

inductive Phase
  /-- `_drain_ready_callbacks`, with so many left to run -/
  | ready (pending : Nat)
  /-- the timers that were due at `now` and have not been reached -/
  | due (now : Int) (rest : List TimerHandle)
  deriving DecidableEq, Repr

structure State where
  /-- `_ready_callbacks` -/
  ready : List Callback := []
  timers : Array TimerHandle := #[]
  clock : Int := 0
  callbacks : Nat := 0
  /-- `_timer_sequence` -/
  sequence : Nat := 0
  /-- `_in_callback_drain`, and where the drain is -/
  drain : Option Phase := none
  /-- the drain is inside a callback -/
  running : Bool := false
  /-- drains begun -/
  drains : Nat := 0
  /-- the handles cancelled, with the length of the log at that time -/
  cancels : List (Nat × Nat) := []
  log : List Run := []
  deriving DecidableEq

namespace State

def cancelled (s : State) (t : TimerHandle) : Prop :=
  ∃ p ∈ s.cancels, p.1 = t.sequence

instance (s : State) (t : TimerHandle) : Decidable (s.cancelled t) :=
  inferInstanceAs (Decidable (∃ p ∈ s.cancels, p.1 = t.sequence))

/-- The drain in which something is scheduled now. -/
def birth (s : State) : Option Nat :=
  s.drain.map fun _ => s.drains

def call (s : State) (item : Item) : State :=
  { s with running := true, log := s.log ++ [⟨item, s.clock, s.drains⟩] }

end State

/-- The loop that takes the timers due at `now`, in the order in which it pops them. -/
def popDue (now : Int) : Nat → Array TimerHandle → List TimerHandle × Array TimerHandle
  | 0, heap => ([], heap)
  | n + 1, heap =>
    match heap[0]? with
    | some t =>
      if t.when ≤ now then
        match Heapq.heappop TimerHandle.key heap with
        | some (t, heap) => ((t :: (popDue now n heap).1), (popDue now n heap).2)
        | none => ([], heap)
      else ([], heap)
    | none => ([], heap)

def pushAll (heap : Array TimerHandle) (items : List TimerHandle) : Array TimerHandle :=
  items.foldl (Heapq.heappush TimerHandle.key) heap

inductive Action
  | callSoon
  | callAt (when : Int)
  | cancel (sequence : Nat)
  | tick (d : Nat)
  /-- `_next_timer_deadline` drops a cancelled head -/
  | prune
  | begin
  | pop
  /-- the clock is read and the due timers are taken -/
  | collect
  | fire
  /-- the callback returns -/
  | back
  /-- the callback raises through the drain -/
  | raise
  | finish
  deriving DecidableEq, Repr

def step (s : State) : Action → Option State
  | .callSoon => some { s with ready := s.ready ++ [⟨s.callbacks, s.birth⟩], callbacks := s.callbacks + 1 }
  | .callAt when =>
    some { s with
      timers := Heapq.heappush TimerHandle.key s.timers ⟨when, s.sequence, s.birth⟩
      sequence := s.sequence + 1 }
  | .cancel sequence =>
    if sequence < s.sequence then
      some { s with cancels := s.cancels ++ [(sequence, s.log.length)] } else none
  | .tick d => some { s with clock := s.clock + d }
  | .prune =>
    match s.timers[0]? with
    | some t =>
      if s.cancelled t then (Heapq.heappop TimerHandle.key s.timers).map fun r =>
        { s with timers := r.2 } else none
    | none => none
  | .begin =>
    match s.drain with
    | none => some { s with drain := some (.ready s.ready.length), drains := s.drains + 1 }
    | some _ => none
  | .pop =>
    match s.drain, s.running with
    | some (.ready (n + 1)), false =>
      match s.ready with
      | [] => some { s with drain := some (.ready 0) }
      | c :: rest => some ({ s with ready := rest, drain := some (.ready n) }.call (.soon c))
    | _, _ => none
  | .collect =>
    match s.drain, s.running with
    | some (.ready 0), false => some
        { s with
          timers := (popDue s.clock s.timers.size s.timers).2
          drain := some (.due s.clock (popDue s.clock s.timers.size s.timers).1) }
    | _, _ => none
  | .fire =>
    match s.drain, s.running with
    | some (.due now (t :: rest)), false =>
      if s.cancelled t then some { s with drain := some (.due now rest) }
      else some ({ s with drain := some (.due now rest) }.call (.timer t))
    | _, _ => none
  | .back => if s.running then some { s with running := false } else none
  | .raise =>
    match s.drain, s.running with
    | some (.ready _), true => some { s with drain := none, running := false }
    | some (.due _ rest), true =>
      some { s with timers := pushAll s.timers rest, drain := none, running := false }
    | _, _ => none
  | .finish =>
    match s.drain, s.running with
    | some (.due _ []), false => some { s with drain := none }
    | _, _ => none

def init : State := {}

/-! ## The heap -/

theorem key_le_when {t u : TimerHandle} (h : t.key ≤ u.key) : t.when ≤ u.when := by
  rcases Prod.Lex.toLex_le_toLex.1 h with hlt | ⟨heq, -⟩
  · exact Int.le_of_lt hlt
  · exact Int.le_of_eq heq

theorem key_lt {t u : TimerHandle} (h : t.key ≤ u.key) (hne : t.sequence ≠ u.sequence) : t.key < u.key := by
  refine lt_of_le_of_ne h fun heq => hne ?_
  exact congrArg (fun p : Int ×ₗ Nat => (ofLex p).2) heq

/-- What the loop of the drain takes. -/
structure Taken (now : Int) (heap : Array TimerHandle) (due : List TimerHandle)
    (rest : Array TimerHandle) : Prop where
  perm : (due ++ rest.toList).Perm heap.toList
  sorted : due.Pairwise fun t u => t.key ≤ u.key
  early : ∀ t ∈ due, t.when ≤ now
  late : ∀ t ∈ rest, now < t.when
  ordered : Heapq.Ordered TimerHandle.key rest

theorem taken_stop {now : Int} {heap : Array TimerHandle} (hord : Heapq.Ordered TimerHandle.key heap)
    (hnone : ∀ t ∈ heap, now < t.when) : Taken now heap [] heap :=
  ⟨List.Perm.refl _, List.Pairwise.nil, nofun, hnone, hord⟩

theorem popDue_taken (now : Int) (n : Nat) (heap : Array TimerHandle)
    (hord : Heapq.Ordered TimerHandle.key heap)
    (hn : heap.size ≤ n) : Taken now heap (popDue now n heap).1 (popDue now n heap).2 := by
  induction n generalizing heap with
  | zero =>
    refine taken_stop hord fun t ht => ?_
    rw [Array.eq_empty_of_size_eq_zero (Nat.le_zero.1 hn)] at ht
    simp at ht
  | succ n ih =>
    unfold popDue
    split
    · rename_i t hhead
      rcases Array.getElem?_eq_some_iff.1 hhead with ⟨hpos, hget⟩
      have hleast : ∀ u ∈ heap, t.key ≤ u.key := by
        intro u hu
        rcases Array.getElem_of_mem hu with ⟨i, hi, rfl⟩
        rw [← hget]
        exact hord.root_le hpos i hi
      split_ifs with hdue
      · cases hpop : Heapq.heappop TimerHandle.key heap with
        | none =>
          rw [Heapq.heappop_eq_none_iff] at hpop
          simp [hpop] at hpos
        | some r =>
          rcases r with ⟨u, heap'⟩
          rcases Heapq.heappop_spec hord hpop with ⟨hord', hperm, hmin⟩
          have hsize : heap'.size ≤ n := by
            have hlen := hperm.toList.length_eq
            simp at hlen
            omega
          have hT := ih heap' hord' hsize
          have hperm' : (u :: heap'.toList).Perm heap.toList := by
            have hpush := hperm.toList
            simp only [Array.toList_push] at hpush
            exact (perm_append_singleton u heap'.toList).symm.trans hpush
          have hu : u.when ≤ now := Int.le_trans (key_le_when (hmin t (Array.mem_of_getElem? hhead))) hdue
          refine ⟨(hT.perm.cons u).trans hperm', ?_, ?_, hT.late, hT.ordered⟩
          · refine List.Pairwise.cons (fun v hv => ?_) hT.sorted
            have hmem : v ∈ heap'.toList := hT.perm.subset (mem_append_left _ hv)
            exact hmin v (Array.mem_toList_iff.1 (hperm'.subset (mem_cons_of_mem _ hmem)))
          · intro v hv
            rcases mem_cons.1 hv with rfl | hv
            · exact hu
            · exact hT.early v hv
      · exact taken_stop hord fun u hu => Int.lt_of_lt_of_le (Int.not_le.1 hdue) (key_le_when (hleast u hu))
    · rename_i hhead
      have hnil : heap = #[] := by simpa using hhead
      refine taken_stop hord fun t ht => ?_
      simp [hnil] at ht

theorem push_perm (heap : Array TimerHandle) (t : TimerHandle) :
    (Heapq.heappush TimerHandle.key heap t).toList.Perm (t :: heap.toList) := by
  have hpush := (Heapq.heappush_perm TimerHandle.key heap t).toList
  simp only [Array.toList_push] at hpush
  exact hpush.trans (perm_append_singleton t heap.toList)

theorem pushAll_perm (heap : Array TimerHandle) (items : List TimerHandle) :
    (pushAll heap items).toList.Perm (items ++ heap.toList) := by
  induction items generalizing heap with
  | nil => exact List.Perm.refl _
  | cons t items ih =>
    refine (ih _).trans ?_
    refine ((push_perm heap t).append_left items).trans ?_
    exact perm_middle

theorem pushAll_ordered {heap : Array TimerHandle} (hord : Heapq.Ordered TimerHandle.key heap)
    (items : List TimerHandle) : Heapq.Ordered TimerHandle.key (pushAll heap items) := by
  induction items generalizing heap with
  | nil => exact hord
  | cons t items ih => exact ih (Heapq.heappush_ordered hord t)

end Pytealet.Scheduler.Timers
