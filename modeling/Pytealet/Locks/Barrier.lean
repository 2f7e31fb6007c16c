import Mathlib.Data.PNat.Defs
import Mathlib.Data.List.Nodup
import Mathlib.Data.List.NodupEquivFin
import Mathlib.Logic.Function.Basic
import Mathlib.Order.WellFounded
import Pytealet.Lib.Transition

/-!
# Barrier — `Barrier` of `locks.py`

A party that arrives takes its index from `_count`, and a waiting party that is cancelled gives its
place in `_count` back.  The next one to arrive has the index of the last one that is waiting, if
that one was behind the cancelled party.

A party may also come out of `waiter.swait()` with its event not set: `Task.run` switches to it, and
so does the exit of a task that does not catch what the party has thrown into it.  It returns, and
the barrier still counts it.

The calls of `swait` and `wait` are numbered; the number also stands for the `Event` that a call
waits for.  `parties` is positive, since `__init__` raises `ValueError` otherwise.
-/

namespace Pytealet.Locks.Barrier

open Lib Lib.Transition List

/-- An entry of `_waiters`. -/
structure Waiter where
  event : Nat
  index : Nat
  generation : Nat
  deriving DecidableEq, Repr

inductive Phase
  | waiting
  /-- the event has been set -/
  | released
  | returned
  /-- an exception has ended the wait -/
  | cancelled
  /-- an exception has come after the event was set -/
  | raised
  /-- it has returned although its event was not set -/
  | left
  deriving DecidableEq, Repr

/-- A call, with what `_arrive` has returned to it. -/
structure Call where
  index : Nat
  generation : Nat
  phase : Phase
  deriving DecidableEq, Repr

structure State where
  parties : Nat
  positive : 0 < parties
  count : Nat := 0
  generation : Nat := 0
  waiters : List Waiter := []
  calls : Nat → Option Call := fun _ => none
  nextCall : Nat := 0

namespace State

def setCall (s : State) (i : Nat) (c : Call) : State :=
  { s with calls := Function.update s.calls i (some c) }

/-- The events of `_waiters` are set. -/
def setEvents (s : State) : State :=
  { s with
    waiters := []
    calls := fun i =>
      if s.waiters.any fun w => w.event = i then
        (s.calls i).map fun c => if c.phase = .waiting then { c with phase := .released } else c
      else s.calls i }

/-- `_arrive`, and the return of a call that need not wait. -/
def arrive (s : State) : State :=
  let i := s.nextCall
  let index := s.parties - s.count - 1
  let s₁ := { s with count := s.count + 1, nextCall := i + 1 }
  if s₁.count = s₁.parties then
    let s₂ := { s₁ with count := 0, generation := s.generation + 1 }
    s₂.setEvents.setCall i ⟨0, s.generation, .returned⟩
  else
    { s₁.setCall i ⟨index, s.generation, .waiting⟩ with waiters := s.waiters ++ [⟨i, index, s.generation⟩] }

def cancelWaiter (s : State) (w : Waiter) : State :=
  if w ∈ s.waiters then
    let s₁ := { s with waiters := s.waiters.erase w }
    if w.generation = s.generation ∧ 0 < s.count then { s₁ with count := s.count - 1 } else s₁
  else s

end State

inductive Action
  | arrive
  /-- a call whose event is set returns -/
  | wake (i : Nat)
  /-- a call returns whose event is not set -/
  | steal (i : Nat)
  /-- an exception leaves the wait of a call -/
  | cancel (i : Nat)
  deriving DecidableEq, Repr

def step (s : State) : Action → Option State
  | .arrive => some s.arrive
  | .wake i =>
    match s.calls i with
    | some ⟨index, generation, .released⟩ => some (s.setCall i ⟨index, generation, .returned⟩)
    | _ => none
  | .steal i =>
    match s.calls i with
    | some ⟨index, generation, .waiting⟩ => some (s.setCall i ⟨index, generation, .left⟩)
    | _ => none
  | .cancel i =>
    match s.calls i with
    | some ⟨index, generation, .waiting⟩ =>
      some ((s.cancelWaiter ⟨i, index, generation⟩).setCall i ⟨index, generation, .cancelled⟩)
    | some ⟨index, generation, .released⟩ =>
      some ((s.cancelWaiter ⟨i, index, generation⟩).setCall i ⟨index, generation, .raised⟩)
    | _ => none

def init (parties : ℕ+) : State where
  parties := parties
  positive := parties.pos

namespace State

/-- The call waits in the current generation. -/
def waits (s : State) (i : Nat) : Bool :=
  match s.calls i with
  | some c => decide (c.phase = .waiting ∧ c.generation = s.generation)
  | none => false

/-- `_count` is the number of parties that wait in the current generation. -/
def Counted (s : State) : Prop :=
  s.count = (List.range s.nextCall).countP s.waits

/-- The call has been released in this generation, with this index. -/
def Freed (s : State) (generation i index : Nat) : Prop :=
  ∃ c, s.calls i = some c ∧ c.generation = generation ∧ c.index = index ∧
    (c.phase = .released ∨ c.phase = .returned ∨ c.phase = .raised)

/-- The parties that have been released together have the indices below `parties`, each one once. -/
def Exact (s : State) : Prop :=
  ∀ generation < s.generation, (∀ i index, s.Freed generation i index → index < s.parties) ∧
    ∀ index, index < s.parties → ∃! i, s.Freed generation i index

/-- Every party has the index of its place in `_waiters`: none was behind one that has been
cancelled since. -/
def InPlace (s : State) : Prop :=
  ∀ (k : Nat) (w : Waiter), s.waiters[k]? = some w → w.index = s.parties - 1 - k

/-- Nobody returns who has not been released. -/
def Together (_ : State) : Action → Prop
  | .steal _ => False
  | _ => True

/-- The last party to arrive finds every other one with the index of its place. -/
def Clear (s : State) : Action → Prop
  | .arrive => s.count + 1 = s.parties → s.InPlace
  | .steal _ => False
  | _ => True

end State

variable {s s' : State} {i : Nat}

/-! ## Calls -/

theorem calls_setCall {c d : Call} {j : Nat} (h : (s.setCall i c).calls j = some d) :
    j = i ∧ d = c ∨ j ≠ i ∧ s.calls j = some d := by
  simp only [State.setCall, Function.update_apply] at h
  split at h
  · rename_i heq
    cases h
    exact .inl ⟨heq, rfl⟩
  · rename_i hne
    exact .inr ⟨hne, h⟩

theorem calls_setCall_self (s : State) (i : Nat) (c : Call) : (s.setCall i c).calls i = some c := by
  simp [State.setCall]

theorem calls_setCall_of_ne (s : State) (c : Call) {j : Nat} (h : j ≠ i) :
    (s.setCall i c).calls j = s.calls j := by
  simp [State.setCall, h]

/-! ## The invariant -/

/-- `_waiters` has the waiting calls, in the order of their arrival. -/
structure Inv (s : State) : Prop where
  len : s.count = s.waiters.length
  room : s.waiters.length < s.parties
  nodup : (s.waiters.map Waiter.event).Nodup
  entries : ∀ w ∈ s.waiters, s.calls w.event = some ⟨w.index, w.generation, .waiting⟩
  waiting : ∀ (i : Nat) (c : Call), s.calls i = some c → c.phase = .waiting →
    ⟨i, c.index, c.generation⟩ ∈ s.waiters
  current : ∀ w ∈ s.waiters, w.generation = s.generation
  known : ∀ (i : Nat) (c : Call), s.calls i = some c → i < s.nextCall
  /-- who has been released belongs to a generation that is over -/
  past : ∀ (i : Nat) (c : Call), s.calls i = some c →
    c.phase = .released ∨ c.phase = .returned ∨ c.phase = .raised → c.generation < s.generation
  /-- a party that arrives has at most as many others before it as there are in `_count` -/
  low : ∀ (k : Nat) (w : Waiter), s.waiters[k]? = some w → w.index ≤ s.parties - 1 - k

namespace Inv

theorem init (parties : ℕ+) : Inv (init parties) where
  len := rfl
  room := parties.pos
  nodup := nodup_nil
  entries := nofun
  waiting := nofun
  current := nofun
  known := nofun
  past := nofun
  low := nofun

theorem counted (h : Inv s) : s.Counted := by
  have hmem : ∀ i, s.waits i = true ↔ i ∈ s.waiters.map Waiter.event := by
    intro i
    unfold State.waits
    constructor
    · intro hw
      split at hw
      · rename_i c hc
        have hphase := of_decide_eq_true hw
        exact mem_map.2 ⟨_, h.waiting i c hc hphase.1, rfl⟩
      · cases hw
    · intro hw
      rcases mem_map.1 hw with ⟨w, hmem, rfl⟩
      rw [h.entries w hmem]
      exact decide_eq_true ⟨rfl, h.current w hmem⟩
  have hperm : ((List.range s.nextCall).filter s.waits).Perm (s.waiters.map Waiter.event) := by
    refine (perm_ext_iff_of_nodup (nodup_range.filter _) h.nodup).2 fun i => ?_
    rw [mem_filter, hmem, mem_range]
    refine ⟨fun hi => hi.2, fun hi => ⟨?_, hi⟩⟩
    rcases mem_map.1 hi with ⟨w, hmem, rfl⟩
    exact h.known _ _ (h.entries w hmem)
  unfold State.Counted
  rw [countP_eq_length_filter, hperm.length_eq, length_map]
  exact h.len

theorem entry_unique (h : Inv s) {w w' : Waiter} (hw : w ∈ s.waiters) (hw' : w' ∈ s.waiters)
    (heq : w.event = w'.event) : w = w' :=
  inj_on_of_nodup_map h.nodup hw hw' heq

theorem setCall (h : Inv s) {c d : Call} (hi : s.calls i = some c) (hc : c.phase ≠ .waiting)
    (hd : d.phase ≠ .waiting)
    (hpast : d.phase = .released ∨ d.phase = .returned ∨ d.phase = .raised → d.generation < s.generation) :
    Inv (s.setCall i d) := by
  refine ⟨h.len, h.room, h.nodup, fun w hw => ?_, fun j e hj he => ?_, h.current,
    fun j e hj => ?_, fun j e hj he => ?_,
    h.low⟩
  · have hold := h.entries w hw
    rw [calls_setCall_of_ne s d fun heq => ?_]
    · exact hold
    · rw [heq, hi] at hold
      cases hold
      exact hc rfl
  · rcases calls_setCall hj with ⟨-, rfl⟩ | ⟨-, hj⟩
    · exact absurd he hd
    · exact h.waiting j e hj he
  · rcases calls_setCall hj with ⟨rfl, -⟩ | ⟨-, hj⟩
    · exact h.known j c hi
    · exact h.known j e hj
  · rcases calls_setCall hj with ⟨-, rfl⟩ | ⟨-, hj⟩
    · exact hpast he
    · exact h.past j e hj he

theorem cancelWaiting (h : Inv s) {c : Call} (hi : s.calls i = some c) (hc : c.phase = .waiting) :
    Inv ((s.cancelWaiter ⟨i, c.index, c.generation⟩).setCall i ⟨c.index, c.generation, .cancelled⟩) := by
  have hmem := h.waiting i c hi hc
  have hpos : 0 < s.count := by
    rw [h.len]
    exact length_pos_of_mem hmem
  have hcancel : s.cancelWaiter ⟨i, c.index, c.generation⟩ =
      { s with waiters := s.waiters.erase ⟨i, c.index, c.generation⟩, count := s.count - 1 } := by
    unfold State.cancelWaiter
    rw [if_pos hmem]
    exact if_pos ⟨h.current _ hmem, hpos⟩
  rw [hcancel]
  have hlen := length_erase_of_mem hmem
  have hnodup : s.waiters.Nodup := h.nodup.of_map
  refine ⟨?_, ?_, ?_, fun w hw => ?_, fun j e hj he => ?_, fun w hw => ?_,
    fun j e hj => ?_, fun j e hj he => ?_,
    fun k w hk => ?_⟩
  · exact (congrArg (· - 1) h.len).trans hlen.symm
  · exact lt_of_le_of_lt erase_sublist.length_le h.room
  · exact h.nodup.sublist (erase_sublist.map _)
  · rcases (hnodup.mem_erase_iff).1 hw with ⟨hne, hw⟩
    have hevent : w.event ≠ i := fun heq => hne (h.entry_unique hw hmem heq)
    exact (calls_setCall_of_ne _ _ hevent).trans (h.entries w hw)
  · rcases calls_setCall hj with ⟨-, rfl⟩ | ⟨hne, hj⟩
    · cases he
    · refine (hnodup.mem_erase_iff).2 ⟨fun heq => ?_, h.waiting j e hj he⟩
      exact hne (congrArg Waiter.event heq)
  · exact h.current w (mem_of_mem_erase hw)
  · rcases calls_setCall hj with ⟨rfl, -⟩ | ⟨-, hj⟩
    · exact h.known j c hi
    · exact h.known j e hj
  · rcases calls_setCall hj with ⟨-, rfl⟩ | ⟨-, hj⟩
    · rcases he with he | he | he <;> cases he
    · exact h.past j e hj he
  · -- the place of an entry in what is left is not after its place before
    have hsub : (s.waiters.erase ⟨i, c.index, c.generation⟩).Sublist s.waiters := erase_sublist
    rcases sublist_iff_exists_orderEmbedding_getElem?_eq.1 hsub with ⟨f, hf⟩
    have hle : k ≤ f k := f.strictMono.le_apply
    have hlow := h.low (f k) w ((hf k).symm.trans hk)
    exact hlow.trans (Nat.sub_le_sub_left hle _)

theorem arriveWaiting (h : Inv s) (hmore : s.count + 1 ≠ s.parties) : Inv s.arrive := by
  have hfresh : ∀ w ∈ s.waiters, w.event ≠ s.nextCall := by
    intro w hw heq
    exact absurd (h.known _ _ (h.entries w hw)) (by rw [heq]; exact lt_irrefl _)
  have hlen := h.len
  have hroom := h.room
  unfold State.arrive
  dsimp only
  rw [if_neg hmore]
  refine ⟨?_, ?_, ?_, fun w hw => ?_, fun j e hj he => ?_, fun w hw => ?_,
    fun j e hj => ?_, fun j e hj he => ?_,
    fun k w hk => ?_⟩
  · simpa [State.setCall] using hlen
  · simp only [length_append, length_singleton, State.setCall]
    omega
  · simp only [map_append, map_singleton]
    refine nodup_append.2 ⟨h.nodup, nodup_singleton _, fun e he e' he' heq => ?_⟩
    rcases mem_map.1 he with ⟨w, hw, rfl⟩
    rw [mem_singleton.1 he'] at heq
    exact hfresh w hw heq
  · rcases mem_append.1 hw with hw | hw
    · exact (calls_setCall_of_ne _ _ (hfresh w hw)).trans (h.entries w hw)
    · cases mem_singleton.1 hw
      exact calls_setCall_self _ _ _
  · rcases calls_setCall hj with ⟨rfl, rfl⟩ | ⟨-, hj⟩
    · exact mem_append_right _ mem_cons_self
    · exact mem_append_left _ (h.waiting j e hj he)
  · rcases mem_append.1 hw with hw | hw
    · exact h.current w hw
    · cases mem_singleton.1 hw
      rfl
  · rcases calls_setCall hj with ⟨rfl, -⟩ | ⟨-, hj⟩
    · exact Nat.lt_succ_self _
    · exact Nat.lt_succ_of_lt (h.known j e hj)
  · rcases calls_setCall hj with ⟨-, rfl⟩ | ⟨-, hj⟩
    · rcases he with he | he | he <;> cases he
    · exact h.past j e hj he
  · dsimp only at hk
    rw [List.getElem?_append] at hk
    split at hk
    · exact h.low k w hk
    · rename_i hge
      rw [List.getElem?_singleton] at hk
      split at hk
      · cases hk
        simp only [State.setCall]
        omega
      · cases hk

theorem calls_release (h : Inv s) (hlast : s.count + 1 = s.parties) {j : Nat} {c : Call}
    (hj : s.arrive.calls j = some c) : j = s.nextCall ∧ c = ⟨0, s.generation, .returned⟩ ∨
      (∃ w ∈ s.waiters, w.event = j ∧ c = ⟨w.index, w.generation, .released⟩) ∨
      s.calls j = some c ∧ c.phase ≠ .waiting := by
  unfold State.arrive at hj
  dsimp only at hj
  rw [if_pos hlast] at hj
  rcases calls_setCall hj with hnew | ⟨-, hj⟩
  · exact .inl hnew
  · simp only [State.setEvents] at hj
    split at hj
    · rename_i hany
      rcases any_eq_true.1 hany with ⟨w, hw, heq⟩
      have hevent : w.event = j := by simpa using heq
      have hentry := h.entries w hw
      rw [hevent] at hentry
      rw [hentry] at hj
      cases hj
      exact .inr (.inl ⟨w, hw, hevent, rfl⟩)
    · rename_i hany
      refine .inr (.inr ⟨hj, fun hwaiting => hany ?_⟩)
      exact any_eq_true.2 ⟨_, h.waiting j c hj hwaiting, by simp⟩

theorem release (h : Inv s) (hlast : s.count + 1 = s.parties) : Inv s.arrive := by
  have hcases := @calls_release s h hlast
  have harrive : s.arrive.waiters = [] ∧ s.arrive.count = 0 ∧ s.arrive.parties = s.parties ∧
      s.arrive.generation = s.generation + 1 ∧ s.arrive.nextCall = s.nextCall + 1 := by
    unfold State.arrive
    dsimp only
    rw [if_pos hlast]
    exact ⟨rfl, rfl, rfl, rfl, rfl⟩
  rcases harrive with ⟨hwaiters, hcount, hparties, hgeneration, hnext⟩
  refine ⟨?_, ?_, ?_, ?_, fun j e hj he => ?_, ?_, fun j e hj => ?_, fun j e hj he => ?_, ?_⟩
  · rw [hcount, hwaiters]
    rfl
  · rw [hparties, hwaiters]
    exact s.positive
  · rw [hwaiters]
    exact nodup_nil
  · rw [hwaiters]
    exact nofun
  · rcases hcases hj with ⟨-, rfl⟩ | ⟨w, -, -, rfl⟩ | ⟨-, hne⟩
    · cases he
    · cases he
    · exact absurd he hne
  · rw [hwaiters]
    exact nofun
  · rw [hnext]
    rcases hcases hj with ⟨rfl, -⟩ | ⟨w, hw, rfl, -⟩ | ⟨hj, -⟩
    · exact Nat.lt_succ_self _
    · exact Nat.lt_succ_of_lt (h.known _ _ (h.entries w hw))
    · exact Nat.lt_succ_of_lt (h.known j e hj)
  · rw [hgeneration]
    rcases hcases hj with ⟨-, rfl⟩ | ⟨w, hw, -, rfl⟩ | ⟨hj, -⟩
    · exact Nat.lt_succ_self _
    · exact Nat.lt_succ_of_le (le_of_eq (h.current w hw))
    · exact Nat.lt_succ_of_lt (h.past j e hj he)
  · rw [hwaiters]
    exact nofun

theorem arrive (h : Inv s) : Inv s.arrive := by
  by_cases hlast : s.count + 1 = s.parties
  · exact h.release hlast
  · exact h.arriveWaiting hlast

theorem cancelWaiter_of_released (h : Inv s) {index generation : Nat} {c : Call} (hi : s.calls i = some c)
    (hc : c.phase ≠ .waiting) : s.cancelWaiter ⟨i, index, generation⟩ = s := by
  refine if_neg fun hmem => ?_
  have hentry := h.entries _ hmem
  rw [hi] at hentry
  cases hentry
  exact hc rfl

/-- `_waiters` stays the list of the calls that wait, as nobody is resumed before the release. -/
theorem step {a : Action} (h : Inv s) (ha : s.Together a) (hs : Barrier.step s a = some s') : Inv s' := by
  cases a with
  | steal i => exact absurd ha id
  | arrive =>
    cases hs
    exact h.arrive
  | wake i =>
    simp only [Barrier.step] at hs
    split at hs
    · rename_i hi
      cases hs
      have hpast := h.past i _ hi (.inl rfl)
      exact h.setCall hi nofun nofun fun _ => hpast
    · cases hs
  | cancel i =>
    simp only [Barrier.step] at hs
    split at hs
    · rename_i hi
      cases hs
      exact h.cancelWaiting hi rfl
    · rename_i hi
      cases hs
      have hpast := h.past i _ hi (.inl rfl)
      rw [h.cancelWaiter_of_released hi nofun]
      exact h.setCall hi nofun nofun fun _ => hpast
    · cases hs

/-- A party that returns before it is released is counted, and waits no more. -/
theorem not_counted (h : Inv s) {index generation : Nat}
    (hi : s.calls i = some ⟨index, generation, .waiting⟩) :
    ¬ (s.setCall i ⟨index, generation, .left⟩).Counted := by
  have hwaits : s.waits i = true := by
    rw [State.waits, hi]
    exact decide_eq_true ⟨rfl, h.current _ (h.waiting i _ hi rfl)⟩
  have hleft : (s.setCall i ⟨index, generation, .left⟩).waits i = false := by
    rw [State.waits, calls_setCall_self]
    exact decide_eq_false nofun
  have hfilter : (List.range s.nextCall).filter (s.setCall i ⟨index, generation, .left⟩).waits =
      ((List.range s.nextCall).filter s.waits).filter (s.setCall i ⟨index, generation, .left⟩).waits := by
    rw [filter_filter]
    refine filter_congr fun j _ => ?_
    by_cases hj : j = i
    · rw [hj, hleft, Bool.false_and]
    · have hsame : (s.setCall i ⟨index, generation, .left⟩).waits j = s.waits j := by
        rw [State.waits, calls_setCall_of_ne s _ hj]
        rfl
      rw [hsame, Bool.and_self]
  have hless : (((List.range s.nextCall).filter s.waits).filter
      (s.setCall i ⟨index, generation, .left⟩).waits).length <
        ((List.range s.nextCall).filter s.waits).length :=
    length_filter_lt_length_iff_exists.2
      ⟨i, mem_filter.2 ⟨mem_range.2 (h.known i _ hi), hwaits⟩, by simp [hleft]⟩
  rw [← hfilter] at hless
  have hcount := h.counted
  unfold State.Counted at hcount ⊢
  rw [countP_eq_length_filter] at hcount ⊢
  exact fun heq => absurd (hcount.symm.trans heq) (Nat.ne_of_gt hless)

end Inv

/-! ## The indices of a generation -/

theorem exact_of_freed (h : s.Exact) (hparties : s'.parties = s.parties)
    (hgeneration : s'.generation = s.generation)
    (hfreed : ∀ generation i index, s'.Freed generation i index ↔ s.Freed generation i index) :
      s'.Exact := by
  intro generation hlt
  simp only [hfreed, hparties]
  exact h generation (hgeneration ▸ hlt)

theorem freed_setCall {index generation : Nat} {p q : Phase} (hi : s.calls i = some ⟨index, generation, p⟩)
    (hphase : (q = .released ∨ q = .returned ∨ q = .raised) ↔ (p = .released ∨ p = .returned ∨ p = .raised))
    (g j x : Nat) : (s.setCall i ⟨index, generation, q⟩).Freed g j x ↔ s.Freed g j x := by
  unfold State.Freed
  by_cases heq : j = i
  · subst heq
    rw [calls_setCall_self, hi]
    constructor
    · rintro ⟨e, he, hg, hx, hp⟩
      cases he
      exact ⟨_, rfl, hg, hx, hphase.1 hp⟩
    · rintro ⟨e, he, hg, hx, hp⟩
      cases he
      exact ⟨_, rfl, hg, hx, hphase.2 hp⟩
  · rw [calls_setCall_of_ne s _ heq]

namespace Inv

theorem freed_arriveWaiting (h : Inv s) (hmore : s.count + 1 ≠ s.parties) (generation j index : Nat) :
    s.arrive.Freed generation j index ↔ s.Freed generation j index := by
  unfold State.arrive
  dsimp only
  rw [if_neg hmore]
  constructor
  · rintro ⟨c, hc, hrest⟩
    rcases calls_setCall hc with ⟨-, rfl⟩ | ⟨-, hc⟩
    · rcases hrest with ⟨-, -, hp | hp | hp⟩ <;> cases hp
    · exact ⟨c, hc, hrest⟩
  · rintro ⟨c, hc, hrest⟩
    exact ⟨c, (calls_setCall_of_ne _ _ (ne_of_lt (h.known j c hc))).trans hc, hrest⟩

theorem freed_release (h : Inv s) (hlast : s.count + 1 = s.parties) {generation : Nat}
    (hlt : generation < s.generation)
    (j index : Nat) : s.arrive.Freed generation j index ↔ s.Freed generation j index := by
  constructor
  · rintro ⟨c, hc, hg, hx, hp⟩
    rcases h.calls_release hlast hc with ⟨-, rfl⟩ | ⟨w, hw, -, rfl⟩ | ⟨hc, -⟩
    · exact absurd hg (Nat.ne_of_gt hlt)
    · exact absurd (hg.symm.trans (h.current w hw)) (ne_of_lt hlt)
    · exact ⟨c, hc, hg, hx, hp⟩
  · rintro ⟨c, hc, hg, hx, hp⟩
    have hne : c.phase ≠ .waiting := by
      rintro hwaiting
      rw [hwaiting] at hp
      rcases hp with hp | hp | hp <;> cases hp
    refine ⟨c, ?_, hg, hx, hp⟩
    unfold State.arrive
    dsimp only
    rw [if_pos hlast, calls_setCall_of_ne _ _ (ne_of_lt (h.known j c hc))]
    simp only [State.setEvents]
    split
    · rw [hc, Option.map_some, if_neg hne]
    · exact hc

theorem freed_now (h : Inv s) (hlast : s.count + 1 = s.parties) (j index : Nat) :
    s.arrive.Freed s.generation j index ↔
      j = s.nextCall ∧ index = 0 ∨ ∃ w ∈ s.waiters, w.event = j ∧ w.index = index := by
  constructor
  · rintro ⟨c, hc, hg, hx, hp⟩
    rcases h.calls_release hlast hc with ⟨hj, rfl⟩ | ⟨w, hw, hevent, rfl⟩ | ⟨hc, -⟩
    · exact .inl ⟨hj, hx.symm⟩
    · exact .inr ⟨w, hw, hevent, hx⟩
    · exact absurd hg (ne_of_lt (h.past j c hc hp))
  · unfold State.arrive
    dsimp only
    rw [if_pos hlast]
    rintro (⟨rfl, rfl⟩ | ⟨w, hw, rfl, rfl⟩)
    · exact ⟨_, calls_setCall_self _ _ _, rfl, rfl, .inr (.inl rfl)⟩
    · have hentry := h.entries w hw
      refine ⟨⟨w.index, w.generation, .released⟩, ?_, h.current w hw, rfl, .inl rfl⟩
      rw [calls_setCall_of_ne _ _ (ne_of_lt (h.known _ _ hentry))]
      simp only [State.setEvents]
      rw [if_pos (any_eq_true.2 ⟨w, hw, by simp⟩), hentry]
      rfl

theorem exact_release (h : Inv s) (hlast : s.count + 1 = s.parties)
    (hexact : s.Exact) (hplace : s.InPlace) :
    s.arrive.Exact := by
  have harrive : s.arrive.parties = s.parties ∧ s.arrive.generation = s.generation + 1 := by
    unfold State.arrive
    dsimp only
    rw [if_pos hlast]
    exact ⟨rfl, rfl⟩
  rcases harrive with ⟨hparties, hgeneration⟩
  have hlen := h.len
  intro generation hlt
  rw [hgeneration] at hlt
  rw [hparties]
  rcases Nat.lt_succ_iff_lt_or_eq.1 hlt with hlt | rfl
  · simp only [h.freed_release hlast hlt]
    exact hexact generation hlt
  · simp only [h.freed_now hlast]
    -- an entry is at the place that its index says
    have hpos : ∀ w ∈ s.waiters, 0 < w.index ∧ w.index < s.parties ∧
        s.waiters[s.parties - 1 - w.index]? = some w := by
      intro w hw
      rcases mem_iff_getElem?.1 hw with ⟨k, hk⟩
      have hindex := hplace k w hk
      have hk' := (List.getElem?_eq_some_iff.1 hk).1
      refine ⟨by omega, by omega, ?_⟩
      rw [show s.parties - 1 - w.index = k by omega]
      exact hk
    constructor
    · rintro j index (⟨-, rfl⟩ | ⟨w, hw, -, rfl⟩)
      · exact s.positive
      · exact (hpos w hw).2.1
    · intro index hindex
      rcases Nat.eq_zero_or_pos index with rfl | hgt
      · refine ⟨s.nextCall, .inl ⟨rfl, rfl⟩, ?_⟩
        rintro j (⟨hj, -⟩ | ⟨w, hw, -, hzero⟩)
        · exact hj
        · exact absurd hzero (Nat.ne_of_gt (hpos w hw).1)
      · have hk : s.parties - 1 - index < s.waiters.length := by omega
        have hw := List.getElem?_eq_getElem hk
        have hplaced := hplace _ _ hw
        refine ⟨(s.waiters[s.parties - 1 - index]).event, .inr ⟨_, getElem_mem hk, rfl, by omega⟩, ?_⟩
        rintro j (⟨-, hzero⟩ | ⟨w, hmem, rfl, rfl⟩)
        · exact absurd hzero (Nat.ne_of_gt hgt)
        · have hself := (hpos w hmem).2.2
          rw [hw] at hself
          exact congrArg Waiter.event (Option.some_inj.1 hself).symm

theorem inPlace_of_exact (h : Inv s) (hlast : s.count + 1 = s.parties) (hexact : s.arrive.Exact) :
    s.InPlace := by
  have harrive : s.arrive.parties = s.parties ∧ s.arrive.generation = s.generation + 1 := by
    unfold State.arrive
    dsimp only
    rw [if_pos hlast]
    exact ⟨rfl, rfl⟩
  have hlen := h.len
  have hall := (hexact s.generation (harrive.2 ▸ Nat.lt_succ_self _)).2
  rw [harrive.1] at hall
  intro k
  -- index `parties - 1 - k` belongs to somebody at `k` or before, and those before have theirs
  induction k using Nat.strongRecOn with
  | ind k ih =>
    intro w hk
    have hlt := (List.getElem?_eq_some_iff.1 hk).1
    rcases hall (s.parties - 1 - k) (by omega) with ⟨j, hfreed, -⟩
    rcases (h.freed_now hlast j _).1 hfreed with ⟨-, hzero⟩ | ⟨v, hv, -, hindex⟩
    · omega
    · rcases mem_iff_getElem?.1 hv with ⟨k', hk'⟩
      have hlt' := (List.getElem?_eq_some_iff.1 hk').1
      have hlow := h.low k' v hk'
      rcases Nat.lt_trichotomy k' k with hbefore | rfl | hafter
      · have hother := ih k' hbefore v hk'
        omega
      · rw [hk] at hk'
        cases hk'
        exact hindex
      · omega

theorem exact_step {a : Action} (h : Inv s) (hexact : s.Exact) (hc : s.Clear a)
    (hs : Barrier.step s a = some s') :
    s'.Exact := by
  cases a with
  | steal i => exact absurd hc id
  | arrive =>
    cases hs
    by_cases hlast : s.count + 1 = s.parties
    · exact h.exact_release hlast hexact (hc hlast)
    · have harrive : s.arrive.parties = s.parties ∧ s.arrive.generation = s.generation := by
        unfold State.arrive
        dsimp only
        rw [if_neg hlast]
        exact ⟨rfl, rfl⟩
      exact exact_of_freed hexact harrive.1 harrive.2 (h.freed_arriveWaiting hlast)
  | wake i =>
    simp only [Barrier.step] at hs
    split at hs
    · rename_i hi
      cases hs
      exact exact_of_freed hexact rfl rfl (freed_setCall hi (by simp))
    · cases hs
  | cancel i =>
    have hsame : ∀ w, (s.cancelWaiter w).parties = s.parties ∧
        (s.cancelWaiter w).generation = s.generation ∧
        (s.cancelWaiter w).calls = s.calls := by
      intro w
      unfold State.cancelWaiter
      split
      · dsimp only
        split
        · exact ⟨rfl, rfl, rfl⟩
        · exact ⟨rfl, rfl, rfl⟩
      · exact ⟨rfl, rfl, rfl⟩
    have hfreed : ∀ w generation j index,
        (s.cancelWaiter w).Freed generation j index ↔ s.Freed generation j index := by
      intro w generation j index
      unfold State.Freed
      rw [(hsame w).2.2]
    simp only [Barrier.step] at hs
    split at hs
    · rename_i index generation hi
      cases hs
      refine exact_of_freed hexact (hsame _).1 (hsame _).2.1 fun g j x => ?_
      have hcall := (congrFun (hsame ⟨i, index, generation⟩).2.2 i).trans hi
      exact (freed_setCall hcall (by simp) g j x).trans (hfreed _ g j x)
    · rename_i index generation hi
      cases hs
      refine exact_of_freed hexact (hsame _).1 (hsame _).2.1 fun g j x => ?_
      have hcall := (congrFun (hsame ⟨i, index, generation⟩).2.2 i).trans hi
      exact (freed_setCall hcall (by simp) g j x).trans (hfreed _ g j x)
    · cases hs

end Inv

/-! ## Runs -/

/-- `_count` is right throughout a run if and only if nobody returns who has not been released; it
is right and the indices are exact if and only if, moreover, every last party to arrive finds the
others in place. -/
theorem barrier_indices (parties : ℕ+) (run : List Action) :
    (Always step State.Counted (init parties) run ↔ Along step State.Together (init parties) run) ∧
      (Always step (fun s => s.Counted ∧ s.Exact) (init parties) run ↔
        Along step State.Clear (init parties) run) := by
  have hsteal : ∀ {s s' : State} {i : Nat}, Inv s → step s (.steal i) = some s' → ¬ s'.Counted := by
    intro s s' i hI hs
    simp only [step] at hs
    split at hs
    · rename_i hi
      cases hs
      exact hI.not_counted hi
    · cases hs
  constructor
  · refine always_iff_along (I := Inv) (fun _ hI => hI.counted) (fun _ _ _ hI ha hs => hI.step ha hs)
      (fun s a s' hI ha hs => ?_) run _ (Inv.init parties)
    cases a with
    | steal i => exact hsteal hI hs
    | _ => exact absurd trivial ha
  · have htogether : ∀ (s : State) (a : Action), s.Clear a → s.Together a := by
      intro s a hc
      cases a with
      | steal i => exact hc
      | _ => trivial
    refine always_iff_along (I := fun s => Inv s ∧ s.Exact) (fun _ hI => ⟨hI.1.counted, hI.2⟩)
      (fun _ a _ hI hc hs => ⟨hI.1.step (htogether _ a hc) hs, hI.1.exact_step hI.2 hc hs⟩)
      (fun s a s' hI hc hs hboth => ?_) run _
      ⟨Inv.init parties, fun _ hlt => absurd hlt (Nat.not_lt_zero _)⟩
    cases a with
    | arrive =>
      cases hs
      exact hc fun hlast => hI.1.inPlace_of_exact hlast hboth.2
    | steal i => exact hsteal hI.1 hs hboth.1
    | _ => exact hc trivial

/-- Three parties: the first one to arrive is cancelled, and the next one gets the index of the
second. -/
theorem cancelled_party_repeats_index : ∃ s,
    exec step (init 3) [.arrive, .arrive, .cancel 0, .arrive, .arrive, .wake 1, .wake 2] = some s ∧
    s.calls 1 = some ⟨1, 0, .returned⟩ ∧ s.calls 2 = some ⟨1, 0, .returned⟩ ∧ ¬ s.Exact := by
  refine ⟨_, rfl, rfl, rfl, fun h => ?_⟩
  rcases (h 0 (by decide)).2 1 (by decide) with ⟨i, -, hunique⟩
  have hone := hunique 1 ⟨_, rfl, rfl, rfl, .inr (.inl rfl)⟩
  have htwo := hunique 2 ⟨_, rfl, rfl, rfl, .inr (.inl rfl)⟩
  exact absurd (hone.trans htwo.symm) (by decide)

end Pytealet.Locks.Barrier
