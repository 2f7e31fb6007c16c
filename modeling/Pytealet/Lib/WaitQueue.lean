import Mathlib.Data.List.Nodup
import Mathlib.Data.List.Perm.Basic
import Mathlib.Data.List.ReduceOption

/-!
# WaitQueue — parties that wait in a line and are woken before they run

A party that waits is first *parked* in a FIFO line.  A wake takes it out of the line and leaves it
*woken*: it has been chosen, but it has not had its turn yet.  A party leaves when it has its turn,
or when its wait is abandoned from either place.

No party waits twice: the structure carries the proof that the two lists share no entry and repeat
none, so the operations below never have to re-establish it.
-/

namespace Lib

open List

variable {τ : Type*}

structure WaitQueue (τ : Type*) where
  parked : List τ
  woken : List τ
  nodup : (parked ++ woken).Nodup

namespace WaitQueue

/-- Nobody waits. -/
def empty : WaitQueue τ where
  parked := []
  woken := []
  nodup := nodup_nil

instance : Membership τ (WaitQueue τ) where
  mem q t := t ∈ q.parked ++ q.woken

theorem mem_iff {q : WaitQueue τ} {t : τ} : t ∈ q ↔ t ∈ q.parked ∨ t ∈ q.woken :=
  mem_append

instance [DecidableEq τ] (q : WaitQueue τ) (t : τ) : Decidable (t ∈ q) :=
  inferInstanceAs (Decidable (t ∈ q.parked ++ q.woken))

/-! ## Operations -/

/-- A party that does not wait yet joins the end of the line. -/
def park (q : WaitQueue τ) (t : τ) (h : t ∉ q) : WaitQueue τ where
  parked := q.parked ++ [t]
  woken := q.woken
  nodup := by
    -- up to order, the new party is in front of everybody else
    have hperm : (q.parked ++ [t] ++ q.woken).Perm (t :: (q.parked ++ q.woken)) := by
      rw [append_assoc]
      exact perm_middle
    exact hperm.nodup_iff.2 (nodup_cons.2 ⟨h, q.nodup⟩)

/-- The first parked party, if any, is woken. -/
def wakeNext (q : WaitQueue τ) : WaitQueue τ where
  parked := q.parked.drop 1
  woken := q.woken ++ q.parked.take 1
  nodup := by
    -- waking moves the head of the line; the parties are the same
    have hswap : (q.parked.drop 1 ++ (q.woken ++ q.parked.take 1)).Perm (q.woken ++ q.parked) := by
      have hcomm : (q.parked.drop 1 ++ (q.woken ++ q.parked.take 1)).Perm
          ((q.woken ++ q.parked.take 1) ++ q.parked.drop 1) := perm_append_comm
      rwa [append_assoc q.woken, take_append_drop] at hcomm
    exact (hswap.trans perm_append_comm).nodup_iff.2 q.nodup

/-- Every parked party is woken. -/
def wakeAll (q : WaitQueue τ) : WaitQueue τ where
  parked := []
  woken := q.woken ++ q.parked
  nodup := by
    simpa using perm_append_comm.nodup_iff.1 q.nodup

/-- A party stops waiting, wherever it was. -/
def leave [DecidableEq τ] (q : WaitQueue τ) (t : τ) : WaitQueue τ where
  parked := q.parked.erase t
  woken := q.woken.erase t
  nodup := q.nodup.sublist (erase_sublist.append erase_sublist)

section Lemmas

variable {q : WaitQueue τ} {t : τ}

@[simp] theorem empty_parked : (empty : WaitQueue τ).parked = [] := rfl
@[simp] theorem empty_woken : (empty : WaitQueue τ).woken = [] := rfl
@[simp] theorem park_parked (h : t ∉ q) : (q.park t h).parked = q.parked ++ [t] := rfl
@[simp] theorem park_woken (h : t ∉ q) : (q.park t h).woken = q.woken := rfl
@[simp] theorem wakeNext_parked : q.wakeNext.parked = q.parked.drop 1 := rfl
@[simp] theorem wakeNext_woken : q.wakeNext.woken = q.woken ++ q.parked.take 1 := rfl
@[simp] theorem wakeAll_parked : q.wakeAll.parked = [] := rfl
@[simp] theorem wakeAll_woken : q.wakeAll.woken = q.woken ++ q.parked := rfl

/-- If somebody is still parked after a wake, then the wake did reach a party. -/
theorem length_wakeNext_woken (h : q.parked ≠ []) :
    q.wakeNext.woken.length = q.woken.length + 1 := by
  cases hp : q.parked with
  | nil => exact absurd hp h
  | cons t ts => simp [hp]

theorem ne_nil_of_wakeNext_parked (h : q.wakeNext.parked ≠ []) : q.parked ≠ [] := by
  intro hp
  exact h (by simp [hp])

theorem mem_wakeNext : t ∈ q.wakeNext ↔ t ∈ q := by
  simp only [mem_iff, wakeNext_parked, wakeNext_woken, mem_append]
  -- the right side is written with the head of the line apart
  conv_rhs => rw [← take_append_drop 1 q.parked, mem_append]
  tauto

theorem mem_wakeAll : t ∈ q.wakeAll ↔ t ∈ q := by
  simp only [mem_iff, wakeAll_parked, wakeAll_woken, mem_append, not_mem_nil, false_or]
  exact or_comm

theorem not_mem_parked_of_woken (h : t ∈ q.woken) : t ∉ q.parked := fun hp =>
  (disjoint_of_nodup_append q.nodup) hp h

variable [DecidableEq τ]

theorem leave_parked : (q.leave t).parked = q.parked.erase t := rfl
theorem leave_woken : (q.leave t).woken = q.woken.erase t := rfl

theorem leave_parked_of_woken (h : t ∈ q.woken) : (q.leave t).parked = q.parked :=
  erase_of_not_mem (not_mem_parked_of_woken h)

theorem leave_woken_of_parked (h : t ∈ q.parked) : (q.leave t).woken = q.woken :=
  erase_of_not_mem fun hw => not_mem_parked_of_woken hw h

theorem length_leave_woken (h : t ∈ q.woken) :
    (q.leave t).woken.length + 1 = q.woken.length := by
  rw [leave_woken, length_erase_of_mem h]
  have := length_pos_of_mem h
  omega

theorem not_mem_leave : t ∉ q.leave t := by
  rcases nodup_append.1 q.nodup with ⟨hp, hw, -⟩
  simp [mem_iff, leave_parked, leave_woken, hp.mem_erase_iff, hw.mem_erase_iff]

theorem mem_of_mem_leave {u : τ} (h : u ∈ q.leave t) : u ∈ q := by
  rcases mem_iff.1 h with hp | hw
  · exact mem_iff.2 (Or.inl (mem_of_mem_erase hp))
  · exact mem_iff.2 (Or.inr (mem_of_mem_erase hw))

theorem parked_of_leave (h : (q.leave t).parked ≠ []) : q.parked ≠ [] := by
  intro hnil
  exact h (by simp [leave_parked, hnil])

end Lemmas

/-! ## Enough wakes -/

/-- While somebody is parked, at least `n` parties have been woken and have not had their turn. -/
def Covers (q : WaitQueue τ) (n : Nat) : Prop :=
  q.parked ≠ [] → n ≤ q.woken.length

section Covers

variable {q : WaitQueue τ} {t : τ} {n m : Nat}

theorem covers_zero : q.Covers 0 := fun _ =>
  Nat.zero_le _

theorem covers_wakeAll : q.wakeAll.Covers n := fun h =>
  absurd rfl h

theorem Covers.mono (h : q.Covers n) (hm : m ≤ n) : q.Covers m := fun hp =>
  Nat.le_trans hm (h hp)

theorem Covers.wakeNext (h : q.Covers n) : q.wakeNext.Covers (n + 1) := by
  intro hp
  have hp' : q.parked ≠ [] := ne_nil_of_wakeNext_parked hp
  rw [length_wakeNext_woken hp']
  exact Nat.succ_le_succ (h hp')

variable [DecidableEq τ]

theorem Covers.leave (h : q.Covers n) : (q.leave t).Covers (n - 1) := by
  intro hp
  have hle : n ≤ q.woken.length := h (parked_of_leave hp)
  rw [leave_woken]
  -- `t` need not be among the woken ones
  have hlen : q.woken.length ≤ (q.woken.erase t).length + 1 := by
    rw [length_erase]
    split <;> omega
  omega

theorem Covers.leave_of_parked (h : q.Covers n) (ht : t ∈ q.parked) : (q.leave t).Covers n := by
  intro hp
  rw [leave_woken_of_parked ht]
  exact h (parked_of_leave hp)

end Covers

end WaitQueue

/-! ## Places that are left behind -/

/-- A line in which the place of a party may stay when the party has gone: `line` has `none` there,
and a wake that comes to such a place is used up. -/
structure WaitLine (τ : Type*) extends WaitQueue τ where
  line : List (Option τ)
  line_eq : line.reduceOption = parked

namespace WaitLine

def empty : WaitLine τ where
  toWaitQueue := .empty
  line := []
  line_eq := rfl

instance : Membership τ (WaitLine τ) where
  mem q t := t ∈ q.toWaitQueue

theorem mem_iff {q : WaitLine τ} {t : τ} : t ∈ q ↔ t ∈ q.parked ∨ t ∈ q.woken :=
  WaitQueue.mem_iff

instance [DecidableEq τ] (q : WaitLine τ) (t : τ) : Decidable (t ∈ q) :=
  inferInstanceAs (Decidable (t ∈ q.toWaitQueue))

/-- The next wake comes to a place that was left behind. -/
def Abandoned (q : WaitLine τ) : Prop :=
  q.line.head? = some none

instance [DecidableEq τ] (q : WaitLine τ) : Decidable q.Abandoned :=
  inferInstanceAs (Decidable (_ = _))

def park (q : WaitLine τ) (t : τ) (h : t ∉ q) : WaitLine τ where
  toWaitQueue := q.toWaitQueue.park t h
  line := q.line ++ [some t]
  line_eq := by simp [reduceOption_append, q.line_eq, WaitQueue.park]

theorem reduceOption_drop_one [DecidableEq τ] (l : List (Option τ)) :
    (l.drop 1).reduceOption = if l.head? = some none then l.reduceOption else l.reduceOption.drop 1 := by
  rcases l with _ | ⟨_ | t, rest⟩
  · rfl
  · rfl
  · simp

/-- The first place goes, and its party, if it is still there, is woken. -/
def wakeNext [DecidableEq τ] (q : WaitLine τ) : WaitLine τ where
  toWaitQueue := if q.Abandoned then q.toWaitQueue else q.toWaitQueue.wakeNext
  line := q.line.drop 1
  line_eq := by
    rw [apply_ite WaitQueue.parked, WaitQueue.wakeNext_parked, ← q.line_eq]
    exact reduceOption_drop_one q.line

/-- A party stops waiting, and takes its place away if it is still in the line. -/
def leave [DecidableEq τ] (q : WaitLine τ) (t : τ) : WaitLine τ where
  toWaitQueue := q.toWaitQueue.leave t
  line := q.line.filter (· ≠ some t)
  line_eq := by
    have hnodup := (nodup_append.1 q.nodup).1
    rw [WaitQueue.leave_parked, hnodup.erase_eq_filter, ← q.line_eq]
    simp only [List.reduceOption, filterMap_filter, filter_filterMap]
    congr 1
    funext e
    cases e <;> simp [Option.filter]

/-- A party stops waiting, but its place stays. -/
def slip [DecidableEq τ] (q : WaitLine τ) (t : τ) : WaitLine τ where
  toWaitQueue := q.toWaitQueue.leave t
  line := q.line.map (Option.filter (· ≠ t))
  line_eq := by
    have hnodup := (nodup_append.1 q.nodup).1
    rw [WaitQueue.leave_parked, hnodup.erase_eq_filter, ← q.line_eq]
    simp only [List.reduceOption, filterMap_map, filter_filterMap]
    congr 1
    funext e
    cases e <;> simp [Option.filter]

section Lemmas

variable {q : WaitLine τ} {t : τ}

@[simp] theorem park_parked (h : t ∉ q) : (q.park t h).parked = q.parked ++ [t] := rfl
@[simp] theorem park_woken (h : t ∉ q) : (q.park t h).woken = q.woken := rfl

variable [DecidableEq τ]

theorem mem_wakeNext : t ∈ q.wakeNext ↔ t ∈ q := by
  simp only [Membership.mem, wakeNext]
  split
  · exact Iff.rfl
  · exact WaitQueue.mem_wakeNext

theorem wakeNext_cases (q : WaitLine τ) :
    (q.Abandoned ∧ q.wakeNext.toWaitQueue = q.toWaitQueue) ∨
      (¬ q.Abandoned ∧ q.wakeNext.toWaitQueue = q.toWaitQueue.wakeNext) := by
  by_cases h : q.Abandoned
  · exact Or.inl ⟨h, if_pos h⟩
  · exact Or.inr ⟨h, if_neg h⟩

end Lemmas

end WaitLine
end Lib
