import Mathlib.Data.List.Pairwise
import Mathlib.Data.List.Sort

/-!
# Line — numbered parties that wait in a line and act from its head

Parties are numbered in the order in which they arrive, and `next` is the number of the next one.
`waiting` is the line, `log` the numbers of those that acted, oldest first; a party may act several
times before it leaves.

* `Ordered next waiting log` — the line is in order of arrival, the log is in order of arrival, and
  nobody who acted came after somebody who still waits.
* `Move` — what may happen: parties leave, a new one arrives, the head acts.

A move keeps the order, so whoever only makes moves acts in order of arrival.
-/

namespace Lib.Line

open List

structure Ordered (next : Nat) (waiting log : List Nat) : Prop where
  waiting_sorted : waiting.Pairwise (· < ·)
  log_sorted : log.Pairwise (· ≤ ·)
  served : ∀ i ∈ log, ∀ j ∈ waiting, i ≤ j
  waiting_lt : ∀ j ∈ waiting, j < next
  log_lt : ∀ i ∈ log, i < next

inductive Move (next : Nat) (waiting log : List Nat) : Nat → List Nat → List Nat → Prop
  /-- parties leave -/
  | leave {w : List Nat} : w.Sublist waiting → Move next waiting log next w log
  /-- the head acts, and parties leave -/
  | act {w : List Nat} (i : Nat) (rest : List Nat) (times : Nat) : waiting = i :: rest →
      w.Sublist waiting → Move next waiting log next w (log ++ List.replicate times i)
  /-- a party arrives, and parties leave -/
  | arrive {w : List Nat} : w.Sublist (waiting ++ [next]) → Move next waiting log (next + 1) w log
  /-- a party arrives at an empty line and acts -/
  | arriveAct {w : List Nat} (times : Nat) : waiting = [] → w.Sublist [next] →
      Move next waiting log (next + 1) w (log ++ List.replicate times next)

theorem Ordered.nil : Ordered 0 [] [] where
  waiting_sorted := List.Pairwise.nil
  log_sorted := List.Pairwise.nil
  served := by simp
  waiting_lt := by simp
  log_lt := by simp

section

variable {next next' : Nat} {waiting waiting' log log' : List Nat}

theorem Ordered.leave (h : Ordered next waiting log) (hw : waiting'.Sublist waiting) :
    Ordered next waiting' log where
  waiting_sorted := h.waiting_sorted.sublist hw
  log_sorted := h.log_sorted
  served := fun i hi j hj => h.served i hi j (hw.subset hj)
  waiting_lt := fun j hj => h.waiting_lt j (hw.subset hj)
  log_lt := h.log_lt

theorem Ordered.arrive (h : Ordered next waiting log) :
    Ordered (next + 1) (waiting ++ [next]) log where
  waiting_sorted := by
    rw [pairwise_append]
    refine ⟨h.waiting_sorted, pairwise_singleton _ _, ?_⟩
    intro a ha b hb
    rw [mem_singleton] at hb
    exact hb ▸ h.waiting_lt a ha
  log_sorted := h.log_sorted
  served := by
    intro i hi j hj
    rcases mem_append.1 hj with hj | hj
    · exact h.served i hi j hj
    · rw [mem_singleton] at hj
      exact hj ▸ (h.log_lt i hi).le
  waiting_lt := by
    intro j hj
    rcases mem_append.1 hj with hj | hj
    · exact Nat.lt_succ_of_lt (h.waiting_lt j hj)
    · rw [mem_singleton] at hj
      omega
  log_lt := fun i hi => Nat.lt_succ_of_lt (h.log_lt i hi)

/-- The head is no later than anybody in the line, and no earlier than anybody in the log. -/
theorem Ordered.act {i : Nat} {rest : List Nat} (h : Ordered next (i :: rest) log) (times : Nat) :
    Ordered next (i :: rest) (log ++ List.replicate times i) where
  waiting_sorted := h.waiting_sorted
  log_sorted := by
    rw [pairwise_append]
    refine ⟨h.log_sorted, ?_, ?_⟩
    · exact pairwise_replicate.2 (Or.inr (le_refl i))
    · intro a ha b hb
      rw [eq_of_mem_replicate hb]
      exact h.served a ha i (mem_cons_self ..)
  served := by
    intro a ha j hj
    rcases mem_append.1 ha with ha | ha
    · exact h.served a ha j hj
    · rw [eq_of_mem_replicate ha]
      rcases mem_cons.1 hj with rfl | hj
      · exact le_refl _
      · exact ((pairwise_cons.1 h.waiting_sorted).1 j hj).le
  waiting_lt := h.waiting_lt
  log_lt := by
    intro a ha
    rcases mem_append.1 ha with ha | ha
    · exact h.log_lt a ha
    · rw [eq_of_mem_replicate ha]
      exact h.waiting_lt i (mem_cons_self ..)

theorem Move.ordered (hm : Move next waiting log next' waiting' log') (h : Ordered next waiting log) :
    Ordered next' waiting' log' := by
  cases hm with
  | leave hw => exact h.leave hw
  | act i rest times hi hw =>
    subst hi
    exact (h.act times).leave hw
  | arrive hw => exact h.arrive.leave hw
  | arriveAct times he hw =>
    subst he
    exact (h.arrive.act times).leave hw

end

/-- In a log in order of arrival, what lies between two acts of one party is that party's own. -/
theorem contiguous {log l m r : List Nat} {i : Nat} (h : log.Pairwise (· ≤ ·))
    (hsplit : log = l ++ i :: (m ++ i :: r)) : ∀ j ∈ m, j = i := by
  intro j hj
  subst hsplit
  have htail := (pairwise_append.1 h).2.1
  have hfirst : i ≤ j := (pairwise_cons.1 htail).1 j (mem_append_left _ hj)
  have hlast : j ≤ i :=
    (pairwise_append.1 (pairwise_cons.1 htail).2).2.2 j hj i (mem_cons_self ..)
  exact Nat.le_antisymm hlast hfirst

end Lib.Line
