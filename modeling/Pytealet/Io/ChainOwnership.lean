import Mathlib.Tactic.SplitIfs
import Pytealet.Io.WaitChain

/-!
# ChainOwnership — who has an intermediate resource of an `IOWaitChain`

`s.holders x` counts the places in which the resource `x` is: with a hook, with a leg, in the stored
result, or dropped.  Every call hands it from one place to another, but for one branch: a `follow`
that is refused drops its resource only if nothing has been stored yet.
-/

namespace Pytealet.Io.WaitChain.State

open Lib Lib.Transition Lib.Tally List Option Bool

/-- The places in which a resource is. -/
def holders (s : State) (x : Nat) : Nat :=
  tally (fun t : Task => t.holds.count x) s.tasks + tally (fun l : Leg => l.owned.count x) s.legs +
    (s.completion.elim [] Completion.value).count x + s.cleaned.count x + s.disposed.count x

/-- Every resource is in one place. -/
structure Accounted (s : State) : Prop where
  one : ∀ x, s.holders x = if x < s.tokens then 1 else 0
  /-- a callback that ends with an error holds nothing -/
  failed : ∀ t ∈ s.tasks, (t.frame = .erring ∨ ∃ l, t.frame = .failing l) → t.hand = []

variable {s s' : State} {i l x : Nat} {t : Task} {leg : Leg}

theorem top_eq (htop : s.top i = some t) : s.tasks[i]? = some t := by
  unfold top at htop
  split at htop
  · rename_i t' heq
    split at htop
    · cases htop
    · cases htop
      exact heq
  · cases htop

theorem at_eq_some {k : Task → Option State} (hat : s.at i k = some s') :
    ∃ t, s.tasks[i]? = some t ∧ k t = some s' := by
  unfold State.at at hat
  split at hat
  · rename_i t htop
    exact ⟨t, top_eq htop, hat⟩
  · cases hat

/-- What a step does.  `ht` is the task that takes it, `hl` the leg that it is about. -/
inductive Move (s : State) : Action → State → Prop
  | begin {n : Nat} (hlegs : s.legs = []) : Move s (.begin n)
      { s with legs := [{ phase := .submitting, owned := s.fresh n }], tracked := [0], tokens := s.tokens + n }
  | bind {leg : Leg} (hl : s.legs[0]? = some leg) (hbound : s.bound = false) : Move s .bind
      { s.setLeg 0 { leg with phase := leg.phase.submitted, handle := true } with bound := true }
  | succeed {l thread n : Nat} {leg : Leg} (hl : s.legs[l]? = some leg) : Move s (.succeed l thread n)
      { s.setLeg l { leg with phase := .completed, owned := [] } with
        tasks := s.tasks ++ [⟨thread, .hook, leg.owned ++ s.fresh n⟩]
        tokens := s.tokens + n }
  | fail {l thread : Nat} {leg : Leg} (hl : s.legs[l]? = some leg) : Move s (.fail l thread)
      { s.setLeg l { leg with phase := .completed } with tasks := s.tasks ++ [⟨thread, .failing l, []⟩] }
  | follow {i n : Nat} {t : Task} (ht : s.tasks[i]? = some t) (hframe : t.frame = .hook) :
      Move s (.follow i n) (s.follow i t n)
  | check {i : Nat} {t : Task} {give : List Nat} (ht : s.tasks[i]? = some t)
    (hframe : t.frame = .refused give) :
      Move s (.check i)
        { s.setTask i { t with frame := .settling } with
          cleaned := if s.completion.isNone then s.cleaned ++ give else s.cleaned }
  | settle {i : Nat} {t : Task} (ht : s.tasks[i]? = some t) (hframe : t.frame = .settling) :
      Move s (.settle i) ((s.store .error).setTask i { t with frame := .hook })
  | submit {i l : Nat} {t : Task} {leg : Leg} (ht : s.tasks[i]? = some t) (hframe : t.frame = .created l)
      (hl : s.legs[l]? = some leg) (hphase : leg.phase = .created) :
      Move s (.submit i) ((s.setLeg l { leg with phase := .submitting }).setTask i
        { t with frame := .submitting l })
  | overtaken {i l : Nat} {t : Task} {leg : Leg} (ht : s.tasks[i]? = some t)
    (hframe : t.frame = .submitting l)
      (hl : s.legs[l]? = some leg) (hclosed : s.closed = true) :
      Move s (.submitted i)
        ((s.setLeg l { leg with phase := leg.phase.submitted }).setTask i { t with frame := .cancelling l })
  | submitted {i l : Nat} {t : Task} {leg : Leg} (ht : s.tasks[i]? = some t)
    (hframe : t.frame = .submitting l)
      (hl : s.legs[l]? = some leg) (hopen : s.closed = false) :
      Move s (.submitted i)
        ((s.setLeg l { leg with phase := leg.phase.submitted, handle := true }).setTask i
          { t with frame := .hook })
  | submitRaises {i l : Nat} {t : Task} {leg : Leg} (ht : s.tasks[i]? = some t)
    (hframe : t.frame = .submitting l)
      (hl : s.legs[l]? = some leg) :
      Move s (.submitRaises i) ((s.setLeg l { leg with phase := .failed }).setTask i
        { t with frame := .dropping l })
  | cancel {i l : Nat} {t : Task} {leg : Leg} (ht : s.tasks[i]? = some t) (hframe : t.frame = .cancelling l)
      (hl : s.legs[l]? = some leg) :
      Move s (.cancel i) ((s.setLeg l { leg with cancelled := true }).setTask i { t with frame := .hook })
  | drop {i l : Nat} {t : Task} {leg : Leg} (ht : s.tasks[i]? = some t) (hframe : t.frame = .dropping l)
      (hl : s.legs[l]? = some leg) : Move s (.drop i)
        ((s.cleanup l leg).setTask i { t with frame := .hook })
  | finish {i n : Nat} {t : Task} (ht : s.tasks[i]? = some t) (hframe : t.frame = .hook) :
      Move s (.finish i n) (s.finish i t n)
  | back {i : Nat} {t : Task} (ht : s.tasks[i]? = some t) (hframe : t.frame = .hook) :
      Move s (.back i) { s with tasks := s.tasks.eraseIdx i, disposed := s.disposed ++ t.hand }
  | raise {i : Nat} {t : Task} (ht : s.tasks[i]? = some t) (hframe : t.frame = .hook) :
      Move s (.raise i) { s.setTask i ⟨t.thread, .erring, []⟩ with disposed := s.disposed ++ t.hand }
  | cleanup {i l : Nat} {t : Task} {leg : Leg} (ht : s.tasks[i]? = some t) (hframe : t.frame = .failing l)
      (hl : s.legs[l]? = some leg) : Move s (.cleanup i)
        ((s.cleanup l leg).setTask i { t with frame := .erring })
  | err {i : Nat} {t : Task} (ht : s.tasks[i]? = some t) (hframe : t.frame = .erring) :
      Move s (.err i) { s.store .error with tasks := s.tasks.eraseIdx i }
  | park (hbound : s.bound = true) (hwaiter : s.waiter = .idle) : Move s .wait { s with waiter := .parked }
  | answered (hwaiter : s.waiter = .idle) (hstored : s.completion.isSome = true) : Move s .wait s.release
  | wake (hwaiter : s.waiter = .parked) (hstored : s.completion.isSome = true) :
      Move s .wake { s.release with waiter := .idle }
  | interrupt (hwaiter : s.waiter = .parked) : Move s .interrupt { s with waiter := .thrown }
  | close (hwaiter : s.waiter = .thrown) (hnone : s.completion = none) :
      Move s .close { s with closed := true, waiter := .taking s.tracked.getLast? }
  | closeStored (hwaiter : s.waiter = .thrown) (hstored : s.completion.isSome = true) :
      Move s .close { s with waiter := .taking none }
  | takeNone (hwaiter : s.waiter = .taking none) : Move s .take { s with waiter := .leaving }
  | take {l : Nat} {leg : Leg} (hwaiter : s.waiter = .taking (some l))
    (hl : s.legs[l]? = some leg) : Move s .take
      { s.setLeg l { leg with handle := false } with waiter := if leg.handle then .cancelling l else .leaving }
  | cancelTail {l : Nat} {leg : Leg} (hwaiter : s.waiter = .cancelling l) (hl : s.legs[l]? = some leg) :
      Move s .cancelTail { s.setLeg l { leg with cancelled := true } with waiter := .leaving }
  | leave (hwaiter : s.waiter = .leaving) :
    Move s .leave { s.release with waiter := .idle, interrupted := true }

/-- A step is one of the moves. -/
theorem Move.of_step {a : Action} (hs : step s a = some s') : s.Move a s' := by
  cases a with
  | begin n =>
    rcases ite_none_right_eq_some.1 hs with ⟨hlegs, ⟨⟩⟩
    exact .begin hlegs
  | bind =>
    simp only [step] at hs
    split at hs
    · rename_i leg hl
      rcases ite_none_left_eq_some.1 hs with ⟨hbound, ⟨⟩⟩
      exact .bind hl (not_eq_true _ ▸ hbound)
    · cases hs
  | succeed l thread n =>
    simp only [step] at hs
    split at hs
    · rename_i leg hl
      rcases ite_none_right_eq_some.1 hs with ⟨-, ⟨⟩⟩
      exact .succeed hl
    · cases hs
  | fail l thread =>
    simp only [step] at hs
    split at hs
    · rename_i leg hl
      rcases ite_none_right_eq_some.1 hs with ⟨-, ⟨⟩⟩
      exact .fail hl
    · cases hs
  | follow i n =>
    rcases at_eq_some hs with ⟨t, ht, hs⟩
    split at hs
    · rcases ite_none_right_eq_some.1 hs with ⟨-, ⟨⟩⟩
      exact .follow ht ‹_›
    · cases hs
  | check i =>
    rcases at_eq_some hs with ⟨t, ht, hs⟩
    split at hs
    · cases hs
      exact .check ht ‹_›
    · cases hs
  | settle i =>
    rcases at_eq_some hs with ⟨t, ht, hs⟩
    split at hs
    · rcases ite_none_right_eq_some.1 hs with ⟨-, ⟨⟩⟩
      exact .settle ht ‹_›
    · cases hs
  | submit i =>
    rcases at_eq_some hs with ⟨t, ht, hs⟩
    split at hs
    · rename_i l hframe
      split at hs
      · rename_i leg hl
        rcases ite_none_right_eq_some.1 hs with ⟨hguard, ⟨⟩⟩
        simp only [and_eq_true, decide_eq_true_eq] at hguard
        exact .submit ht hframe hl hguard.1
      · cases hs
    · cases hs
  | submitted i =>
    rcases at_eq_some hs with ⟨t, ht, hs⟩
    split at hs
    · rename_i l hframe
      split at hs
      · rename_i leg hl
        split at hs
        · cases hs
          exact .overtaken ht hframe hl ‹_›
        · cases hs
          exact .submitted ht hframe hl (not_eq_true _ ▸ ‹_›)
      · cases hs
    · cases hs
  | submitRaises i =>
    rcases at_eq_some hs with ⟨t, ht, hs⟩
    split at hs
    · rename_i l hframe
      split at hs
      · rename_i leg hl
        rcases ite_none_right_eq_some.1 hs with ⟨-, ⟨⟩⟩
        exact .submitRaises ht hframe hl
      · cases hs
    · cases hs
  | cancel i =>
    rcases at_eq_some hs with ⟨t, ht, hs⟩
    split at hs
    · rename_i l hframe
      split at hs
      · rename_i leg hl
        cases hs
        exact .cancel ht hframe hl
      · cases hs
    · cases hs
  | drop i =>
    rcases at_eq_some hs with ⟨t, ht, hs⟩
    split at hs
    · rename_i l hframe
      split at hs
      · rename_i leg hl
        cases hs
        exact .drop ht hframe hl
      · cases hs
    · cases hs
  | finish i n =>
    rcases at_eq_some hs with ⟨t, ht, hs⟩
    split at hs
    · rcases ite_none_right_eq_some.1 hs with ⟨-, ⟨⟩⟩
      exact .finish ht ‹_›
    · cases hs
  | back i =>
    rcases at_eq_some hs with ⟨t, ht, hs⟩
    split at hs
    · cases hs
      exact .back ht ‹_›
    · cases hs
  | raise i =>
    rcases at_eq_some hs with ⟨t, ht, hs⟩
    split at hs
    · cases hs
      exact .raise ht ‹_›
    · cases hs
  | cleanup i =>
    rcases at_eq_some hs with ⟨t, ht, hs⟩
    split at hs
    · rename_i l hframe
      split at hs
      · rename_i leg hl
        cases hs
        exact .cleanup ht hframe hl
      · cases hs
    · cases hs
  | err i =>
    rcases at_eq_some hs with ⟨t, ht, hs⟩
    split at hs
    · rcases ite_none_right_eq_some.1 hs with ⟨-, ⟨⟩⟩
      exact .err ht ‹_›
    · cases hs
  | wait =>
    rcases ite_none_right_eq_some.1 hs with ⟨hguard, hs⟩
    simp only [and_eq_true, decide_eq_true_eq] at hguard
    split at hs
    · cases hs
      exact .park hguard.1 hguard.2
    · rename_i hsome
      rcases ite_none_right_eq_some.1 hs with ⟨-, ⟨⟩⟩
      exact .answered hguard.2 (by simpa [isSome_iff_ne_none] using hsome)
  | wake =>
    rcases ite_none_right_eq_some.1 hs with ⟨hguard, ⟨⟩⟩
    simp only [and_eq_true, decide_eq_true_eq] at hguard
    exact .wake hguard.1.1 hguard.1.2
  | interrupt =>
    rcases ite_none_right_eq_some.1 hs with ⟨hparked, ⟨⟩⟩
    exact .interrupt hparked
  | close =>
    rcases ite_none_right_eq_some.1 hs with ⟨hguard, hs⟩
    simp only [and_eq_true, decide_eq_true_eq] at hguard
    split at hs
    · cases hs
      exact .close hguard.1 ‹_›
    · rename_i c hsome
      cases hs
      exact .closeStored hguard.1 (by simp [hsome])
  | take =>
    simp only [step] at hs
    split at hs
    · cases hs
      exact .takeNone ‹_›
    · rename_i l hwaiter
      split at hs
      · rename_i leg hl
        rcases ite_none_right_eq_some.1 hs with ⟨-, ⟨⟩⟩
        exact .take hwaiter hl
      · cases hs
    · cases hs
  | cancelTail =>
    simp only [step] at hs
    split at hs
    · rename_i l hwaiter
      split at hs
      · rename_i leg hl
        cases hs
        exact .cancelTail hwaiter hl
      · cases hs
    · cases hs
  | leave =>
    rcases ite_none_right_eq_some.1 hs with ⟨hguard, ⟨⟩⟩
    simp only [and_eq_true, decide_eq_true_eq] at hguard
    exact .leave hguard.1

/-! ## What the calls do to the account -/

theorem count_take_drop (hand : List Nat) (n x : Nat) :
    (hand.take n).count x + (hand.drop n).count x = hand.count x := by
  rw [← count_append, take_append_drop]

theorem count_fresh (s : State) (n x : Nat) :
    (s.fresh n).count x = if s.tokens ≤ x ∧ x < s.tokens + n then 1 else 0 := by
  unfold fresh
  rw [List.Nodup.count nodup_range']
  simp [mem_range'_1]

theorem holders_setTask (ht : s.tasks[i]? = some t) (t' : Task) (x : Nat) :
    (s.setTask i t').holders x + t.holds.count x = s.holders x + t'.holds.count x := by
  have hset := tally_set (f := fun t : Task => t.holds.count x) ht t'
  simp only [holders, setTask]
  omega

theorem holders_setLeg (hl : s.legs[l]? = some leg) (leg' : Leg) (x : Nat) :
    (s.setLeg l leg').holders x + leg.owned.count x = s.holders x + leg'.owned.count x := by
  have hset := tally_set (f := fun leg : Leg => leg.owned.count x) hl leg'
  simp only [holders, setLeg]
  omega

theorem tasks_store (s : State) (c : Completion) : (s.store c).tasks = s.tasks := by
  unfold store
  split <;> rfl

theorem holders_store_error (s : State) (x : Nat) : (s.store .error).holders x = s.holders x := by
  unfold store
  split
  · rename_i hnone
    simp [holders, hnone, Completion.value]
  · rfl

theorem holders_cleanup (hl : s.legs[l]? = some leg) (x : Nat) :
    (s.cleanup l leg).holders x = s.holders x := by
  have hset := holders_setLeg hl { leg with owned := [] } x
  have hclean : (s.cleanup l leg).holders x =
      (s.setLeg l { leg with owned := [] }).holders x + leg.owned.count x := by
    simp only [holders, cleanup, setLeg, count_append]
    omega
  simp only [count_nil] at hset
  omega

theorem holders_release (s : State) (x : Nat) : s.release.holders x = s.holders x := by
  have hlegs : tally (fun l : Leg => l.owned.count x) s.release.legs =
      tally (fun l : Leg => l.owned.count x) s.legs := by
    unfold tally release
    congr 1
    refine ext_getElem (by simp) fun k h₁ h₂ => ?_
    simp only [getElem_map, getElem_mapIdx]
    split_ifs <;> rfl
  simp only [holders, hlegs]
  rfl

theorem holders_follow (ht : s.tasks[i]? = some t) (hhook : t.frame = .hook) (n x : Nat) :
    (s.follow i t n).holders x = s.holders x := by
  have hsplit := count_take_drop t.hand n x
  have hholds : t.holds.count x = t.hand.count x := by simp [Task.holds, hhook, Frame.give]
  unfold State.follow
  split_ifs
  · have hset := holders_setTask ht { t with frame := .refused (t.hand.take n), hand := t.hand.drop n } x
    simp only [Task.holds, Frame.give, count_append] at hset hholds
    omega
  · have hset := holders_setTask ht { t with frame := .created s.legs.length, hand := t.hand.drop n } x
    simp only [holders, setTask, tally_append, Task.holds, Frame.give, count_append,
      count_nil] at hset hholds ⊢
    omega

theorem holders_finish (ht : s.tasks[i]? = some t) (n x : Nat) :
    (s.finish i t n).holders x = s.holders x := by
  have hsplit := count_take_drop t.hand n x
  unfold State.finish
  split
  · rename_i hnone
    have ht' : (s.store (.ok (t.hand.take n))).tasks[i]? = some t := by
      simpa [store, hnone] using ht
    have hset := holders_setTask ht' { t with hand := t.hand.drop n } x
    have hstore : (s.store (.ok (t.hand.take n))).holders x = s.holders x + (t.hand.take n).count x := by
      simp only [store, hnone, holders, elim_some, elim_none, Completion.value, count_nil]
      omega
    simp only [Task.holds, count_append] at hset
    omega
  · rfl

/-! ## The account over a step -/

/-- A refused `follow` finds nothing stored. -/
def Unsettled (s : State) : Action → Prop
  | .check _ => s.completion = none
  | _ => True

namespace Accounted

theorem of_eq (hA : s.Accounted) (hone : ∀ x, s'.holders x = s.holders x) (htokens : s'.tokens = s.tokens)
    (hfailed : ∀ t ∈ s'.tasks, (t.frame = .erring ∨ ∃ l, t.frame = .failing l) → t.hand = []) :
      s'.Accounted where
  one := by
    intro x
    rw [hone, htokens]
    exact hA.one x
  failed := hfailed

theorem failed_set (hA : s.Accounted) {t' : Task}
    (ht' : (t'.frame = .erring ∨ ∃ l, t'.frame = .failing l) → t'.hand = []) :
    ∀ t ∈ s.tasks.set i t', (t.frame = .erring ∨ ∃ l, t.frame = .failing l) → t.hand = [] := by
  intro t hmem
  rcases mem_or_eq_of_mem_set hmem with hmem | rfl
  · exact hA.failed t hmem
  · exact ht'

theorem congr (hA : s.Accounted) (htasks : s'.tasks = s.tasks) (hlegs : s'.legs = s.legs)
    (hcompletion : s'.completion = s.completion) (hcleaned : s'.cleaned = s.cleaned)
    (hdisposed : s'.disposed = s.disposed) (htokens : s'.tokens = s.tokens) : s'.Accounted := by
  refine hA.of_eq (fun x => ?_) htokens ?_
  · simp only [holders, htasks, hlegs, hcompletion, hcleaned, hdisposed]
  · rw [htasks]
    exact hA.failed

theorem setTask (hA : s.Accounted) (ht : s.tasks[i]? = some t) {t' : Task} (hholds : t'.holds = t.holds)
    (hfailed : (t'.frame = .erring ∨ ∃ l, t'.frame = .failing l) → t'.hand = []) :
      (s.setTask i t').Accounted := by
  refine hA.of_eq (fun x => ?_) rfl (hA.failed_set hfailed)
  have hset := holders_setTask ht t' x
  rw [hholds] at hset
  omega

theorem setLeg (hA : s.Accounted) (hl : s.legs[l]? = some leg) {leg' : Leg}
    (howned : leg'.owned = leg.owned) :
    (s.setLeg l leg').Accounted := by
  refine hA.of_eq (fun x => ?_) rfl hA.failed
  have hset := holders_setLeg hl leg' x
  rw [howned] at hset
  omega

theorem congr_leg {leg' : Leg} (hA : s.Accounted) (hl : s.legs[l]? = some leg)
    (hlegs : s'.legs = s.legs.set l leg')
    (howned : leg'.owned = leg.owned) (htasks : s'.tasks = s.tasks)
    (hcompletion : s'.completion = s.completion) (hcleaned : s'.cleaned = s.cleaned)
    (hdisposed : s'.disposed = s.disposed) (htokens : s'.tokens = s.tokens) : s'.Accounted :=
  (hA.setLeg hl howned).congr htasks hlegs hcompletion hcleaned hdisposed htokens

theorem legTask {leg' : Leg} {t' : Task} (hA : s.Accounted) (hl : s.legs[l]? = some leg)
    (ht : s.tasks[i]? = some t) (howned : leg'.owned = leg.owned) (hholds : t'.holds = t.holds)
    (hfailed : (t'.frame = .erring ∨ ∃ l, t'.frame = .failing l) → t'.hand = []) :
    ((s.setLeg l leg').setTask i t').Accounted :=
  (hA.setLeg hl howned).setTask ht hholds hfailed

theorem store_error (hA : s.Accounted) : (s.store .error).Accounted := by
  refine hA.of_eq (holders_store_error s) ?_ ?_
  · unfold store
    split <;> rfl
  · unfold store
    split <;> exact hA.failed

theorem cleanup (hA : s.Accounted) (hl : s.legs[l]? = some leg) : (s.cleanup l leg).Accounted :=
  hA.of_eq (holders_cleanup hl) rfl hA.failed

theorem release (hA : s.Accounted) : s.release.Accounted :=
  hA.of_eq (holders_release s) rfl hA.failed

theorem dispose (hA : s.Accounted) (ht : s.tasks[i]? = some t) (hhook : t.frame = .hook) :
    ({ s with tasks := s.tasks.eraseIdx i, disposed := s.disposed ++ t.hand } : State).Accounted := by
  refine hA.of_eq (fun x => ?_) rfl fun t' hmem => hA.failed t' (mem_of_mem_eraseIdx hmem)
  have herase := tally_eraseIdx (f := fun t : Task => t.holds.count x) ht
  simp only [holders, Task.holds, hhook, Frame.give, count_append, count_nil] at herase ⊢
  omega

theorem raise (hA : s.Accounted) (ht : s.tasks[i]? = some t) (hhook : t.frame = .hook) :
    ({ s.setTask i ⟨t.thread, .erring, []⟩ with disposed := s.disposed ++ t.hand } : State).Accounted := by
  refine hA.of_eq (fun x => ?_) rfl (hA.failed_set fun _ => rfl)
  have hset := holders_setTask ht ⟨t.thread, .erring, []⟩ x
  simp only [holders, State.setTask, Task.holds, hhook, Frame.give, count_append, count_nil] at hset ⊢
  omega

theorem erase (hA : s.Accounted) (ht : s.tasks[i]? = some t) (herr : t.frame = .erring) :
    ({ s with tasks := s.tasks.eraseIdx i } : State).Accounted := by
  refine hA.of_eq (fun x => ?_) rfl fun t' hmem => hA.failed t' (mem_of_mem_eraseIdx hmem)
  have herase := tally_eraseIdx (f := fun t : Task => t.holds.count x) ht
  have hhand := hA.failed t (mem_of_getElem? ht) (Or.inl herr)
  simp only [holders, Task.holds, herr, hhand, Frame.give, count_append, count_nil] at herase ⊢
  omega

theorem check {give : List Nat} (hA : s.Accounted) (ht : s.tasks[i]? = some t)
    (hframe : t.frame = .refused give) :
    ({ s.setTask i { t with frame := .settling } with cleaned := s.cleaned ++ give } :
      State).Accounted := by
  refine hA.of_eq (fun x => ?_) rfl (hA.failed_set (by simp))
  have hset := holders_setTask ht { t with frame := .settling } x
  simp only [holders, State.setTask, Task.holds, hframe, Frame.give, count_append, count_nil] at hset ⊢
  omega

theorem succeed (hA : s.Accounted) (hl : s.legs[l]? = some leg) (thread n : Nat) :
    ({ s.setLeg l { leg with phase := .completed, owned := [] } with
        tasks := s.tasks ++ [⟨thread, .hook, leg.owned ++ s.fresh n⟩]
        tokens := s.tokens + n } : State).Accounted := by
  refine ⟨fun x => ?_, fun t hmem herr => ?_⟩
  · have hone := hA.one x
    have hset := holders_setLeg hl { leg with phase := .completed, owned := [] } x
    have hfresh := count_fresh s n x
    simp only [holders, State.setLeg, tally_append, Task.holds, Frame.give, count_append,
      count_nil] at hone hset ⊢
    split_ifs at hone hfresh ⊢ <;> omega
  · rcases mem_append.1 hmem with hmem | hmem
    · exact hA.failed t hmem herr
    · rw [mem_singleton.1 hmem] at herr
      rcases herr with herr | ⟨l, herr⟩ <;> cases herr

theorem fail (hA : s.Accounted) (thread l : Nat) :
    ({ s with tasks := s.tasks ++ [⟨thread, .failing l, []⟩] } : State).Accounted := by
  refine hA.of_eq (fun x => ?_) rfl fun t hmem herr => ?_
  · simp [holders, Task.holds, Frame.give]
  · rcases mem_append.1 hmem with hmem | hmem
    · exact hA.failed t hmem herr
    · rw [mem_singleton.1 hmem]

theorem follow (hA : s.Accounted) (ht : s.tasks[i]? = some t) (hhook : t.frame = .hook) (n : Nat) :
    (s.follow i t n).Accounted := by
  refine hA.of_eq (holders_follow ht hhook n) ?_ ?_
  · unfold State.follow
    split_ifs <;> rfl
  · unfold State.follow
    split_ifs
    · exact hA.failed_set (by simp)
    · exact hA.failed_set (by simp)

theorem finish (hA : s.Accounted) (ht : s.tasks[i]? = some t) (hhook : t.frame = .hook) (n : Nat) :
    (s.finish i t n).Accounted := by
  refine hA.of_eq (holders_finish ht n) ?_ ?_
  · unfold State.finish
    split
    · unfold store
      split <;> rfl
    · rfl
  · unfold State.finish
    split
    · rename_i hnone
      have htasks : (s.store (.ok (t.hand.take n))).tasks = s.tasks := by simp [store, hnone]
      change ∀ t' ∈ (s.store (.ok (t.hand.take n))).tasks.set i _, _
      rw [htasks]
      exact hA.failed_set (by simp [hhook])
    · exact hA.failed

theorem begin (hA : s.Accounted) (hlegs : s.legs = []) (n : Nat) :
    ({ s with legs := [{ phase := .submitting, owned := s.fresh n }], tracked := [0], tokens := s.tokens + n } :
      State).Accounted := by
  refine ⟨fun x => ?_, hA.failed⟩
  have hone := hA.one x
  have hfresh := count_fresh s n x
  simp only [holders, hlegs, tally, map_nil, sum_nil, map_cons, sum_cons] at hone ⊢
  split_ifs at hone hfresh ⊢ <;> omega

/-- Each move hands a resource on, or cleans it up. -/
theorem step {a : Action} (hA : s.Accounted) (hok : s.Unsettled a) (hs : step s a = some s') :
    s'.Accounted := by
  cases Move.of_step hs with
  | begin hlegs => exact hA.begin hlegs _
  | bind hl _ => exact hA.congr_leg hl rfl rfl rfl rfl rfl rfl rfl
  | succeed hl => exact hA.succeed hl _ _
  | @fail l thread leg hl =>
    have hset : (s.setLeg l { leg with phase := .completed }).Accounted := hA.setLeg hl rfl
    exact hset.fail thread l
  | follow ht hframe => exact hA.follow ht hframe _
  | check ht hframe =>
    have hnone : s.completion = none := hok
    rw [hnone]
    exact hA.check ht hframe
  | settle ht hframe =>
    exact setTask hA.store_error ((tasks_store s .error).symm ▸ ht)
      (by simp [Task.holds, hframe, Frame.give]) (by simp)
  -- a task that is about a leg hands on nothing
  | submit ht hframe hl _ => exact hA.legTask hl ht rfl (by simp [Task.holds, hframe, Frame.give]) (by simp)
  | overtaken ht hframe hl _ => exact hA.legTask hl ht rfl (by simp [Task.holds, hframe, Frame.give]) (by simp)
  | submitted ht hframe hl _ => exact hA.legTask hl ht rfl (by simp [Task.holds, hframe, Frame.give]) (by simp)
  | submitRaises ht hframe hl => exact hA.legTask hl ht rfl (by simp [Task.holds, hframe, Frame.give]) (by simp)
  | cancel ht hframe hl => exact hA.legTask hl ht rfl (by simp [Task.holds, hframe, Frame.give]) (by simp)
  | drop ht hframe hl =>
    exact setTask (hA.cleanup hl) ht (by simp [Task.holds, hframe, Frame.give]) (by simp)
  | finish ht hframe => exact hA.finish ht hframe _
  | back ht hframe => exact hA.dispose ht hframe
  | raise ht hframe => exact hA.raise ht hframe
  | cleanup ht hframe hl =>
    have hhand := hA.failed _ (mem_of_getElem? ht) (Or.inr ⟨_, hframe⟩)
    exact setTask (hA.cleanup hl) ht (by simp [Task.holds, hframe, Frame.give]) fun _ => hhand
  | err ht hframe =>
    rw [← tasks_store s .error]
    exact hA.store_error.erase (by rw [tasks_store]; exact ht) hframe
  | answered _ _ => exact hA.release
  | wake _ _ => exact hA.release.congr rfl rfl rfl rfl rfl rfl
  | leave _ => exact hA.release.congr rfl rfl rfl rfl rfl rfl
  | take _ hl => exact hA.congr_leg hl rfl rfl rfl rfl rfl rfl rfl
  | cancelTail _ hl => exact hA.congr_leg hl rfl rfl rfl rfl rfl rfl rfl
  -- what is left concerns the waiting side alone
  | park _ _ => exact hA.congr rfl rfl rfl rfl rfl rfl
  | interrupt _ => exact hA.congr rfl rfl rfl rfl rfl rfl
  | close _ _ => exact hA.congr rfl rfl rfl rfl rfl rfl
  | closeStored _ _ => exact hA.congr rfl rfl rfl rfl rfl rfl
  | takeNone _ => exact hA.congr rfl rfl rfl rfl rfl rfl

theorem init : init.Accounted where
  one := by
    intro x
    simp [holders, WaitChain.init, tally]
  failed := by simp [WaitChain.init]

end Accounted

end Pytealet.Io.WaitChain.State
