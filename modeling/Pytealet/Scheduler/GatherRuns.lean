import Mathlib.Data.List.Basic
import Pytealet.Scheduler.Gather

/-!
# GatherRuns — that the outer future of `gather` gets what is due

While the outer future is not completed, a result that is missing is to come from a callback that is
registered or due.  This is kept as long as no loop of `_run_done_callbacks` is left before it has
called the callbacks of `gather`.
-/

namespace Pytealet.Scheduler.Gather

open Lib Lib.Transition Function List Option

variable {α ε : Type*} {c : Call} {s s' : State α ε}

/-! ## No child is lost -/

variable {child : Nat}

theorem failure_eq_some {e : ε} : s.failure child = some e ↔ s.outcome child = some (.error e) := by
  unfold State.failure
  split
  · rename_i e' houtcome
    rw [houtcome]
    constructor
    · rintro ⟨⟩
      rfl
    · rintro ⟨⟩
      rfl
  · rename_i hnot
    exact ⟨nofun, fun houtcome => absurd houtcome (hnot e)⟩

theorem firstFailure_of_split {before after : List Nat} {e : ε}
    (horder : s.order = before ++ child :: after) (hbefore : ∀ g ∈ before, s.failure g = none)
    (hfailure : s.failure child = some e) : s.firstFailure = some e := by
  have hnone : before.findSome? s.failure = none := List.findSome?_eq_none_iff.2 hbefore
  unfold State.firstFailure
  rw [horder, List.findSome?_append, hnone, List.findSome?_cons, hfailure]
  rfl

theorem findSome?_append_of {f g : Nat → Option ε} {l : List Nat} {e : ε} (h : ∀ a ∈ l, f a = g a)
    (hg : l.findSome? g = some e) (l' : List Nat) : (l ++ l').findSome? f = some e := by
  have hf : l.findSome? f = l.findSome? g := by
    rw [← List.head?_filterMap, ← List.head?_filterMap, filterMap_congr h]
  rw [List.findSome?_append, hf, hg]
  rfl

theorem split_takeWhile {l : List Nat} {a : Nat} (h : a ∈ l) :
    ∃ after, l = l.takeWhile (· ≠ a) ++ a :: after := by
  induction l with
  | nil => cases h
  | cons b l ih =>
    by_cases hb : b = a
    · subst hb
      exact ⟨l, by simp⟩
    · rcases ih ((mem_cons.1 h).resolve_left (Ne.symm hb)) with ⟨after, heq⟩
      refine ⟨after, ?_⟩
      rw [takeWhile_cons_of_pos (by simpa using hb), cons_append, ← heq]

/-- While the outer future is not completed, an outcome that is missing is to come.  It fails with
the first failure. -/
structure Served (c : Call) (k : Nat) (s : State α ε) : Prop where
  accounted : s.outer = none → ∀ i < k, ∀ child, c.children[i]? = some child → s.results[i]? = some none →
    i ∈ s.callbacks child ∨ i ∈ s.due child
  first : ∀ e, s.outer = some (.exception e) → s.firstFailure = some e

namespace Served

variable {k : Nat}

theorem due_of_failure (hv : Served c k s) (h : Inv c k s) (hopen : s.outer = none)
    (hr : c.returnExceptions = false)
    {i child : Nat} (hi : i < k) (hchild : c.children[i]? = some child)
    (hfailure : s.failure child ≠ none) :
    i ∈ s.due child := by
  rcases ne_none_iff_exists'.1 hfailure with ⟨e, he⟩
  have houtcome := failure_eq_some.1 he
  have hlt : i < s.results.length := h.length ▸ (List.getElem?_eq_some_iff.1 hchild).1
  -- its outcome is not among the results
  have hnone : s.results[i]? = some none := by
    rw [List.getElem?_eq_getElem hlt]
    cases hget : s.results[i] with
    | none => rfl
    | some o =>
      have hsome : s.results[i]? = some (some o) :=
        (List.getElem?_eq_getElem hlt).trans (congrArg some hget)
      rcases h.stored i o hsome with ⟨g, hg, ho⟩
      cases Option.some.inj (hg.symm.trans hchild)
      cases Option.some.inj (ho.symm.trans houtcome)
      exact absurd hsome (h.kept hr i e)
  rcases hv.accounted hopen i hi child hchild hnone with hin | hin
  · have hwaits := (h.registered child i hin).1
    rw [houtcome] at hwaits
    cases hwaits
  · exact hin

theorem childDone {index child : Nat} {o : Except ε α} (hlt : index < s.results.length)
    (hacc : s.outer = none → ∀ i < k, i ≠ index → ∀ g, c.children[i]? = some g → s.results[i]? = some none →
      i ∈ s.callbacks g ∨ i ∈ s.due g)
    (hfirst : ∀ e, s.outer = some (.exception e) → s.firstFailure = some e)
    (hturn : s.outer = none → c.returnExceptions = false → ∀ e, o = .error e → s.firstFailure = some e) :
    Served c k (s.childDone c index child o) := by
  by_cases hopen : s.outer = none
  swap
  · rw [childDone_of_settled hopen]
    exact ⟨fun hnone => absurd hnone hopen, hfirst⟩
  have hkeep : (c.returnExceptions = true ∨ ∃ v, o = .ok v) → Served c k (s.childDone c index child o) := by
    intro hkept
    rcases childDone_of_kept hopen hkept index child with ⟨retrieved, heq⟩
    rw [heq]
    refine ⟨fun _ i hi g hg hnone => ?_, fun e he => ?_⟩
    · have hne : i ≠ index := by
        rintro rfl
        have hself : (s.results.set i (some o))[i]? = some none := hnone
        rw [List.getElem?_set_self hlt] at hself
        cases hself
      exact hacc hopen i hi hne g hg ((List.getElem?_set_ne (Ne.symm hne)).symm.trans hnone)
    · replace he : s.afterStore index o = some (.exception e) := he
      unfold State.afterStore at he
      split at he
      · split at he <;> cases he
      · cases he
  cases o with
  | ok v => exact hkeep (.inr ⟨v, rfl⟩)
  | error e =>
    cases hr : c.returnExceptions with
    | true => exact hkeep (.inl hr)
    | false =>
      rw [childDone_of_failure hopen hr]
      refine ⟨nofun, fun e' he' => ?_⟩
      cases he'
      exact hturn hopen hr e rfl

end Served

theorem childDone_fields (index child : Nat) (o : Except ε α) :
    (s.childDone c index child o).outcome = s.outcome ∧
      (s.childDone c index child o).callbacks = s.callbacks ∧
      (s.childDone c index child o).due = s.due ∧ (s.childDone c index child o).order = s.order := by
  by_cases hopen : s.outer = none
  swap
  · rw [childDone_of_settled hopen]
    exact ⟨rfl, rfl, rfl, rfl⟩
  by_cases hkept : c.returnExceptions = true ∨ ∃ v, o = .ok v
  · rcases childDone_of_kept hopen hkept index child with ⟨retrieved, heq⟩
    rw [heq]
    exact ⟨rfl, rfl, rfl, rfl⟩
  · rcases not_or.1 hkept with ⟨hr, hfailed⟩
    cases o with
    | ok v => exact absurd ⟨v, rfl⟩ hfailed
    | error e =>
      rw [childDone_of_failure hopen (by simpa using hr)]
      exact ⟨rfl, rfl, rfl, rfl⟩

/-- During the loop of `gather` nothing is completed. -/
structure Starting (c : Call) (s : State α ε) : Prop where
  order : s.order = c.children.filter fun child => (s.outcome child).isSome
  due : ∀ child, s.due child = []

theorem Starting.register (h : Starting c s) (index child : Nat) :
    Starting c (s.register c index child) := by
  unfold State.register
  split
  · rename_i o _
    rcases childDone_fields (c := c) (s := s) index child o with ⟨houtcome, -, hdue, horder⟩
    exact ⟨by rw [horder, houtcome]; exact h.order, fun g => by rw [hdue]; exact h.due g⟩
  · exact ⟨h.order, h.due⟩

namespace Served

variable {k : Nat}

theorem firstFailure_of_starting (hv : Served c k s) (h : Inv c k s)
    (hstart : Starting c s) (hopen : s.outer = none)
    (hr : c.returnExceptions = false) (hchild : c.children[k]? = some child) {e : ε}
    (houtcome : s.outcome child = some (.error e)) : s.firstFailure = some e := by
  rcases List.getElem?_eq_some_iff.1 hchild with ⟨hlt, hget⟩
  have hsplit : c.children = c.children.take k ++ child :: c.children.drop (k + 1) := by
    rw [← hget, getElem_cons_drop, take_append_drop]
  have horder : s.order = (c.children.take k).filter (fun g => (s.outcome g).isSome) ++
      child :: (c.children.drop (k + 1)).filter fun g => (s.outcome g).isSome := by
    rw [hstart.order, hsplit, filter_append, filter_cons_of_pos (by rw [houtcome]; rfl), ← hsplit]
  apply firstFailure_of_split horder _ (failure_eq_some.2 houtcome)
  intro g hg
  by_contra hfailure
  rcases mem_iff_getElem?.1 (mem_filter.1 hg).1 with ⟨i, hi⟩
  have hik : i < k := by
    by_contra hle
    rw [List.getElem?_eq_none (Nat.le_trans (length_take_le k _) (Nat.not_lt.1 hle))] at hi
    cases hi
  rw [List.getElem?_take_of_lt hik] at hi
  have hdue := hv.due_of_failure h hopen hr hik hi hfailure
  rw [hstart.due g] at hdue
  cases hdue

theorem register (hv : Served c k s) (h : Inv c k s) (hstart : Starting c s)
    (hchild : c.children[k]? = some child) : Served c (k + 1) (s.register c k child) := by
  have hlt : k < s.results.length := h.length ▸ (List.getElem?_eq_some_iff.1 hchild).1
  unfold State.register
  cases houtcome : s.outcome child with
  | some o =>
    refine childDone hlt (fun hopen i hi hne => hv.accounted hopen i (by omega)) hv.first
      fun hopen hr e he => ?_
    subst he
    exact hv.firstFailure_of_starting h hstart hopen hr hchild houtcome
  | none =>
    refine ⟨fun hopen i hi g hg hnone => ?_, hv.first⟩
    rcases eq_or_ne i k with rfl | hne
    · cases Option.some.inj (hg.symm.trans hchild)
      exact .inl (mem_update_append.2 (.inr ⟨rfl, rfl⟩))
    · exact (hv.accounted hopen i (by omega) g hg hnone).imp_left fun hin => mem_update_append.2 (.inl hin)

theorem registerFrom (rest : List Nat) (hv : Served c k s) (h : Inv c k s) (hstart : Starting c s)
    (hrest : c.children.drop k = rest) : Served c c.children.length (s.registerFrom c k rest) := by
  induction rest generalizing k s with
  | nil =>
    have hk : c.children.length ≤ k := drop_eq_nil_iff.1 hrest
    exact ⟨fun hopen i hi => hv.accounted hopen i (Nat.lt_of_lt_of_le hi hk), hv.first⟩
  | cons child rest ih =>
    have hchild : c.children[k]? = some child := by
      have hhead := congrArg List.head? hrest
      rwa [List.head?_drop] at hhead
    apply ih (hv.register h hstart hchild) (h.register hchild) (hstart.register k child)
    rw [← drop_drop, hrest]
    rfl

theorem gather (outcome : Nat → Option (Except ε α)) :
    Served c c.children.length (Gather.gather c outcome) := by
  unfold Gather.gather
  split
  · exact ⟨nofun, nofun⟩
  · rename_i hne
    have hv : Served c 0 (start c outcome) := ⟨fun _ i hi => absurd hi (Nat.not_lt_zero i), nofun⟩
    exact hv.registerFrom c.children (Inv.start outcome hne) ⟨rfl, fun _ => rfl⟩ rfl

theorem firstFailure_of_inTurn (hv : Served c c.children.length s) (h : Inv c c.children.length s)
    (hopen : s.outer = none) (hr : c.returnExceptions = false) {e : ε}
    (houtcome : s.outcome child = some (.error e)) (hmem : child ∈ s.order)
    (hturn : s.InTurn c (.invoke child)) :
    s.firstFailure = some e := by
  have hfailure := failure_eq_some.2 houtcome
  rcases split_takeWhile hmem with ⟨after, hsplit⟩
  apply firstFailure_of_split hsplit _ hfailure
  intro g hg
  by_contra hfailed
  have hnil := hturn hopen hr (by rw [hfailure]; exact some_ne_none e) g hg hfailed
  have hchildren := ((h.known g).1 (hsplit ▸ mem_append_left _ hg)).1
  rcases mem_iff_getElem?.1 hchildren with ⟨i, hi⟩
  have hdue := hv.due_of_failure h hopen hr (List.getElem?_eq_some_iff.1 hi).1 hi hfailed
  rw [hnil] at hdue
  cases hdue

theorem step {a : Action α ε} (hv : Served c c.children.length s) (h : Inv c c.children.length s)
    (hturn : s.InTurn c a) (hs : Gather.step c s a = some s') : Served c c.children.length s' := by
  cases a with
  | complete child o =>
    rcases step_complete hs with ⟨-, hnone, rfl⟩
    refine ⟨fun hopen i hi g hg hmissing => ?_, fun e he => ?_⟩
    · dsimp only
      rcases eq_or_ne g child with rfl | hne
      · rw [update_self, update_self]
        refine .inr ((hv.accounted hopen i hi g hg hmissing).resolve_right fun hin => ?_)
        exact (h.waiting g i hin).1 hnone
      · rw [update_of_ne hne, update_of_ne hne]
        exact hv.accounted hopen i hi g hg hmissing
    · -- the children that were done before have their outcomes
      have hsame : ∀ g ∈ s.order, State.failure { s with outcome := update s.outcome child (some o) } g =
          s.failure g := by
        intro g hg
        have hne : g ≠ child := by
          rintro rfl
          exact ((h.known g).1 hg).2 hnone
        unfold State.failure
        dsimp only
        rw [update_of_ne hne]
      exact findSome?_append_of hsame (hv.first e he) [child]
  | invoke child =>
    rcases step_invoke hs with ⟨index, rest, o, hdue, houtcome, rfl⟩
    have hmem : index ∈ s.due child := hdue ▸ mem_cons_self
    rcases h.waiting child index hmem with ⟨hdone, hchild, hmissing⟩
    have hin : child ∈ s.order := (h.known child).2 ⟨mem_of_getElem? hchild, hdone⟩
    refine childDone (List.getElem?_eq_some_iff.1 hmissing).1 (fun hopen i hi hne g hg hnone => ?_) hv.first
      fun hopen hr e he => ?_
    · refine (hv.accounted hopen i hi g hg hnone).imp_right fun hwaits => ?_
      dsimp only
      rcases eq_or_ne g child with rfl | hg
      · rw [update_self]
        rw [hdue] at hwaits
        exact (mem_cons.1 hwaits).resolve_left hne
      · rw [update_of_ne hg]
        exact hwaits
    · subst he
      exact hv.firstFailure_of_inTurn h hopen hr houtcome hin hturn
  | leave child =>
    cases hs
    refine ⟨fun hopen i hi g hg hmissing => ?_, hv.first⟩
    dsimp only
    rcases eq_or_ne g child with rfl | hne
    · rw [update_self, ← hturn hopen]
      exact hv.accounted hopen i hi g hg hmissing
    · rw [update_of_ne hne]
      exact hv.accounted hopen i hi g hg hmissing
  | cancel =>
    cases hs
    split
    · exact hv
    · exact ⟨hv.accounted, hv.first⟩

end Served

/-! ## The outer future -/

theorem expected_of_failure {e : ε} (hr : c.returnExceptions = false) (hfirst : s.firstFailure = some e) :
    s.expected c = some (.exception e) := by
  unfold State.expected
  rw [hr, hfirst]
  rfl

theorem expected_of_done (hnone : (if c.returnExceptions then none else s.firstFailure) = none)
    (hdone : ∀ child ∈ c.children, s.outcome child ≠ none) :
    s.expected c = some (if s.cancelRequested then .cancelledError else .result
      (c.children.map s.outcome)) := by
  unfold State.expected
  rw [hnone]
  apply if_pos
  rw [List.all_eq_true]
  exact fun child hmem => isSome_iff_ne_none.2 (hdone child hmem)

theorem expected_of_open (hnone : (if c.returnExceptions then none else s.firstFailure) = none)
    (hmem : child ∈ c.children) (hopen : s.outcome child = none) : s.expected c = none := by
  unfold State.expected
  rw [hnone]
  apply if_neg
  rw [List.all_eq_true]
  intro hall
  have hdone := hall child hmem
  rw [hopen] at hdone
  cases hdone

theorem Inv.no_failure {k : Nat} (h : Inv c k s) (hnone : s.remaining = 0) :
    (if c.returnExceptions then none else s.firstFailure) = none := by
  split
  · rfl
  · rename_i hr
    apply List.findSome?_eq_none_iff.2
    intro child hmem
    by_contra hfailed
    rcases ne_none_iff_exists'.1 hfailed with ⟨e, he⟩
    have hchild := ((h.known child).1 hmem).1
    have hin : some (.error e) ∈ s.results := by
      rw [h.results_eq hnone]
      exact mem_map.2 ⟨child, hchild, failure_eq_some.1 he⟩
    rcases mem_iff_getElem?.1 hin with ⟨i, hi⟩
    exact h.kept (by simpa using hr) i e hi

theorem Served.gathers (hv : Served c c.children.length s) (h : Inv c c.children.length s) :
    s.Gathers c := by
  have hright : ∀ x, s.outer = some x → s.expected c = some x := by
    intro x hx
    have hcompleted := h.completed x hx
    cases x with
    | exception e => exact expected_of_failure hcompleted (hv.first e hx)
    | result l =>
      rcases hcompleted with ⟨rfl, hnone, hcancel⟩
      rw [expected_of_done (h.no_failure hnone) (h.all_done hnone), hcancel, h.results_eq hnone]
      rfl
    | cancelledError =>
      rcases hcompleted with ⟨hnone, hcancel⟩
      rw [expected_of_done (h.no_failure hnone) (h.all_done hnone), hcancel]
      rfl
  refine ⟨hright, fun hquiet => ?_⟩
  cases hopen : s.outer with
  | some x => exact (hright x hopen).symm
  | none =>
    -- what remains is registered with a child that is not done
    have hfailure : (if c.returnExceptions then none else s.firstFailure) = none := by
      split
      · rfl
      · rename_i hr
        apply List.findSome?_eq_none_iff.2
        intro child hmem
        by_contra hfailed
        rcases mem_iff_getElem?.1 ((h.known child).1 hmem).1 with ⟨i, hi⟩
        have hdue := hv.due_of_failure h hopen (by simpa using hr)
            (List.getElem?_eq_some_iff.1 hi).1 hi hfailed
        rw [hquiet child] at hdue
        cases hdue
    have hcount : 0 < s.results.countP Option.isNone := h.remaining ▸ Nat.pos_of_ne_zero (h.unsettled hopen)
    rcases countP_pos_iff.1 hcount with ⟨r, hr, hnone⟩
    rcases mem_iff_getElem?.1 hr with ⟨i, hi⟩
    rw [isNone_iff_eq_none.1 hnone] at hi
    have hlt : i < c.children.length := h.length ▸ (List.getElem?_eq_some_iff.1 hi).1
    have hchild := List.getElem?_eq_getElem hlt
    have hin := (hv.accounted hopen i hlt _ hchild hi).resolve_right (by rw [hquiet]; exact not_mem_nil)
    exact (expected_of_open hfailure (getElem_mem hlt) (h.registered _ i hin).1).symm

theorem outer_kept {a : Action α ε} (hs : step c s a = some s') {x : Settled α ε} (hx : s.outer = some x) :
    s'.outer = some x := by
  have hsettled : s.outer ≠ none := by
    rw [hx]
    exact some_ne_none x
  cases a with
  | complete child o =>
    rcases step_complete hs with ⟨-, -, rfl⟩
    exact hx
  | invoke child =>
    rcases step_invoke hs with ⟨index, rest, o, -, -, rfl⟩
    have hsame :=
      childDone_of_settled (c := c) (s := { s with due := update s.due child rest }) hsettled index
      child o
    rw [hsame]
    exact hx
  | leave child =>
    cases hs
    exact hx
  | cancel =>
    cases hs
    rw [if_pos (isSome_iff_ne_none.2 hsettled)]
    exact hx

/-- In every run the results are by position and the outer future is completed once at most; it is
completed with what is due if no loop is left before the callbacks of `gather` and these are called
in the order of the failures. -/
theorem gather_settles (c : Call) (outcome : Nat → Option (Except ε α)) (run : List (Action α ε)) :
    Always (step c) (State.Positional c) (gather c outcome) run ∧
      Along (step c) (fun s a => ∀ s', step c s a = some s' → ∀ x, s.outer = some x → s'.outer = some x)
        (gather c outcome) run ∧
      (Along (step c) (State.InTurn c) (gather c outcome) run →
        Always (step c) (State.Gathers c) (gather c outcome) run) := by
  refine ⟨?_, along_of_forall (fun s a s' hs x hx => outer_kept hs hx) run _, ?_⟩
  · exact always_of_invariant (I := Inv c c.children.length) (fun _ h => h.positional)
      (fun _ _ _ h hs => h.step hs) run _
      (Inv.gather outcome)
  · exact always_of_along (I := fun s => Inv c c.children.length s ∧ Served c c.children.length s)
      (fun _ h => h.2.gathers h.1) (fun _ _ _ h hturn hs => ⟨h.1.step hs, h.2.step h.1 hturn hs⟩) run _
      ⟨Inv.gather outcome, Served.gather outcome⟩

/-- A future that is given twice, and one that fails. -/
theorem gather_settles_three :
    Played (step ⟨[1, 2, 1], false⟩) (Always (step ⟨[1, 2, 1], false⟩) (State.Gathers ⟨[1, 2, 1], false⟩))
      (gather ⟨[1, 2, 1], false⟩ fun _ => none)
      [.complete 1 (.ok 5), .invoke 1, .invoke 1, .complete 2 (.error 7), .invoke 2] := by
  refine ⟨(gather_settles (α := Nat) (ε := Nat) ⟨[1, 2, 1], false⟩ (fun _ => none) _).2.2 ?_, rfl⟩
  refine ⟨trivial, fun _ _ hf => absurd rfl hf, fun _ _ hf => absurd rfl hf, trivial,
    fun _ _ _ g hg hf => ?_, trivial⟩
  cases mem_singleton.1 hg
  exact absurd rfl hf

/-- The only child gets its result; another callback of the child raises before that of `gather`. -/
theorem left_loop_hangs : ∃ s : State Nat Nat,
    exec (step ⟨[1], false⟩) (gather ⟨[1], false⟩ fun _ => none) [.complete 1 (.ok 5), .leave 1] = some s ∧
      s.outcome 1 = some (.ok 5) ∧ s.outer = none ∧ ¬ s.Gathers ⟨[1], false⟩ := by
  refine ⟨_, rfl, rfl, rfl, fun h => ?_⟩
  have hquiet := h.settled fun child => by
    rcases eq_or_ne child 1 with rfl | hne
    · rfl
    · exact (update_of_ne hne _ _).trans (update_of_ne hne _ _)
  cases hquiet

end Pytealet.Scheduler.Gather
