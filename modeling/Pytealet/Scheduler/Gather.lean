import Mathlib.Data.List.Nodup
import Mathlib.Logic.Function.Basic
import Pytealet.Lib.Transition

/-!
# Gather — the outer future of `gather`

`gather` takes the children that are done in the order of the arguments and registers a done
callback with each of the others, under the index of the argument; a future that is given twice has
two of them.  The calls of `child_done` come from the loops of `_run_done_callbacks`.  A loop may be
left before it reaches the callbacks of `gather`, and what runs in it before them may complete
another child.

What the children do, what else is registered with them and what comes of their `cancel` are steps
of their own.
-/

namespace Pytealet.Scheduler.Gather

open Lib Lib.Transition Function List Option

variable {α ε : Type*}

/-- The arguments of `gather`, after `ensure_future`. -/
structure Call where
  children : List Nat
  returnExceptions : Bool
  deriving DecidableEq, Repr

/-- What the outer future is completed with. -/
inductive Settled (α ε : Type*)
  | result (results : List (Option (Except ε α)))
  | exception (e : ε)
  | cancelledError

structure State (α ε : Type*) where
  /-- `_result` or `_exception` of the children that are done -/
  outcome : Nat → Option (Except ε α)
  /-- the indices under which a callback is registered with a child -/
  callbacks : Nat → List Nat := fun _ => []
  /-- those that a loop of `_run_done_callbacks` has still to call -/
  due : Nat → List Nat := fun _ => []
  results : List (Option (Except ε α))
  remaining : Nat
  outer : Option (Settled α ε) := none
  cancelRequested : Bool := false
  /-- the children whose exception has been marked as retrieved -/
  retrieved : List Nat := []
  /-- `set_result` or `set_exception` has found the outer future done -/
  invalid : Bool := false
  /-- the children in the order of their completions; those that were done before are in the order
  of the arguments -/
  order : List Nat

namespace State

/-- `set_result` and `set_exception` of the outer future -/
def settle (s : State α ε) (x : Settled α ε) : State α ε :=
  if s.outer.isSome then { s with invalid := true } else { s with outer := some x }

/-- An outcome gets its place; the last one completes the outer future. -/
def store (s : State α ε) (index : Nat) (o : Except ε α) : State α ε :=
  let s₁ := { s with results := s.results.set index (some o), remaining := s.remaining - 1 }
  if s₁.remaining = 0 then
    if s₁.cancelRequested then s₁.settle .cancelledError else s₁.settle (.result s₁.results)
  else s₁

def childDone (c : Call) (s : State α ε) (index child : Nat) (o : Except ε α) : State α ε :=
  if s.outer.isSome then s
  else
    match o with
    | .error e =>
      let s₁ := { s with retrieved := child :: s.retrieved }
      if c.returnExceptions then s₁.store index (.error e) else s₁.settle (.exception e)
    | .ok v => s.store index (.ok v)

/-- One turn of the loop over the children. -/
def register (c : Call) (s : State α ε) (index child : Nat) : State α ε :=
  match s.outcome child with
  | some o => s.childDone c index child o
  | none => { s with callbacks := update s.callbacks child (s.callbacks child ++ [index]) }

/-- The loop from an index on. -/
def registerFrom (c : Call) : Nat → List Nat → State α ε → State α ε
  | _, [], s => s
  | index, child :: rest, s => registerFrom c (index + 1) rest (s.register c index child)

end State

/-- Before the loop. -/
def start (c : Call) (outcome : Nat → Option (Except ε α)) : State α ε :=
  { outcome
    results := List.replicate c.children.length none
    remaining := c.children.length
    order := c.children.filter fun child => (outcome child).isSome }

/-- `gather`, with the futures as they are then -/
def gather (c : Call) (outcome : Nat → Option (Except ε α)) : State α ε :=
  if c.children = [] then (start c outcome).settle (.result [])
  else (start c outcome).registerFrom c 0 c.children

inductive Action (α ε : Type*)
  /-- a child gets its outcome, and the loop of its callbacks begins -/
  | complete (child : Nat) (o : Except ε α)
  /-- the loop calls the next callback of `gather` -/
  | invoke (child : Nat)
  /-- the loop is left -/
  | leave (child : Nat)
  /-- `_GatheringFuture.cancel`, up to the calls of `cancel` of the children -/
  | cancel

def step (c : Call) (s : State α ε) : Action α ε → Option (State α ε)
  | .complete child o =>
    if child ∈ c.children ∧ (s.outcome child).isNone then
      some { s with
        outcome := update s.outcome child (some o)
        callbacks := update s.callbacks child []
        due := update s.due child (s.callbacks child)
        order := s.order ++ [child] }
    else none
  | .invoke child =>
    match s.due child, s.outcome child with
    | index :: rest, some o =>
      some (State.childDone c { s with due := update s.due child rest } index child o)
    | _, _ => none
  | .leave child => some { s with due := update s.due child [] }
  | .cancel => some (if s.outer.isSome then s else { s with cancelRequested := true })

/-! ## What is asked of it -/

namespace State

/-- The exception of a child that has failed. -/
def failure (s : State α ε) (child : Nat) : Option ε :=
  match s.outcome child with
  | some (.error e) => some e
  | _ => none

/-- The exception of the child that has failed first. -/
def firstFailure (s : State α ε) : Option ε :=
  s.order.findSome? s.failure

/-- What the outer future is due to be completed with. -/
def expected (c : Call) (s : State α ε) : Option (Settled α ε) :=
  match if c.returnExceptions then none else s.firstFailure with
  | some e => some (.exception e)
  | none =>
    if c.children.all fun child => (s.outcome child).isSome then
      some (if s.cancelRequested then .cancelledError else .result (c.children.map s.outcome))
    else none

/-- The list of results is by position, whatever the order of the completions; nothing completes the
outer future twice. -/
structure Positional (c : Call) (s : State α ε) : Prop where
  valid : s.invalid = false
  results : ∀ l, s.outer = some (.result l) → l = c.children.map s.outcome ∧ ∀ o ∈ l, o ≠ none
  collected : c.returnExceptions = true → ∀ e, s.outer ≠ some (.exception e)
  succeeded : c.returnExceptions = false → ∀ l, s.outer = some (.result l) → ∀ e, some (.error e) ∉ l

/-- The outer future has what it is due to have, at the latest when no callback is to be called any
more. -/
structure Gathers (c : Call) (s : State α ε) : Prop where
  right : ∀ x, s.outer = some x → s.expected c = some x
  settled : (∀ child, s.due child = []) → s.outer = s.expected c

/-- A loop is left only when it has called the callbacks of `gather`, unless the outer future is
completed.  Without `return_exceptions`, the callbacks for a child that has failed are called after
those for the children that failed before it. -/
def InTurn (c : Call) (s : State α ε) : Action α ε → Prop
  | .leave child => s.outer = none → s.due child = []
  | .invoke child => s.outer = none → c.returnExceptions = false → s.failure child ≠ none →
      ∀ earlier ∈ s.order.takeWhile (· ≠ child), s.failure earlier ≠ none → s.due earlier = []
  | _ => True

end State

/-! ## One call of `child_done` -/

variable {c : Call} {s s' : State α ε}

theorem childDone_of_settled (h : s.outer ≠ none) (index child : Nat) (o : Except ε α) :
    s.childDone c index child o = s :=
  if_pos (isSome_iff_ne_none.2 h)

theorem childDone_of_failure (h : s.outer = none) (hr : c.returnExceptions = false)
    (index child : Nat) (e : ε) :
    s.childDone c index child (.error e) =
      { s with retrieved := child :: s.retrieved, outer := some (.exception e) } := by
  simp [State.childDone, State.settle, h, hr]

/-- What the outer future has after an outcome has been stored. -/
def State.afterStore (s : State α ε) (index : Nat) (o : Except ε α) : Option (Settled α ε) :=
  if s.remaining - 1 = 0 then
    some (if s.cancelRequested then .cancelledError else .result (s.results.set index (some o)))
  else none

theorem store_eq (h : s.outer = none) (index : Nat) (o : Except ε α) :
    s.store index o = { s with
      results := s.results.set index (some o)
      remaining := s.remaining - 1
      outer := s.afterStore index o } := by
  unfold State.store State.afterStore State.settle
  dsimp only
  rw [h]
  by_cases hlast : s.remaining - 1 = 0
  · rw [if_pos hlast, if_pos hlast]
    cases s.cancelRequested <;> rfl
  · rw [if_neg hlast, if_neg hlast]

theorem childDone_of_kept (h : s.outer = none) {o : Except ε α}
    (hkept : c.returnExceptions = true ∨ ∃ v, o = .ok v) (index child : Nat) :
    ∃ retrieved, s.childDone c index child o = { s with
      results := s.results.set index (some o)
      remaining := s.remaining - 1
      outer := s.afterStore index o
      retrieved := retrieved } := by
  have hopen : ¬ s.outer.isSome = true := by simp [h]
  unfold State.childDone
  rw [if_neg hopen]
  cases o with
  | error e =>
    have hr : c.returnExceptions = true := hkept.resolve_right nofun
    refine ⟨child :: s.retrieved, ?_⟩
    dsimp only
    rw [if_pos hr]
    exact store_eq (s := { s with retrieved := child :: s.retrieved }) h index (.error e)
  | ok v => exact ⟨s.retrieved, store_eq h index (.ok v)⟩

/-! ## The invariant -/

/-- Why the outer future is completed. -/
def State.CompletedWith (c : Call) (s : State α ε) : Settled α ε → Prop
  | .result l => l = s.results ∧ s.remaining = 0 ∧ s.cancelRequested = false
  | .cancelledError => s.remaining = 0 ∧ s.cancelRequested = true
  | .exception _ => c.returnExceptions = false

/-- No callback is registered or due under the index. -/
def State.Free (s : State α ε) (index : Nat) : Prop :=
  ∀ child, index ∉ s.callbacks child ∧ index ∉ s.due child

/-- The first `k` arguments have been registered. -/
structure Inv (c : Call) (k : Nat) (s : State α ε) : Prop where
  length : s.results.length = c.children.length
  remaining : s.remaining = s.results.countP Option.isNone
  stored : ∀ (i : Nat) (o : Except ε α), s.results[i]? = some (some o) →
    ∃ child, c.children[i]? = some child ∧ s.outcome child = some o
  kept : c.returnExceptions = false → ∀ (i : Nat) (e : ε), s.results[i]? ≠ some (some (.error e))
  registered : ∀ child, ∀ i ∈ s.callbacks child,
    s.outcome child = none ∧ c.children[i]? = some child ∧ s.results[i]? = some none
  waiting : ∀ child, ∀ i ∈ s.due child,
    s.outcome child ≠ none ∧ c.children[i]? = some child ∧ s.results[i]? = some none
  distinct : ∀ child, (s.callbacks child).Nodup ∧ (s.due child).Nodup
  bound : ∀ child, ∀ i, i ∈ s.callbacks child ∨ i ∈ s.due child → i < k
  fresh : ∀ i, k ≤ i → i < c.children.length → s.results[i]? = some none
  valid : s.invalid = false
  completed : ∀ x, s.outer = some x → s.CompletedWith c x
  unsettled : s.outer = none → s.remaining ≠ 0
  known : ∀ child, child ∈ s.order ↔ child ∈ c.children ∧ s.outcome child ≠ none

theorem mem_update_append {f : Nat → List Nat} {child k g i : Nat} :
    i ∈ update f child (f child ++ [k]) g ↔ i ∈ f g ∨ g = child ∧ i = k := by
  by_cases hg : g = child
  · subst hg
    simp
  · simp [hg]

namespace Inv

variable {k : Nat}

theorem start (outcome : Nat → Option (Except ε α)) (hne : c.children ≠ []) :
    Inv c 0 (start c outcome) where
  length := length_replicate
  remaining := by simp [Gather.start, countP_replicate]
  stored := by
    intro i o h
    simp [Gather.start, List.getElem?_replicate] at h
  kept := by
    intro _ i e h
    simp [Gather.start, List.getElem?_replicate] at h
  registered := nofun
  waiting := nofun
  distinct := fun _ => ⟨nodup_nil, nodup_nil⟩
  bound := by rintro child i (h | h) <;> cases h
  fresh := by
    intro i _ hi
    simp [Gather.start, hi]
  valid := rfl
  completed := nofun
  unsettled := fun _ => by simpa [Gather.start] using hne
  known := by
    intro child
    simp [Gather.start, mem_filter, isSome_iff_ne_none]

theorem raise (h : Inv c k s) : Inv c (k + 1) s :=
  ⟨h.length, h.remaining, h.stored, h.kept, h.registered, h.waiting, h.distinct,
    fun child i hi => Nat.lt_succ_of_lt (h.bound child i hi), fun i hi => h.fresh i (by omega),
    h.valid, h.completed,
    h.unsettled, h.known⟩

theorem remaining_set (h : Inv c k s) {index : Nat} (hnone : s.results[index]? = some none)
    (o : Except ε α) :
    s.remaining - 1 = (s.results.set index (some o)).countP Option.isNone := by
  rcases List.getElem?_eq_some_iff.1 hnone with ⟨hlt, hget⟩
  rw [countP_set hlt, hget, h.remaining]
  simp

theorem childDone (h : Inv c k s) {index child : Nat} {o : Except ε α} (hk : index < k)
    (hchild : c.children[index]? = some child) (houtcome : s.outcome child = some o)
    (hnone : s.results[index]? = some none) (hfree : s.Free index) :
      Inv c k (s.childDone c index child o) := by
  by_cases hopen : s.outer = none
  swap
  · rw [childDone_of_settled hopen]
    exact h
  have hkeep : (c.returnExceptions = true ∨ ∃ v, o = .ok v) → Inv c k (s.childDone c index child o) := by
    intro hkept
    rcases childDone_of_kept hopen hkept index child with ⟨retrieved, heq⟩
    have hlt : index < s.results.length := (List.getElem?_eq_some_iff.1 hnone).1
    have hother : ∀ i, i ≠ index → (s.results.set index (some o))[i]? = s.results[i]? := fun i hi =>
      List.getElem?_set_ne (Ne.symm hi)
    rw [heq]
    refine ⟨?_, h.remaining_set hnone o, fun i o' ho' => ?_, fun hr i e he => ?_,
      fun g i hi => ?_, fun g i hi => ?_,
      h.distinct, h.bound, fun i hi hlen => ?_, h.valid, fun x hx => ?_, fun hx => ?_, h.known⟩
    · exact (length_set ..).trans h.length
    · rcases eq_or_ne i index with rfl | hi
      · rw [List.getElem?_set_self hlt] at ho'
        cases ho'
        exact ⟨child, hchild, houtcome⟩
      · exact h.stored i o' ((hother i hi).symm.trans ho')
    · rcases eq_or_ne i index with rfl | hi
      · rw [List.getElem?_set_self hlt] at he
        cases he
        rcases hkept with htrue | ⟨v, hv⟩
        · rw [hr] at htrue
          cases htrue
        · cases hv
      · exact h.kept hr i e ((hother i hi).symm.trans he)
    · have hne : i ≠ index := fun heq => (hfree g).1 (heq ▸ hi)
      rcases h.registered g i hi with ⟨h₁, h₂, h₃⟩
      exact ⟨h₁, h₂, (hother i hne).trans h₃⟩
    · have hne : i ≠ index := fun heq => (hfree g).2 (heq ▸ hi)
      rcases h.waiting g i hi with ⟨h₁, h₂, h₃⟩
      exact ⟨h₁, h₂, (hother i hne).trans h₃⟩
    · exact (hother i (by omega)).trans (h.fresh i hi hlen)
    · unfold State.afterStore at hx
      split at hx
      · rename_i hlast
        cases hx
        by_cases hcancel : s.cancelRequested = true
        · rw [if_pos hcancel]
          exact ⟨hlast, hcancel⟩
        · rw [if_neg hcancel]
          exact ⟨rfl, hlast, by simpa using hcancel⟩
      · cases hx
    · unfold State.afterStore at hx
      split at hx
      · cases hx
      · rename_i hlast
        exact hlast
  cases o with
  | ok v => exact hkeep (.inr ⟨v, rfl⟩)
  | error e =>
    cases hr : c.returnExceptions with
    | true => exact hkeep (.inl hr)
    | false =>
      rw [childDone_of_failure hopen hr]
      refine ⟨h.length, h.remaining, h.stored, h.kept, h.registered, h.waiting, h.distinct,
        h.bound, h.fresh, h.valid,
        fun x hx => ?_, nofun, h.known⟩
      cases hx
      exact hr

theorem free (h : Inv c k s) : s.Free k := fun child =>
  ⟨fun hi => Nat.lt_irrefl _ (h.bound child k (.inl hi)),
    fun hi => Nat.lt_irrefl _ (h.bound child k (.inr hi))⟩

theorem register (h : Inv c k s) {child : Nat} (hchild : c.children[k]? = some child) :
    Inv c (k + 1) (s.register c k child) := by
  have hlt : k < c.children.length := (List.getElem?_eq_some_iff.1 hchild).1
  have hnone := h.fresh k (Nat.le_refl k) hlt
  unfold State.register
  cases houtcome : s.outcome child with
  | some o => exact h.raise.childDone (Nat.lt_succ_self k) hchild houtcome hnone h.free
  | none =>
    have hr := h.raise
    refine ⟨h.length, h.remaining, h.stored, h.kept, fun g i hi => ?_, h.waiting,
      fun g => ⟨?_, (h.distinct g).2⟩,
      fun g i hi => ?_, hr.fresh, h.valid, h.completed, h.unsettled, h.known⟩
    · rcases mem_update_append.1 hi with hi | ⟨rfl, rfl⟩
      · exact h.registered g i hi
      · exact ⟨houtcome, hchild, hnone⟩
    · show (update s.callbacks child (s.callbacks child ++ [k]) g).Nodup
      by_cases hg : g = child
      · subst hg
        rw [update_self]
        refine nodup_append.2 ⟨(h.distinct g).1, nodup_singleton k, fun a ha b hb hab => ?_⟩
        cases mem_singleton.1 hb
        exact (h.free g).1 (hab ▸ ha)
      · rw [update_of_ne hg]
        exact (h.distinct g).1
    · rcases hi with hi | hi
      · rcases mem_update_append.1 hi with hi | ⟨rfl, rfl⟩
        · exact hr.bound g i (.inl hi)
        · exact Nat.lt_succ_self i
      · exact hr.bound g i (.inr hi)

theorem registerFrom (rest : List Nat) (h : Inv c k s) (hrest : c.children.drop k = rest) :
    Inv c c.children.length (s.registerFrom c k rest) := by
  induction rest generalizing k s with
  | nil =>
    have hk : c.children.length ≤ k := drop_eq_nil_iff.1 hrest
    refine ⟨h.length, h.remaining, h.stored, h.kept, h.registered, h.waiting,
      h.distinct, fun child i hi => ?_,
      fun i hi hlt => absurd hlt (Nat.not_lt.2 hi), h.valid, h.completed, h.unsettled, h.known⟩
    have hin : c.children[i]? = some child :=
      hi.elim (fun hi => (h.registered child i hi).2.1) fun hi => (h.waiting child i hi).2.1
    exact (List.getElem?_eq_some_iff.1 hin).1
  | cons child rest ih =>
    have hchild : c.children[k]? = some child := by
      have hhead := congrArg List.head? hrest
      rwa [List.head?_drop] at hhead
    apply ih (h.register hchild)
    rw [← drop_drop, hrest]
    rfl

theorem gather (outcome : Nat → Option (Except ε α)) :
    Inv c c.children.length (Gather.gather c outcome) := by
  unfold Gather.gather
  split
  · rename_i hnil
    -- there is nothing to wait for
    have hstate : (Gather.start c outcome).settle (.result []) =
        ⟨outcome, fun _ => [], fun _ => [], [], 0, some (.result []), false, [], false, []⟩ := by
      simp [State.settle, Gather.start, hnil]
    rw [hstate]
    refine ⟨by rw [hnil]; rfl, rfl, nofun, nofun, nofun, nofun, fun _ => ⟨nodup_nil, nodup_nil⟩, nofun, ?_, rfl, ?_,
      nofun, ?_⟩
    · intro i _ hi
      rw [hnil] at hi
      exact absurd hi (Nat.not_lt_zero i)
    · rintro x ⟨⟩
      exact ⟨rfl, rfl, rfl⟩
    · intro child
      rw [hnil]
      exact ⟨nofun, nofun⟩
  · rename_i hne
    exact (Inv.start outcome hne).registerFrom c.children rfl

end Inv

/-! ## Steps -/

theorem step_complete {child : Nat} {o : Except ε α} (hs : step c s (.complete child o) = some s') :
    child ∈ c.children ∧ s.outcome child = none ∧ s' = { s with
      outcome := update s.outcome child (some o)
      callbacks := update s.callbacks child []
      due := update s.due child (s.callbacks child)
      order := s.order ++ [child] } := by
  simp only [step] at hs
  split at hs
  · rename_i hopen
    cases hs
    exact ⟨hopen.1, isNone_iff_eq_none.1 hopen.2, rfl⟩
  · cases hs

theorem step_invoke {child : Nat} (hs : step c s (.invoke child) = some s') :
    ∃ index rest o, s.due child = index :: rest ∧ s.outcome child = some o ∧
      s' = State.childDone c { s with due := update s.due child rest } index child o := by
  simp only [step] at hs
  split at hs
  · rename_i index rest o hdue houtcome
    cases hs
    exact ⟨index, rest, o, hdue, houtcome, rfl⟩
  · cases hs

namespace Inv

variable {k : Nat}

theorem complete (h : Inv c k s) {child : Nat} (hmem : child ∈ c.children) (hnone : s.outcome child = none)
    (o : Except ε α) : Inv c k { s with
      outcome := update s.outcome child (some o)
      callbacks := update s.callbacks child []
      due := update s.due child (s.callbacks child)
      order := s.order ++ [child] } := by
  have hother : ∀ g, s.outcome g ≠ none → update s.outcome child (some o) g = s.outcome g := by
    intro g hg
    apply update_of_ne
    rintro rfl
    exact hg hnone
  refine ⟨h.length, h.remaining, fun i o' ho' => ?_, h.kept, fun g i hi => ?_,
    fun g i hi => ?_, fun g => ?_,
    fun g i hi => ?_, h.fresh, h.valid, h.completed, h.unsettled, fun g => ?_⟩
  · rcases h.stored i o' ho' with ⟨g, hg, houtcome⟩
    refine ⟨g, hg, (hother g ?_).trans houtcome⟩
    rw [houtcome]
    exact some_ne_none o'
  · dsimp only at hi ⊢
    rcases eq_or_ne g child with rfl | hg
    · rw [update_self] at hi
      cases hi
    · rw [update_of_ne hg] at hi ⊢
      exact h.registered g i hi
  · dsimp only at hi ⊢
    rcases eq_or_ne g child with rfl | hg
    · rw [update_self] at hi ⊢
      exact ⟨some_ne_none o, (h.registered g i hi).2⟩
    · rw [update_of_ne hg] at hi ⊢
      exact h.waiting g i hi
  · dsimp only
    rcases eq_or_ne g child with rfl | hg
    · rw [update_self, update_self]
      exact ⟨nodup_nil, (h.distinct g).1⟩
    · rw [update_of_ne hg, update_of_ne hg]
      exact h.distinct g
  · dsimp only at hi
    rcases eq_or_ne g child with rfl | hg
    · rw [update_self, update_self] at hi
      exact h.bound g i (.inl (hi.resolve_left not_mem_nil))
    · rw [update_of_ne hg, update_of_ne hg] at hi
      exact h.bound g i hi
  · dsimp only
    rw [mem_append, mem_singleton, h.known]
    rcases eq_or_ne g child with rfl | hg
    · rw [update_self]
      exact ⟨fun _ => ⟨hmem, some_ne_none o⟩, fun _ => .inr rfl⟩
    · rw [update_of_ne hg]
      exact ⟨fun hor => hor.resolve_right hg, .inl⟩

theorem shorten (h : Inv c k s) {child : Nat} {rest : List Nat} (hrest : rest.Sublist (s.due child)) :
    Inv c k { s with due := update s.due child rest } := by
  have hsub : ∀ g i, i ∈ update s.due child rest g → i ∈ s.due g := by
    intro g i hi
    rcases eq_or_ne g child with rfl | hg
    · rw [update_self] at hi
      exact hrest.subset hi
    · rwa [update_of_ne hg] at hi
  refine ⟨h.length, h.remaining, h.stored, h.kept, h.registered, fun g i hi =>
    h.waiting g i (hsub g i hi), fun g => ?_,
    fun g i hi => h.bound g i (hi.imp_right (hsub g i)), h.fresh, h.valid,
    h.completed, h.unsettled, h.known⟩
  refine ⟨(h.distinct g).1, ?_⟩
  dsimp only
  rcases eq_or_ne g child with rfl | hg
  · rw [update_self]
    exact (h.distinct g).2.sublist hrest
  · rw [update_of_ne hg]
    exact (h.distinct g).2

theorem free_of_head (h : Inv c k s) {child index : Nat} {rest : List Nat}
    (hdue : s.due child = index :: rest) :
    ({ s with due := update s.due child rest } : State α ε).Free index := by
  have hmem : index ∈ s.due child := hdue ▸ mem_cons_self
  rcases h.waiting child index hmem with ⟨hdone, hchild, -⟩
  have hsame : ∀ g, c.children[index]? = some g → g = child :=
    fun g hg => Option.some.inj (hg.symm.trans hchild)
  intro g
  refine ⟨fun hi => ?_, fun hi => ?_⟩
  · rcases h.registered g index hi with ⟨hopen, hg, -⟩
    exact hdone (hsame g hg ▸ hopen)
  · replace hi : index ∈ update s.due child rest g := hi
    rcases eq_or_ne g child with rfl | hg
    · rw [update_self] at hi
      have hnodup := (h.distinct g).2
      rw [hdue] at hnodup
      exact (nodup_cons.1 hnodup).1 hi
    · rw [update_of_ne hg] at hi
      exact hg (hsame g (h.waiting g index hi).2.1)

theorem invoke (h : Inv c k s) {child index : Nat} {rest : List Nat} {o : Except ε α}
    (hdue : s.due child = index :: rest) (houtcome : s.outcome child = some o) :
    Inv c k (State.childDone c { s with due := update s.due child rest } index child o) := by
  have hmem : index ∈ s.due child := hdue ▸ mem_cons_self
  rcases h.waiting child index hmem with ⟨-, hchild, hnone⟩
  have hsub : rest.Sublist (s.due child) := by
    rw [hdue]
    exact sublist_cons_self index rest
  have hshort : Inv c k { s with due := update s.due child rest } := h.shorten hsub
  exact hshort.childDone (h.bound child index (.inr hmem)) hchild houtcome hnone (h.free_of_head hdue)

theorem cancel (h : Inv c k s) (hopen : s.outer = none) : Inv c k { s with cancelRequested := true } :=
  ⟨h.length, h.remaining, h.stored, h.kept, h.registered, h.waiting, h.distinct, h.bound, h.fresh, h.valid,
    fun _ hx => (nomatch hopen.symm.trans hx), h.unsettled, h.known⟩

theorem step {a : Action α ε} (h : Inv c k s) (hs : Gather.step c s a = some s') : Inv c k s' := by
  cases a with
  | complete child o =>
    rcases step_complete hs with ⟨hmem, hnone, rfl⟩
    exact h.complete hmem hnone o
  | invoke child =>
    rcases step_invoke hs with ⟨index, rest, o, hdue, houtcome, rfl⟩
    exact h.invoke hdue houtcome
  | leave child =>
    cases hs
    exact h.shorten (nil_sublist _)
  | cancel =>
    cases hs
    split
    · exact h
    · rename_i hopen
      exact h.cancel (by simpa using hopen)

/-! ### What it gives -/

theorem results_eq (h : Inv c k s) (hnone : s.remaining = 0) : s.results = c.children.map s.outcome := by
  have hall : ∀ r ∈ s.results, ¬ r.isNone = true := countP_eq_zero.1 (h.remaining.symm.trans hnone)
  apply ext_getElem?
  intro i
  rw [List.getElem?_map]
  cases hi : s.results[i]? with
  | none =>
    have hle := List.getElem?_eq_none_iff.1 hi
    rw [List.getElem?_eq_none (by rw [← h.length]; exact hle)]
    rfl
  | some r =>
    have hr := hall r (mem_of_getElem? hi)
    rcases ne_none_iff_exists'.1 (fun hn => hr (isNone_iff_eq_none.2 hn)) with ⟨o, rfl⟩
    rcases h.stored i o hi with ⟨child, hchild, houtcome⟩
    rw [hchild, map_some, houtcome]

theorem all_done (h : Inv c k s) (hnone : s.remaining = 0) : ∀ child ∈ c.children,
    s.outcome child ≠ none := by
  intro child hmem hopen
  have hin : (none : Option (Except ε α)) ∈ s.results := by
    rw [h.results_eq hnone]
    exact mem_map.2 ⟨child, hmem, hopen⟩
  have hcount := countP_eq_zero.1 (h.remaining.symm.trans hnone) none hin
  exact hcount rfl

theorem positional (h : Inv c k s) : s.Positional c where
  valid := h.valid
  results := by
    intro l hl
    rcases h.completed _ hl with ⟨rfl, hnone, -⟩
    have hresults := h.results_eq hnone
    refine ⟨hresults, fun o ho => ?_⟩
    rw [hresults] at ho
    rcases mem_map.1 ho with ⟨child, hmem, rfl⟩
    exact h.all_done hnone child hmem
  collected := by
    intro htrue e he
    have hfalse : c.returnExceptions = false := h.completed _ he
    rw [htrue] at hfalse
    cases hfalse
  succeeded := by
    intro hr l hl e he
    rcases h.completed _ hl with ⟨rfl, -, -⟩
    rcases mem_iff_getElem?.1 he with ⟨i, hi⟩
    exact h.kept hr i e hi

end Inv

end Pytealet.Scheduler.Gather
