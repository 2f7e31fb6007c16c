import Mathlib.Data.List.Nodup
import Mathlib.Tactic.ByContra
import Pytealet.Lib.Transition

/-!
# DoneCallbacks — the callbacks of a `Future`

`_run_done_callbacks` takes the whole list before it runs the first callback.  What a callback
raises leaves the loop, and with it `set_result` or `set_exception`; the callbacks after it are in
no list any more.

What callbacks do, and what other tealets do while one of them is switched out, are steps of their
own.  Every registration has a number.
-/

namespace Pytealet.Tasks.DoneCallbacks

open Lib Lib.Transition List

/-- An entry of `_done_callbacks`. -/
structure Entry where
  registration : Nat
  callback : Nat
  /-- the context has been given to `add_done_callback`, so that it may be in use elsewhere -/
  given : Bool
  deriving DecidableEq, Repr

inductive Outcome
  | result
  | exception (cancelled : Bool)
  deriving DecidableEq, Repr

/-- Where the call is that has completed the future. -/
inductive Loop
  /-- there is none yet -/
  | idle
  | between (rest : List Entry)
  /-- in a callback -/
  | inside (rest : List Entry)
  /-- an exception has left it -/
  | raised
  deriving DecidableEq, Repr

structure State where
  /-- `_done`, with `_result` or `_exception` -/
  outcome : Option Outcome := none
  logTraceback : Bool := false
  doneCallbacks : List Entry := []
  loop : Loop := .idle
  /-- what has been handed to the asyncio loop -/
  queued : List Entry := []
  nextRegistration : Nat := 0
  /-- the registrations at the completion -/
  due : List Nat := []
  /-- the registrations whose callbacks have been invoked, in this order -/
  invoked : List Nat := []
  deriving DecidableEq, Repr

inductive Action
  /-- `busy`: the context that is given is in use -/
  | addDoneCallback (callback : Nat) (given asyncioLoop busy : Bool)
  | removeDoneCallback (callback : Nat)
  /-- `set_result`, `set_exception` or `cancel`; `wakes` if `Event.set` does not raise -/
  | complete (outcome : Outcome) (wakes : Bool)
  /-- the loop takes its next callback -/
  | next (busy : Bool)
  | returns
  | raises
  /-- the asyncio loop runs what has been handed to it -/
  | runQueued
  deriving DecidableEq, Repr

namespace State

def done (s : State) : Bool :=
  s.outcome.isSome

def invoke (s : State) (e : Entry) : State :=
  { s with invoked := s.invoked ++ [e.registration] }

def addDoneCallback (s : State) (callback : Nat) (given asyncioLoop busy : Bool) : State :=
  let e : Entry := ⟨s.nextRegistration, callback, given⟩
  let s₁ := { s with nextRegistration := s.nextRegistration + 1 }
  if s.done then
    if asyncioLoop then { s₁ with queued := s.queued ++ [e] }
    else if given && busy then s₁
    else s₁.invoke e
  else { s₁ with doneCallbacks := s.doneCallbacks ++ [e] }

/-- `remove_done_callback`, with the number of callbacks that have been removed -/
def removeDoneCallback (s : State) (callback : Nat) : Nat × State :=
  let kept := s.doneCallbacks.filter fun e => e.callback ≠ callback
  (s.doneCallbacks.length - kept.length, { s with doneCallbacks := kept })

/-- `set_result`, `set_exception` and `cancel` up to the loop of `_run_done_callbacks`. -/
def complete (s : State) (outcome : Outcome) (wakes : Bool) : State :=
  if s.done then s
  else
    let s₁ := { s with
      outcome := some outcome
      logTraceback := decide (outcome = Outcome.exception false)
      due := s.doneCallbacks.map Entry.registration }
    if wakes then { s₁ with doneCallbacks := [], loop := .between s.doneCallbacks } else
      { s₁ with loop := .raised }

end State

def step (s : State) : Action → Option State
  | .addDoneCallback callback given asyncioLoop busy =>
    some (s.addDoneCallback callback given asyncioLoop busy)
  | .removeDoneCallback callback => some (s.removeDoneCallback callback).2
  | .complete outcome wakes => some (s.complete outcome wakes)
  | .next busy =>
    match s.loop with
    | .between (e :: rest) =>
      if e.given && busy then some { s with loop := .raised } else
        some { s.invoke e with loop := .inside rest }
    | _ => none
  | .returns =>
    match s.loop with
    | .inside rest => some { s with loop := .between rest }
    | _ => none
  | .raises =>
    match s.loop with
    | .inside _ => some { s with loop := .raised }
    | _ => none
  | .runQueued =>
    match s.queued with
    | e :: rest => some { s.invoke e with queued := rest }
    | [] => none

def init : State := {}

namespace State

/-- The callbacks registered at the completion that have been invoked. -/
def served (s : State) : List Nat :=
  s.invoked.filter fun r => r ∈ s.due

/-- They are invoked in the order of registration, and none of them twice. -/
def InOrder (s : State) : Prop :=
  s.served <+: s.due ∧ s.due.Nodup

/-- Once the call that completes the future has come to its end, all of them have been invoked. -/
def AllInvoked (s : State) : Prop :=
  s.loop = .between [] ∨ s.loop = .raised → s.served = s.due

/-- No callback raises that has another one behind it, no context is in use when its callback is
due, and `Event.set` raises only if there are no callbacks. -/
def Clear (s : State) : Action → Prop
  | .complete _ wakes => s.done = false → wakes = false → s.doneCallbacks = []
  | .next busy =>
    match s.loop with
    | .between (e :: _) => (e.given && busy) = false
    | _ => True
  | .raises =>
    match s.loop with
    | .inside rest => rest = []
    | _ => True
  | _ => True

end State

variable {s s' : State}

/-! ## Invocations -/

theorem served_invoke_of_notMem {e : Entry} (h : e.registration ∉ s.due) :
    (s.invoke e).served = s.served := by
  show (s.invoked ++ [e.registration]).filter (fun r => r ∈ s.due) = s.served
  rw [filter_append, filter_cons_of_neg (by simpa using h)]
  exact append_nil _

theorem served_invoke_of_mem {e : Entry} (h : e.registration ∈ s.due) :
    (s.invoke e).served = s.served ++ [e.registration] := by
  show (s.invoked ++ [e.registration]).filter (fun r => r ∈ s.due) = s.served ++ [e.registration]
  rw [filter_append, filter_cons_of_pos (by simpa using h)]
  rfl

/-! ## The invariant -/

/-- What the loop still has is what is due and has not been invoked. -/
structure Inv (s : State) : Prop where
  idle : s.loop = .idle ↔ s.outcome = none
  fresh : s.outcome = none → s.due = [] ∧ s.queued = [] ∧ s.invoked = []
  regs : (s.doneCallbacks.map Entry.registration).Nodup
  known : ∀ e ∈ s.doneCallbacks, e.registration < s.nextRegistration
  distinct : s.due.Nodup
  bound : ∀ r ∈ s.due, r < s.nextRegistration
  later : ∀ e ∈ s.queued, e.registration ∉ s.due
  taken : ∀ rest, s.loop = .between rest ∨ s.loop = .inside rest →
    s.served ++ rest.map Entry.registration = s.due
  stopped : s.loop = .raised → s.served <+: s.due

namespace Inv

theorem init : Inv init where
  idle := Iff.intro (fun _ => rfl) fun _ => rfl
  fresh := fun _ => ⟨rfl, rfl, rfl⟩
  regs := nodup_nil
  known := nofun
  distinct := nodup_nil
  bound := nofun
  later := nofun
  taken := by rintro rest (h | h) <;> cases h
  stopped := nofun

theorem invokeOther (h : Inv s) {e : Entry} (hdone : s.outcome ≠ none) (he : e.registration ∉ s.due) :
    Inv (s.invoke e) := by
  refine ⟨h.idle, fun hnone => absurd hnone hdone, h.regs, h.known, h.distinct, h.bound, h.later, ?_, ?_⟩
  · rw [served_invoke_of_notMem he]
    exact h.taken
  · rw [served_invoke_of_notMem he]
    exact h.stopped

theorem number (h : Inv s) : Inv { s with nextRegistration := s.nextRegistration + 1 } :=
  ⟨h.idle, h.fresh, h.regs, fun e he => Nat.lt_succ_of_lt (h.known e he), h.distinct,
    fun r hr => Nat.lt_succ_of_lt (h.bound r hr), h.later, h.taken, h.stopped⟩

theorem addDoneCallback (h : Inv s) (callback : Nat) (given asyncioLoop busy : Bool) :
    Inv (s.addDoneCallback callback given asyncioLoop busy) := by
  have hnew : s.nextRegistration ∉ s.due := fun hmem => Nat.lt_irrefl _ (h.bound _ hmem)
  unfold State.addDoneCallback
  dsimp only
  split
  · rename_i hdone
    have hsome : s.outcome ≠ none := Option.isSome_iff_ne_none.1 hdone
    split
    · have hn := h.number
      refine ⟨hn.idle, fun hnone => absurd hnone hsome, hn.regs, hn.known, hn.distinct,
        hn.bound, fun e he => ?_,
        hn.taken, hn.stopped⟩
      rcases mem_append.1 he with he | he
      · exact h.later e he
      · cases mem_singleton.1 he
        exact hnew
    · split
      · exact h.number
      · exact h.number.invokeOther hsome hnew
  · have hn := h.number
    refine ⟨hn.idle, hn.fresh, ?_, fun e he => ?_, hn.distinct, hn.bound, hn.later, hn.taken, hn.stopped⟩
    · rw [map_append]
      refine nodup_append.2 ⟨h.regs, nodup_singleton _, fun r hr r' hr' heq => ?_⟩
      rcases mem_map.1 hr with ⟨e, he, rfl⟩
      rw [map_singleton, mem_singleton] at hr'
      exact Nat.ne_of_lt (h.known e he) (heq.trans hr')
    · rcases mem_append.1 he with he | he
      · exact Nat.lt_succ_of_lt (h.known e he)
      · cases mem_singleton.1 he
        exact Nat.lt_succ_self _

theorem removeDoneCallback (h : Inv s) (callback : Nat) : Inv (s.removeDoneCallback callback).2 :=
  ⟨h.idle, h.fresh, h.regs.sublist (filter_sublist.map _), fun e he => h.known e (mem_filter.1 he).1,
    h.distinct, h.bound, h.later, h.taken, h.stopped⟩

theorem complete (h : Inv s) (outcome : Outcome) (wakes : Bool) : Inv (s.complete outcome wakes) := by
  unfold State.complete
  split
  · exact h
  · rename_i hdone
    have hnone : s.outcome = none := by simpa [State.done] using hdone
    rcases h.fresh hnone with ⟨-, hqueued, hinvoked⟩
    have hbound : ∀ r ∈ s.doneCallbacks.map Entry.registration, r < s.nextRegistration := by
      intro r hr
      rcases mem_map.1 hr with ⟨e, he, rfl⟩
      exact h.known e he
    have hlater : ∀ e ∈ s.queued, e.registration ∉ s.doneCallbacks.map Entry.registration := by
      rw [hqueued]
      exact nofun
    dsimp only
    split
    · refine ⟨⟨nofun, nofun⟩, nofun, nodup_nil, nofun, h.regs, hbound, hlater, ?_, nofun⟩
      rintro rest (hrest | hrest)
      · cases hrest
        simp [State.served, hinvoked]
      · cases hrest
    · refine ⟨⟨nofun, nofun⟩, nofun, h.regs, h.known, h.regs, hbound, hlater, ?_, fun _ => ?_⟩
      · rintro rest (hrest | hrest) <;> cases hrest
      · simp [State.served, hinvoked]

theorem setLoop (h : Inv s) {loop : Loop} (hloop : s.loop ≠ .idle) (hidle : loop ≠ .idle)
    (htaken : ∀ rest, loop = .between rest ∨ loop = .inside rest →
      s.served ++ rest.map Entry.registration = s.due)
    (hstopped : loop = .raised → s.served <+: s.due) : Inv { s with loop } := by
  have hsome : s.outcome ≠ none := fun hnone => hloop (h.idle.2 hnone)
  exact ⟨⟨fun heq => absurd heq hidle, fun hnone => absurd hnone hsome⟩, fun hnone =>
    absurd hnone hsome, h.regs,
    h.known, h.distinct, h.bound, h.later, htaken, hstopped⟩

theorem invokeNext (h : Inv s) {e : Entry} {rest : List Entry} (hloop : s.loop = .between (e :: rest)) :
    Inv { s.invoke e with loop := .inside rest } := by
  have htaken := h.taken _ (.inl hloop)
  have hdue : e.registration ∈ s.due := by
    rw [← htaken]
    exact mem_append_right _ mem_cons_self
  have hserved := served_invoke_of_mem hdue
  have hsome : s.outcome ≠ none := by
    intro hnone
    have hidle := h.idle.2 hnone
    rw [hloop] at hidle
    cases hidle
  refine ⟨⟨nofun, fun hnone => absurd hnone hsome⟩, fun hnone => absurd hnone hsome,
    h.regs, h.known, h.distinct,
    h.bound, h.later, ?_, nofun⟩
  rintro rest' (hrest | hrest)
  · cases hrest
  · cases hrest
    show (s.invoke e).served ++ rest.map Entry.registration = s.due
    rw [hserved, append_assoc]
    exact htaken

theorem runQueued (h : Inv s) {e : Entry} {rest : List Entry} (hqueued : s.queued = e :: rest) :
    Inv { s.invoke e with queued := rest } := by
  have hsome : s.outcome ≠ none := by
    intro hnone
    have hnil := (h.fresh hnone).2.1
    rw [hqueued] at hnil
    cases hnil
  have hinvoked := h.invokeOther hsome (h.later e (hqueued ▸ mem_cons_self))
  exact ⟨hinvoked.idle, fun hnone => absurd hnone hsome, hinvoked.regs, hinvoked.known, hinvoked.distinct,
    hinvoked.bound, fun e' he' => h.later e' (hqueued ▸ mem_cons_of_mem _ he'),
    hinvoked.taken, hinvoked.stopped⟩

theorem served_prefix (h : Inv s) {rest : List Entry}
    (hloop : s.loop = .between rest ∨ s.loop = .inside rest) :
    s.served <+: s.due :=
  ⟨rest.map Entry.registration, h.taken rest hloop⟩

/-- What is due is invoked in order, until a callback raises. -/
theorem step {a : Action} (h : Inv s) (hs : DoneCallbacks.step s a = some s') : Inv s' := by
  cases a with
  | addDoneCallback callback given asyncioLoop busy =>
    cases hs
    exact h.addDoneCallback callback given asyncioLoop busy
  | removeDoneCallback callback =>
    cases hs
    exact h.removeDoneCallback callback
  | complete outcome wakes =>
    cases hs
    exact h.complete outcome wakes
  | next busy =>
    simp only [DoneCallbacks.step] at hs
    split at hs
    · rename_i hloop
      split at hs
      · cases hs
        refine h.setLoop (by rw [hloop]; nofun) nofun ?_ fun _ => h.served_prefix (.inl hloop)
        rintro rest (hrest | hrest) <;> cases hrest
      · cases hs
        exact h.invokeNext hloop
    · cases hs
  | returns =>
    simp only [DoneCallbacks.step] at hs
    split at hs
    · rename_i hloop
      cases hs
      refine h.setLoop (by rw [hloop]; nofun) nofun ?_ nofun
      rintro rest (hrest | hrest)
      · cases hrest
        exact h.taken _ (.inr hloop)
      · cases hrest
    · cases hs
  | raises =>
    simp only [DoneCallbacks.step] at hs
    split at hs
    · rename_i hloop
      cases hs
      refine h.setLoop (by rw [hloop]; nofun) nofun ?_ fun _ => h.served_prefix (.inr hloop)
      rintro rest (hrest | hrest) <;> cases hrest
    · cases hs
  | runQueued =>
    simp only [DoneCallbacks.step] at hs
    split at hs
    · rename_i hqueued
      cases hs
      exact h.runQueued hqueued
    · cases hs

theorem inOrder (h : Inv s) : s.InOrder := by
  refine ⟨?_, h.distinct⟩
  cases hloop : s.loop with
  | idle =>
    rcases h.fresh (h.idle.1 hloop) with ⟨-, -, hinvoked⟩
    simp [State.served, hinvoked]
  | between rest => exact h.served_prefix (.inl hloop)
  | inside rest => exact h.served_prefix (.inr hloop)
  | raised => exact h.stopped hloop

end Inv

/-! ## Runs -/

theorem allInvoked_step {a : Action} (h : Inv s) (hall : s.AllInvoked) (hc : s.Clear a)
    (hs : step s a = some s') :
    s'.AllInvoked := by
  have hbetween : s'.loop = .between [] → s'.served = s'.due := by
    intro hloop
    have htaken := (h.step hs).taken [] (.inl hloop)
    rwa [map_nil, append_nil] at htaken
  rintro (hloop | hraised)
  · exact hbetween hloop
  · cases a with
    | addDoneCallback callback given asyncioLoop busy =>
      cases hs
      unfold State.addDoneCallback at hraised ⊢
      dsimp only at hraised ⊢
      split at hraised
      · rename_i hdone
        have hnew : s.nextRegistration ∉ s.due := fun hmem => Nat.lt_irrefl _ (h.bound _ hmem)
        rw [if_pos hdone]
        split at hraised
        · rename_i hqueue
          rw [if_pos hqueue]
          exact hall (.inr hraised)
        · rename_i hqueue
          rw [if_neg hqueue]
          split at hraised
          · rename_i hbusy
            rw [if_pos hbusy]
            exact hall (.inr hraised)
          · rename_i hbusy
            rw [if_neg hbusy]
            exact (served_invoke_of_notMem
              (s := { s with nextRegistration := s.nextRegistration + 1 }) hnew).trans
              (hall (.inr hraised))
      · rename_i hdone
        rw [if_neg hdone]
        exact hall (.inr hraised)
    | removeDoneCallback callback =>
      cases hs
      exact hall (.inr hraised)
    | complete outcome wakes =>
      cases hs
      unfold State.complete at hraised ⊢
      split at hraised
      · rename_i hdone
        rw [if_pos hdone]
        exact hall (.inr hraised)
      · rename_i hdone
        rw [if_neg hdone]
        have hfalse : s.done = false := by simpa using hdone
        cases wakes with
        | true => cases hraised
        | false =>
          have hnil := hc hfalse rfl
          have hnone : s.outcome = none := by simpa [State.done] using hdone
          simp [State.served, (h.fresh hnone).2.2, hnil]
    | next busy =>
      simp only [step] at hs
      split at hs
      · rename_i hloop
        simp only [State.Clear, hloop] at hc
        rw [if_neg (by simp [hc])] at hs
        cases hs
        cases hraised
      · cases hs
    | returns =>
      simp only [step] at hs
      split at hs
      · cases hs
        cases hraised
      · cases hs
    | raises =>
      simp only [step] at hs
      split at hs
      · rename_i rest hloop
        simp only [State.Clear, hloop] at hc
        cases hs
        have htaken := h.taken rest (.inr hloop)
        rw [hc, map_nil, append_nil] at htaken
        exact htaken
      · cases hs
    | runQueued =>
      simp only [step] at hs
      split at hs
      · rename_i e rest hqueued
        cases hs
        have hlater := h.later e (hqueued ▸ mem_cons_self)
        exact (served_invoke_of_notMem hlater).trans (hall (.inr hraised))
      · cases hs

theorem not_allInvoked_step {a : Action} (h : Inv s) (hc : ¬ s.Clear a) (hs : step s a = some s') :
    ¬ s'.AllInvoked := by
  intro hall
  have hlength : ∀ rest : List Entry, s.served ++ rest.map Entry.registration = s.due → s.served = s.due →
      rest = [] := by
    intro rest htaken heq
    rw [heq] at htaken
    have hnil : rest.map Entry.registration = [] := append_right_eq_self.1 htaken
    exact map_eq_nil_iff.1 hnil
  cases a with
  | complete outcome wakes =>
    simp only [State.Clear, Classical.not_imp] at hc
    rcases hc with ⟨hdone, hwakes, hne⟩
    cases hs
    have hnone : s.outcome = none := by simpa [State.done] using hdone
    simp only [State.complete, hdone, hwakes] at hall
    have hserved := hall (.inr rfl)
    simp [State.served, (h.fresh hnone).2.2] at hserved
    exact hne hserved
  | next busy =>
    simp only [step] at hs
    split at hs
    · rename_i e rest hloop
      simp only [State.Clear, hloop] at hc
      rw [if_pos (by simpa using hc)] at hs
      cases hs
      cases hlength _ (h.taken _ (.inl hloop)) (hall (.inr rfl))
    · cases hs
  | raises =>
    simp only [step] at hs
    split at hs
    · rename_i rest hloop
      simp only [State.Clear, hloop] at hc
      cases hs
      exact hc (hlength _ (h.taken _ (.inr hloop)) (hall (.inr rfl)))
    · cases hs
  | _ => exact hc trivial

/-- Callbacks are invoked in order and once in every run; none is left out throughout a run if and
only if none raises before another one, none finds its context in use and `Event.set` raises only
where there are none. -/
theorem done_callbacks_invoked (run : List Action) :
    Always step State.InOrder init run ∧
      (Always step State.AllInvoked init run ↔ Along step State.Clear init run) := by
  constructor
  · exact always_of_invariant (I := Inv) (fun _ hI => hI.inOrder)
      (fun _ _ _ hI hs => hI.step hs) run init Inv.init
  · exact always_iff_along (I := fun s => Inv s ∧ s.AllInvoked) (fun _ hI => hI.2)
      (fun _ _ _ hI hc hs => ⟨hI.1.step hs, allInvoked_step hI.1 hI.2 hc hs⟩)
      (fun _ _ _ hI hc hs => not_allInvoked_step hI.1 hc hs) run init
      ⟨Inv.init, by rintro (hloop | hloop) <;> cases hloop⟩

/-- The first of two callbacks raises. -/
theorem raising_callback_drops_the_next : ∃ s,
    exec step init [.addDoneCallback 1 false false false, .addDoneCallback 2 false false false,
      .complete .result true,
      .next false, .raises] = some s ∧
    s.invoked = [0] ∧ ¬ s.AllInvoked := by
  refine ⟨_, rfl, rfl, fun h => ?_⟩
  exact absurd (h (.inr rfl)) (by decide)

end Pytealet.Tasks.DoneCallbacks
