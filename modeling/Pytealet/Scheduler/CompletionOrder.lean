import Mathlib.Data.List.Dedup
import Mathlib.Data.List.Nodup
import Mathlib.Logic.Function.Basic
import Pytealet.Lib.Transition
import Pytealet.Tasks.DoneCallbacks

/-!
# CompletionOrder — the callbacks of `as_completed`

`_as_completed_futures` registers `complete_next` with every child that is not done, in its first
step, and takes it out again when it ends.  Every child comes through a queue, which is shut down
with the last one.

A child that gets its outcome runs its callbacks in a loop, which may be left before it reaches
`complete_next`, and in which another callback may complete another child.
-/

namespace Pytealet.Scheduler.CompletionOrder

open Lib Lib.Transition Function List

open Tasks.DoneCallbacks (Outcome)

/-- The generator. -/
inductive Gen
  | created
  /-- in a step, parked in `sget` -/
  | waiting
  /-- at the `yield` -/
  | suspended
  | ended
  deriving DecidableEq, Repr

structure State where
  /-- what is given, after `ensure_future` -/
  entries : List Nat
  outcome : Nat → Option Outcome
  /-- the children with `complete_next` in their `_done_callbacks` -/
  registered : List Nat := []
  /-- those whose loop has still to call it, in the order of the completions -/
  due : List Nat := []
  pendingCallbacks : List Nat := []
  /-- the queue -/
  completed : List Nat := []
  isShutdown : Bool := false
  /-- the getter has been taken from the queue, and not been set -/
  deaf : Bool := false
  gen : Gen := .created
  /-- the generator has ended with `StopIteration` -/
  exhausted : Bool := false
  yielded : List Nat := []
  /-- `put_nowait` has raised `QueueShutDown` -/
  refused : Bool := false
  /-- the children in the order of their completions; those that are done in the first step come in
  the order in which they are given -/
  order : List Nat := []

namespace State

def done (s : State) (child : Nat) : Bool :=
  (s.outcome child).isSome

/-- `list(dict.fromkeys(children))` -/
def children (s : State) : List Nat :=
  s.entries.eraseDups

/-- Inside of the `try` block. -/
def Live (s : State) : Prop :=
  s.gen = .waiting ∨ s.gen = .suspended

instance (s : State) : Decidable s.Live :=
  inferInstanceAs (Decidable (_ ∨ _))

/-- The getter is in the queue. -/
def Parked (s : State) : Prop :=
  s.gen = .waiting ∧ s.completed = [] ∧ s.isShutdown = false

instance (s : State) : Decidable s.Parked :=
  inferInstanceAs (Decidable (_ ∧ _))

/-- The `finally` block. -/
def finish (s : State) : State :=
  { s with gen := .ended, registered := s.registered.filter fun child => child ∉ s.pendingCallbacks }

/-- `complete_next`; `wakes` if `Event.set` of a getter does not raise -/
def completeNext (s : State) (child : Nat) (wakes : Bool) : State :=
  let s₁ := { s with pendingCallbacks := s.pendingCallbacks.erase child }
  if s.isShutdown then { s₁ with refused := true }
  else
    let s₂ := { s₁ with completed := s.completed ++ [child] }
    if s.Parked ∧ wakes = false then { s₂ with deaf := true }
    else if s₂.pendingCallbacks = [] then { s₂ with isShutdown := true }
    else s₂

/-- One turn of the loop over the children. -/
def register (s : State) (child : Nat) : State :=
  if s.done child then s.completeNext child true else { s with registered := s.registered ++ [child] }

/-- The first step, up to the `with` block. -/
def enter (s : State) : State :=
  s.children.foldl register { s with pendingCallbacks := s.children, order := s.children.filter s.done }

/-- `completed.sget()` and the `yield` -/
def sget (s : State) : State :=
  match s.completed with
  | child :: rest => { s with completed := rest, gen := .suspended, yielded := s.yielded ++ [child] }
  | [] =>
    -- `QueueShutDown`
    if s.isShutdown then { s.finish with exhausted := true } else { s with gen := .waiting }

def first (s : State) : State :=
  if s.children = [] then { s with gen := .ended, exhausted := true } else s.enter.sget

end State

inductive ChildAction
  /-- a child gets its outcome; `wakes` if its `Event.set` does not raise -/
  | complete (child : Nat) (o : Outcome) (wakes : Bool)
  /-- the loop calls `complete_next` -/
  | invoke (child : Nat) (wakes : Bool)
  /-- the loop is left -/
  | leave (child : Nat)
  deriving DecidableEq, Repr

def childStep (s : State) : ChildAction → Option State
  | .complete child o wakes =>
    if child ∈ s.entries ∧ s.done child = false then
      let s₁ := { s with outcome := update s.outcome child (some o), order := s.order ++ [child] }
      if child ∈ s.registered ∧ wakes = true then
        some { s₁ with registered := s.registered.erase child, due := s.due ++ [child] }
      else some s₁
    else none
  | .invoke child wakes =>
    if child ∈ s.due then
      some (State.completeNext { s with due := s.due.erase child } child wakes) else none
  | .leave child => some { s with due := s.due.erase child }

inductive Action
  | child (a : ChildAction)
  /-- the consumer makes a step -/
  | next
  /-- the tealet that is parked in `sget` goes on -/
  | resume
  /-- an exception is thrown into it, the one of the timeout included -/
  | interrupt
  /-- the generator is closed or dropped, or the consumer throws an exception into it -/
  | close
  deriving DecidableEq, Repr

def step (s : State) : Action → Option State
  | .child a => childStep s a
  | .next =>
    match s.gen with
    | .created => some s.first
    | .suspended => some s.sget
    -- `generator already executing`, and `StopIteration`
    | .waiting | .ended => some s
  | .resume =>
    if s.gen = .waiting ∧ s.deaf = false ∧ (s.completed ≠ [] ∨ s.isShutdown = true) then
      some s.sget else none
  | .interrupt => if s.gen = .waiting then some s.finish else none
  | .close =>
    match s.gen with
    | .created => some { s with gen := .ended }
    | .suspended => some s.finish
    | .waiting | .ended => some s

/-- `as_completed`, with the futures as they are then -/
def asCompleted (entries : List Nat) (outcome : Nat → Option Outcome) : State :=
  { entries, outcome }

/-! ## What is asked of it -/

namespace State

/-- Nothing is yielded twice; the iterator stops when all children have been yielded, and it leaves
no callback behind. -/
structure Tidy (s : State) : Prop where
  distinct : s.yielded.Nodup
  completed : ∀ child ∈ s.yielded, child ∈ s.entries ∧ s.done child = true
  every : s.exhausted = true → s.yielded.Perm s.children
  removed : s.gen = .created ∨ s.gen = .ended → s.registered = []
  accepted : s.refused = false

/-- The children come in the order of their completions; when no callback is to be called any more,
they have all been yielded or are in the queue.  The tealet that waits in `sget` is told of what is
put in the queue. -/
structure InOrder (s : State) : Prop where
  yielded : s.yielded <+: s.order
  every : s.exhausted = true → s.yielded = s.order
  queued : s.Live → s.due = [] → s.yielded ++ s.completed = s.order
  shut : s.Live → s.due = [] → (∀ child ∈ s.entries, s.done child = true) → s.isShutdown = true
  heard : s.Live → s.deaf = false

/-- While the generator is inside of its `try` block, `complete_next` is called for every child that
is completed, in the order of the completions, and wakes the tealet that waits in `sget`. -/
def InTurn (s : State) : ChildAction → Prop
  | .complete child _ wakes => s.Live → child ∈ s.registered → wakes = true
  | .invoke child wakes => s.Live → s.due.head? = some child ∧ (s.Parked → wakes = true)
  | .leave child => s.Live → child ∉ s.due

end State

/-! ## The invariant -/

variable {s s' : State}

/-- What holds of the lists, inside and outside of the `try` block. -/
structure Base (s : State) : Prop where
  apart : (s.yielded ++ s.completed ++ s.pendingCallbacks).Nodup
  known : ∀ child ∈ s.yielded ++ s.completed, child ∈ s.entries ∧ s.done child = true
  due : ∀ child ∈ s.due, child ∈ s.pendingCallbacks ∧ child ∈ s.entries ∧ s.done child = true
  dueNodup : s.due.Nodup
  registered : ∀ child ∈ s.registered, child ∈ s.pendingCallbacks ∧ child ∉ s.due
  registeredNodup : s.registered.Nodup
  shut : s.isShutdown = true → s.pendingCallbacks = []
  accepted : s.refused = false
  orderNodup : s.order.Nodup
  order : ∀ child ∈ s.order, child ∈ s.entries ∧ s.done child = true

/-- What holds inside of the `try` block. -/
structure Body (s : State) : Prop where
  whole : (s.yielded ++ s.completed ++ s.pendingCallbacks).Perm s.children
  waits : ∀ child ∈ s.pendingCallbacks, s.done child = false → child ∈ s.registered
  ordered : ∀ child ∈ s.entries, s.done child = true → child ∈ s.order

structure Inv (s : State) : Prop where
  base : Base s
  created : s.gen = .created → s.registered = [] ∧ s.due = [] ∧ s.yielded = [] ∧ s.completed = [] ∧
    s.pendingCallbacks = [] ∧ s.isShutdown = false ∧ s.deaf = false
  live : s.Live → Body s
  ended : s.gen = .ended → s.registered = []
  exhausted : s.exhausted = true → s.gen = .ended ∧ s.yielded.Perm s.children

theorem nodup_eraseDups (l : List Nat) : l.eraseDups.Nodup := by
  induction hn : l.length using Nat.strongRecOn generalizing l with
  | ind n ih =>
    subst hn
    cases l with
    | nil => exact nodup_nil
    | cons a as =>
      rw [eraseDups_cons, nodup_cons]
      refine ⟨fun hmem => ?_, ih _ ?_ _ rfl⟩
      · rw [mem_eraseDups] at hmem
        simpa using (mem_filter.1 hmem).2
      · exact Nat.lt_succ_of_le (length_filter_le _ as)

theorem nodup_children (s : State) : s.children.Nodup :=
  nodup_eraseDups s.entries

variable {child : Nat}

theorem mem_children : child ∈ s.children ↔ child ∈ s.entries :=
  mem_eraseDups

theorem perm_put (yielded : List Nat) {completed pending : List Nat} (h : child ∈ pending) :
    (yielded ++ (completed ++ [child]) ++ pending.erase child).Perm (yielded ++ completed ++ pending) := by
  have hback : (child :: pending.erase child).Perm pending := (perm_cons_erase h).symm
  have hmoved : yielded ++ (completed ++ [child]) ++ pending.erase child =
      yielded ++ completed ++ (child :: pending.erase child) := by
    simp
  rw [hmoved]
  exact hback.append_left _

theorem completeNext_eq (hshut : s.isShutdown = true → s.pendingCallbacks = [])
    (hmem : child ∈ s.pendingCallbacks) (wakes : Bool) : ∃ isShutdown deaf,
      s.completeNext child wakes = { s with
        pendingCallbacks := s.pendingCallbacks.erase child
        completed := s.completed ++ [child]
        isShutdown := isShutdown
        deaf := deaf } ∧
      (isShutdown = true → s.pendingCallbacks.erase child = []) ∧
      ((s.Parked → wakes = true) → deaf = s.deaf ∧
        (s.pendingCallbacks.erase child = [] → isShutdown = true)) := by
  have hopen : ¬ s.isShutdown = true := by
    intro htrue
    rw [hshut htrue] at hmem
    cases hmem
  unfold State.completeNext
  dsimp only
  rw [if_neg hopen]
  split
  · rename_i hdeaf
    refine ⟨s.isShutdown, true, rfl, fun htrue => absurd htrue hopen, fun hwakes => ?_⟩
    have htrue := hwakes hdeaf.1
    rw [hdeaf.2] at htrue
    cases htrue
  · split
    · rename_i hlast
      exact ⟨true, s.deaf, rfl, fun _ => hlast, fun _ => ⟨rfl, fun _ => rfl⟩⟩
    · rename_i hmore
      exact ⟨s.isShutdown, s.deaf, rfl, fun htrue => absurd htrue hopen,
        fun _ => ⟨rfl, fun hlast => absurd hlast hmore⟩⟩

namespace Base

theorem put (h : Base s) {isShutdown deaf : Bool} (hmem : child ∈ s.pendingCallbacks)
    (hin : child ∈ s.entries) (hdone : s.done child = true) (hdue : child ∉ s.due)
    (hreg : child ∉ s.registered)
    (hshut : isShutdown = true → s.pendingCallbacks.erase child = []) : Base { s with
      pendingCallbacks := s.pendingCallbacks.erase child
      completed := s.completed ++ [child]
      isShutdown := isShutdown
      deaf := deaf } where
  apart := (perm_put s.yielded hmem).nodup_iff.2 h.apart
  known := by
    intro c hc
    rw [← append_assoc] at hc
    rcases mem_append.1 hc with hc | hc
    · exact h.known c hc
    · cases mem_singleton.1 hc
      exact ⟨hin, hdone⟩
  due := by
    intro c hc
    have hne : c ≠ child := fun heq => hdue (heq ▸ hc)
    exact ⟨(mem_erase_of_ne hne).2 (h.due c hc).1, (h.due c hc).2⟩
  dueNodup := h.dueNodup
  registered := by
    intro c hc
    have hne : c ≠ child := fun heq => hreg (heq ▸ hc)
    exact ⟨(mem_erase_of_ne hne).2 (h.registered c hc).1, (h.registered c hc).2⟩
  registeredNodup := h.registeredNodup
  shut := hshut
  accepted := h.accepted
  orderNodup := h.orderNodup
  order := h.order

theorem finish_registered (h : Base s) : s.finish.registered = [] := by
  apply filter_eq_nil_iff.2
  intro child hmem
  simpa using (h.registered child hmem).1

theorem finish (h : Base s) : Base s.finish := by
  refine ⟨h.apart, h.known, h.due, h.dueNodup, ?_, ?_, h.shut, h.accepted, h.orderNodup, h.order⟩
  · rw [h.finish_registered]
    exact nofun
  · rw [h.finish_registered]
    exact nodup_nil

end Base

theorem Inv.of_finish (h : Base s) (hopen : s.exhausted = false) : Inv s.finish where
  base := h.finish
  created := nofun
  live := by rintro (hlive | hlive) <;> cases hlive
  ended := fun _ => h.finish_registered
  exhausted := fun htrue => by
    replace htrue : s.exhausted = true := htrue
    rw [hopen] at htrue
    cases htrue

theorem Inv.of_sget (h : Base s) (hb : Body s) (hopen : s.exhausted = false) : Inv s.sget := by
  have hnot : ¬ s.exhausted = true := by
    rw [hopen]
    exact Bool.false_ne_true
  unfold State.sget
  split
  · rename_i child rest hqueue
    have hsame : s.yielded ++ [child] ++ rest = s.yielded ++ s.completed := by
      rw [hqueue, append_assoc]
      rfl
    refine ⟨⟨?_, ?_, h.due, h.dueNodup, h.registered, h.registeredNodup, h.shut,
      h.accepted, h.orderNodup, h.order⟩,
      nofun, fun _ => ⟨?_, hb.waits, hb.ordered⟩, nofun, fun htrue => absurd htrue hnot⟩
    · dsimp only
      rw [hsame]
      exact h.apart
    · dsimp only
      rw [hsame]
      exact h.known
    · dsimp only
      rw [hsame]
      exact hb.whole
  · rename_i hqueue
    split
    · rename_i hshut
      have hfinish := h.finish
      refine ⟨⟨hfinish.apart, hfinish.known, hfinish.due, hfinish.dueNodup,
        hfinish.registered, hfinish.registeredNodup,
        hfinish.shut, hfinish.accepted, hfinish.orderNodup, hfinish.order⟩, nofun, ?_,
          fun _ => h.finish_registered,
        fun _ => ⟨rfl, ?_⟩⟩
      · rintro (hlive | hlive) <;> cases hlive
      · have hwhole := hb.whole
        rw [hqueue, h.shut hshut, append_nil, append_nil] at hwhole
        exact hwhole
    · exact ⟨⟨h.apart, h.known, h.due, h.dueNodup, h.registered, h.registeredNodup, h.shut,
        h.accepted, h.orderNodup,
        h.order⟩, nofun, fun _ => ⟨hb.whole, hb.waits, hb.ordered⟩, nofun, fun htrue => absurd htrue hnot⟩

/-! ## The first step -/

/-- The loop over the children has come to `rest`. -/
structure Entering (rest : List Nat) (s : State) : Prop where
  base : Base s
  created : s.gen = .created
  fresh : s.yielded = [] ∧ s.due = [] ∧ s.exhausted = false ∧ s.deaf = false
  whole : (s.completed ++ s.pendingCallbacks).Perm s.children
  distinct : rest.Nodup
  ahead : ∀ child ∈ rest, child ∈ s.pendingCallbacks ∧ child ∉ s.registered
  waits : ∀ child ∈ s.pendingCallbacks, child ∈ rest ∨ child ∈ s.registered
  queue : s.completed ++ rest.filter s.done = s.order
  order : s.order = s.children.filter s.done
  shut : s.pendingCallbacks = [] → s.isShutdown = true

theorem Entering.start (h : Base s) (hgen : s.gen = .created) (hregistered : s.registered = [])
    (hdue : s.due = [])
    (hyielded : s.yielded = []) (hcompleted : s.completed = []) (hshut : s.isShutdown = false)
    (hdeaf : s.deaf = false)
    (hopen : s.exhausted = false) (hne : s.children ≠ []) :
    Entering s.children { s with pendingCallbacks := s.children, order := s.children.filter s.done } where
  base := by
    refine ⟨?_, h.known, ?_, h.dueNodup, ?_, h.registeredNodup, ?_, h.accepted,
      (nodup_children s).filter _, ?_⟩
    · dsimp only
      rw [hyielded, hcompleted]
      exact nodup_children s
    · dsimp only
      rw [hdue]
      exact nofun
    · dsimp only
      rw [hregistered]
      exact nofun
    · dsimp only
      rw [hshut]
      exact nofun
    · intro child hmem
      rcases mem_filter.1 hmem with ⟨hin, hdone⟩
      exact ⟨mem_children.1 hin, hdone⟩
  created := hgen
  fresh := ⟨hyielded, hdue, hopen, hdeaf⟩
  whole := by
    dsimp only
    rw [hcompleted]
    exact .refl _
  distinct := nodup_children s
  ahead := by
    intro child hmem
    refine ⟨hmem, ?_⟩
    dsimp only
    rw [hregistered]
    exact not_mem_nil
  waits := fun child hmem => .inl hmem
  queue := by
    dsimp only
    rw [hcompleted]
    rfl
  order := rfl
  shut := fun hnil => absurd hnil hne

theorem Entering.register {rest : List Nat} (h : Entering (child :: rest) s) :
    Entering rest (s.register child) := by
  rcases nodup_cons.1 h.distinct with ⟨hout, hdistinct⟩
  rcases h.ahead child mem_cons_self with ⟨hmem, hreg⟩
  have hin : child ∈ s.entries := mem_children.1 (h.whole.mem_iff.1 (mem_append_right _ hmem))
  have hdue : child ∉ s.due := by
    rw [h.fresh.2.1]
    exact not_mem_nil
  unfold State.register
  split
  · rename_i hdone
    rcases completeNext_eq h.base.shut hmem true with ⟨isShutdown, deaf, heq, hshut, hwake⟩
    rcases hwake fun _ => rfl with ⟨hdeaf, hlast⟩
    rw [heq]
    refine ⟨h.base.put hmem hin hdone hdue hreg hshut, h.created,
      ⟨h.fresh.1, h.fresh.2.1, h.fresh.2.2.1, ?_⟩, ?_,
      hdistinct, fun c hc => ?_, fun c hc => ?_, ?_, h.order, hlast⟩
    · exact hdeaf.trans h.fresh.2.2.2
    · exact (perm_put [] hmem).trans h.whole
    · have hne : c ≠ child := fun hsame => hout (hsame ▸ hc)
      rcases h.ahead c (mem_cons_of_mem _ hc) with ⟨hpending, hnot⟩
      exact ⟨(mem_erase_of_ne hne).2 hpending, hnot⟩
    · rcases h.waits c (mem_of_mem_erase hc) with hrest | hregistered
      · refine .inl ((mem_cons.1 hrest).resolve_left ?_)
        rintro rfl
        have hnodup := (nodup_append.1 h.base.apart).2.1
        exact hnodup.not_mem_erase hc
      · exact .inr hregistered
    · have hqueue := h.queue
      rw [filter_cons_of_pos hdone] at hqueue
      show s.completed ++ [child] ++ rest.filter s.done = s.order
      rw [append_assoc]
      exact hqueue
  · rename_i hdone
    refine ⟨⟨h.base.apart, h.base.known, fun c hc => ?_, h.base.dueNodup, fun c hc => ?_, ?_, h.base.shut,
      h.base.accepted, h.base.orderNodup, h.base.order⟩, h.created, h.fresh, h.whole,
        hdistinct, fun c hc => ?_,
      fun c hc => ?_, ?_, h.order, h.shut⟩
    · exact h.base.due c hc
    · rcases mem_append.1 hc with hc | hc
      · exact h.base.registered c hc
      · cases mem_singleton.1 hc
        exact ⟨hmem, hdue⟩
    · refine nodup_append.2 ⟨h.base.registeredNodup, nodup_singleton child, fun a ha b hb hab => ?_⟩
      cases mem_singleton.1 hb
      exact hreg (hab ▸ ha)
    · rcases h.ahead c (mem_cons_of_mem _ hc) with ⟨hpending, hnot⟩
      refine ⟨hpending, fun hc' => ?_⟩
      rcases mem_append.1 hc' with hc' | hc'
      · exact hnot hc'
      · exact hout (mem_singleton.1 hc' ▸ hc)
    · rcases h.waits c hc with hrest | hregistered
      · rcases mem_cons.1 hrest with rfl | hrest
        · exact .inr (mem_append_right _ (mem_singleton.2 rfl))
        · exact .inl hrest
      · exact .inr (mem_append_left _ hregistered)
    · have hqueue := h.queue
      rw [filter_cons_of_neg (by simpa using hdone)] at hqueue
      exact hqueue

theorem Entering.foldl {rest : List Nat} (h : Entering rest s) :
    Entering [] (rest.foldl State.register s) := by
  induction rest generalizing s with
  | nil => exact h
  | cons child rest ih => exact ih h.register

theorem Entering.body (h : Entering [] s) : Body s where
  whole := by
    rw [h.fresh.1]
    exact h.whole
  waits := fun child hmem _ => (h.waits child hmem).resolve_left not_mem_nil
  ordered := by
    intro child hin hdone
    rw [h.order]
    exact mem_filter.2 ⟨mem_children.2 hin, hdone⟩

theorem Inv.entering (h : Inv s) (hgen : s.gen = .created) (hne : s.children ≠ []) :
    Entering [] s.enter := by
  rcases h.created hgen with ⟨hregistered, hdue, hyielded, hcompleted, -, hshut, hdeaf⟩
  have hopen : s.exhausted = false := by
    by_contra htrue
    have hended := (h.exhausted (by simpa using htrue)).1
    rw [hgen] at hended
    cases hended
  exact (Entering.start h.base hgen hregistered hdue hyielded hcompleted hshut hdeaf hopen hne).foldl

theorem Inv.first (h : Inv s) (hgen : s.gen = .created) : Inv s.first := by
  unfold State.first
  split
  · rename_i hnil
    rcases h.created hgen with ⟨hregistered, -, hyielded, -⟩
    refine ⟨⟨h.base.apart, h.base.known, h.base.due, h.base.dueNodup,
      h.base.registered, h.base.registeredNodup,
      h.base.shut, h.base.accepted, h.base.orderNodup, h.base.order⟩, nofun, ?_,
        fun _ => hregistered, fun _ => ⟨rfl, ?_⟩⟩
    · rintro (hlive | hlive) <;> cases hlive
    · show s.yielded.Perm s.children
      rw [hyielded, hnil]
  · rename_i hne
    have hentering := h.entering hgen hne
    exact Inv.of_sget hentering.base hentering.body hentering.fresh.2.2.1

/-! ## The children -/

theorem childStep_complete {o : Outcome} {wakes : Bool}
    (hs : childStep s (.complete child o wakes) = some s') : child ∈ s.entries ∧ s.done child = false ∧
      ((child ∈ s.registered ∧ wakes = true ∧ s' = { s with
          outcome := update s.outcome child (some o)
          order := s.order ++ [child]
          registered := s.registered.erase child
          due := s.due ++ [child] }) ∨
        ¬ (child ∈ s.registered ∧ wakes = true) ∧ s' = { s with
          outcome := update s.outcome child (some o)
          order := s.order ++ [child] }) := by
  simp only [childStep] at hs
  split at hs
  · rename_i hopen
    refine ⟨hopen.1, hopen.2, ?_⟩
    split at hs
    · rename_i hwakes
      cases hs
      exact .inl ⟨hwakes.1, hwakes.2, rfl⟩
    · rename_i hnot
      cases hs
      exact .inr ⟨hnot, rfl⟩
  · cases hs

theorem childStep_invoke {wakes : Bool} (hs : childStep s (.invoke child wakes) = some s') :
    child ∈ s.due ∧ s' = State.completeNext { s with due := s.due.erase child } child wakes := by
  simp only [childStep] at hs
  split at hs
  · rename_i hdue
    cases hs
    exact ⟨hdue, rfl⟩
  · cases hs

theorem isSome_update {outcome : Nat → Option Outcome} {child c : Nat} {o : Outcome} :
    (update outcome child (some o) c).isSome = true ↔ c = child ∨ (outcome c).isSome = true := by
  rcases eq_or_ne c child with rfl | hne
  · simp
  · simp [hne]

theorem Base.complete (h : Base s) (hin : child ∈ s.entries) (hopen : s.done child = false) (o : Outcome) :
    Base { s with outcome := update s.outcome child (some o), order := s.order ++ [child] } := by
  refine ⟨h.apart, fun c hc => ⟨(h.known c hc).1, isSome_update.2 (.inr (h.known c hc).2)⟩,
    fun c hc => ?_, h.dueNodup,
    h.registered, h.registeredNodup, h.shut, h.accepted, ?_, fun c hc => ?_⟩
  · rcases h.due c hc with ⟨hpending, hentry, hdone⟩
    exact ⟨hpending, hentry, isSome_update.2 (.inr hdone)⟩
  · refine nodup_append.2 ⟨h.orderNodup, nodup_singleton child, fun a ha b hb hab => ?_⟩
    cases mem_singleton.1 hb
    have hdone := (h.order a ha).2
    rw [hab, hopen] at hdone
    cases hdone
  · rcases mem_append.1 hc with hc | hc
    · exact ⟨(h.order c hc).1, isSome_update.2 (.inr (h.order c hc).2)⟩
    · cases mem_singleton.1 hc
      exact ⟨hin, isSome_update.2 (.inl rfl)⟩

theorem Base.owe (h : Base s) (hreg : child ∈ s.registered) (hin : child ∈ s.entries)
    (hdone : s.done child = true) :
    Base { s with registered := s.registered.erase child, due := s.due ++ [child] } := by
  rcases h.registered child hreg with ⟨hpending, hout⟩
  refine ⟨h.apart, h.known, fun c hc => ?_, ?_, fun c hc => ?_, h.registeredNodup.erase child,
    h.shut, h.accepted,
    h.orderNodup, h.order⟩
  · rcases mem_append.1 hc with hc | hc
    · exact h.due c hc
    · cases mem_singleton.1 hc
      exact ⟨hpending, hin, hdone⟩
  · refine nodup_append.2 ⟨h.dueNodup, nodup_singleton child, fun a ha b hb hab => ?_⟩
    cases mem_singleton.1 hb
    exact hout (hab ▸ ha)
  · rcases h.registeredNodup.mem_erase_iff.1 hc with ⟨hne, hc⟩
    refine ⟨(h.registered c hc).1, fun hc' => ?_⟩
    rcases mem_append.1 hc' with hc' | hc'
    · exact (h.registered c hc).2 hc'
    · exact hne (mem_singleton.1 hc')

theorem Base.forget (h : Base s) (child : Nat) : Base { s with due := s.due.erase child } :=
  ⟨h.apart, h.known, fun c hc => h.due c (mem_of_mem_erase hc), h.dueNodup.erase child,
    fun c hc => ⟨(h.registered c hc).1, fun hc' => (h.registered c hc).2 (mem_of_mem_erase hc')⟩,
    h.registeredNodup, h.shut, h.accepted, h.orderNodup, h.order⟩

theorem Body.complete (h : Body s) (child : Nat) (o : Outcome) :
    Body { s with outcome := update s.outcome child (some o), order := s.order ++ [child] } := by
  refine ⟨h.whole, fun c hc hopen => h.waits c hc ?_, fun c hc hdone => ?_⟩
  · by_contra hdone
    have hdone' : (s.outcome c).isSome = true := Bool.of_not_eq_false hdone
    have hsome : (update s.outcome child (some o) c).isSome = true := isSome_update.2 (.inr hdone')
    exact Bool.false_ne_true (hopen.symm.trans hsome)
  · rcases isSome_update.1 hdone with rfl | hdone
    · exact mem_append_right _ (mem_singleton.2 rfl)
    · exact mem_append_left _ (h.ordered c hc hdone)

theorem Body.owe (h : Body s) (hdone : s.done child = true) :
    Body { s with registered := s.registered.erase child, due := s.due ++ [child] } := by
  refine ⟨h.whole, fun c hc hopen => ?_, h.ordered⟩
  have hne : c ≠ child := by
    rintro rfl
    exact Bool.false_ne_true (hopen.symm.trans hdone)
  exact (mem_erase_of_ne hne).2 (h.waits c hc hopen)

theorem Body.put (h : Body s) (hmem : child ∈ s.pendingCallbacks) (isShutdown deaf : Bool) : Body { s with
    pendingCallbacks := s.pendingCallbacks.erase child
    completed := s.completed ++ [child]
    isShutdown := isShutdown
    deaf := deaf } :=
  ⟨(perm_put s.yielded hmem).trans h.whole, fun c hc => h.waits c (mem_of_mem_erase hc), h.ordered⟩

theorem Inv.of_lists (h : Inv s) (hbase : Base s') (hgen : s'.gen = s.gen)
    (hyielded : s'.yielded = s.yielded)
    (hentries : s'.entries = s.entries) (hexhausted : s'.exhausted = s.exhausted)
    (hcreated : s.gen = .created → s'.registered = [] ∧ s'.due = [] ∧ s'.completed = [] ∧
      s'.pendingCallbacks = [] ∧
      s'.isShutdown = false ∧ s'.deaf = false)
    (hlive : s.Live → Body s') (hended : s.gen = .ended → s'.registered = []) : Inv s' where
  base := hbase
  created := fun hc => by
    have hc' := hgen.symm.trans hc
    rcases hcreated hc' with ⟨h₁, h₂, h₃⟩
    exact ⟨h₁, h₂, hyielded.trans (h.created hc').2.2.1, h₃⟩
  live := fun hl => hlive (hl.imp hgen.symm.trans hgen.symm.trans)
  ended := fun he => hended (hgen.symm.trans he)
  exhausted := fun he => by
    rcases h.exhausted (hexhausted.symm.trans he) with ⟨hended', hperm⟩
    refine ⟨hgen.trans hended', ?_⟩
    unfold State.children
    rw [hyielded, hentries]
    exact hperm

theorem Inv.childStep {a : ChildAction} (h : Inv s) (hs : CompletionOrder.childStep s a = some s') :
    Inv s' := by
  cases a with
  | complete child o wakes =>
    rcases childStep_complete hs with ⟨hin, hopen, ⟨hreg, -, rfl⟩ | ⟨-, rfl⟩⟩
    · have hdone : (update s.outcome child (some o) child).isSome = true := isSome_update.2 (.inl rfl)
      refine h.of_lists ((h.base.complete hin hopen o).owe hreg hin hdone) rfl rfl rfl rfl (fun hc => ?_)
        (fun hl => ((h.live hl).complete child o).owe hdone) fun he => ?_
      · rw [(h.created hc).1] at hreg
        cases hreg
      · rw [h.ended he] at hreg
        cases hreg
    · refine h.of_lists (h.base.complete hin hopen o) rfl rfl rfl rfl (fun hc => ?_)
        (fun hl => (h.live hl).complete child o) h.ended
      rcases h.created hc with ⟨h₁, h₂, -, h₃⟩
      exact ⟨h₁, h₂, h₃⟩
  | invoke child wakes =>
    rcases childStep_invoke hs with ⟨hdue, rfl⟩
    rcases h.base.due child hdue with ⟨hmem, hin, hdone⟩
    have hforget := h.base.forget child
    have hout : child ∉ s.due.erase child := h.base.dueNodup.not_mem_erase
    have hreg : child ∉ s.registered := fun hc => (h.base.registered child hc).2 hdue
    rcases completeNext_eq hforget.shut hmem wakes with ⟨isShutdown, deaf, heq, hshut, -⟩
    rw [heq]
    refine h.of_lists (hforget.put hmem hin hdone hout hreg hshut) rfl rfl rfl rfl
      (fun hc => ?_) (fun hl => ?_) h.ended
    · rw [(h.created hc).2.1] at hdue
      cases hdue
    · have hb := h.live hl
      exact Body.put (s := { s with due := s.due.erase child })
        ⟨hb.whole, hb.waits, hb.ordered⟩ hmem isShutdown deaf
  | leave child =>
    cases hs
    refine h.of_lists (h.base.forget child) rfl rfl rfl rfl (fun hc => ?_) (fun hl => ?_) h.ended
    · rcases h.created hc with ⟨h₁, h₂, -, h₃⟩
      refine ⟨h₁, ?_, h₃⟩
      show s.due.erase child = []
      rw [h₂]
      rfl
    · have hb := h.live hl
      exact ⟨hb.whole, hb.waits, hb.ordered⟩

theorem Inv.exhausted_live (h : Inv s) (hl : s.Live) : s.exhausted = false := by
  by_contra htrue
  have hended := (h.exhausted (by simpa using htrue)).1
  rcases hl with hgen | hgen <;> cases hgen.symm.trans hended

theorem Inv.close (h : Inv s) (hgen : s.gen = .created) : Inv { s with gen := .ended } := by
  have hopen : s.exhausted = false := by
    by_contra htrue
    cases hgen.symm.trans (h.exhausted (by simpa using htrue)).1
  refine ⟨⟨h.base.apart, h.base.known, h.base.due, h.base.dueNodup,
    h.base.registered, h.base.registeredNodup,
    h.base.shut, h.base.accepted, h.base.orderNodup, h.base.order⟩, nofun, ?_,
      fun _ => (h.created hgen).1, fun htrue => ?_⟩
  · rintro (hlive | hlive) <;> cases hlive
  · cases hopen.symm.trans htrue

theorem Inv.sget (h : Inv s) (hl : s.Live) : Inv s.sget :=
  Inv.of_sget h.base (h.live hl) (h.exhausted_live hl)

theorem Inv.finish (h : Inv s) (hl : s.Live) : Inv s.finish :=
  Inv.of_finish h.base (h.exhausted_live hl)

/-- What a step of the consumer does. -/
inductive Moves (s : State) : State → Prop
  | enters (hgen : s.gen = .created) : Moves s s.first
  | closes (hgen : s.gen = .created) : Moves s { s with gen := .ended }
  | goesOn (hlive : s.Live) : Moves s s.sget
  | ends (hlive : s.Live) : Moves s s.finish
  | stays : Moves s s

theorem moves_of_step {a : Action} (ha : ∀ b, a ≠ .child b) (hs : step s a = some s') : Moves s s' := by
  cases a with
  | child b => exact absurd rfl (ha b)
  | next =>
    simp only [step] at hs
    split at hs <;> cases hs
    · exact .enters (by assumption)
    · exact .goesOn (.inr (by assumption))
    · exact .stays
    · exact .stays
  | resume =>
    simp only [step] at hs
    split at hs
    · rename_i hgen
      cases hs
      exact .goesOn (.inl hgen.1)
    · cases hs
  | interrupt =>
    simp only [step] at hs
    split at hs
    · rename_i hgen
      cases hs
      exact .ends (.inl hgen)
    · cases hs
  | close =>
    simp only [step] at hs
    split at hs <;> cases hs
    · exact .closes (by assumption)
    · exact .ends (.inr (by assumption))
    · exact .stays
    · exact .stays

theorem Inv.moves (h : Inv s) (hm : Moves s s') : Inv s' := by
  cases hm with
  | enters hgen => exact h.first hgen
  | closes hgen => exact h.close hgen
  | goesOn hlive => exact h.sget hlive
  | ends hlive => exact h.finish hlive
  | stays => exact h

/-- A child is put in the queue once, and taken off it once. -/
theorem Inv.step {a : Action} (h : Inv s) (hs : CompletionOrder.step s a = some s') : Inv s' := by
  by_cases ha : ∀ b, a ≠ .child b
  · exact h.moves (moves_of_step ha hs)
  · rcases not_forall.1 ha with ⟨b, hb⟩
    rw [not_not] at hb
    subst hb
    exact h.childStep hs

theorem Inv.asCompleted (entries : List Nat) (outcome : Nat → Option Outcome) :
    Inv (CompletionOrder.asCompleted entries outcome) :=
  ⟨⟨nodup_nil, nofun, nofun, nodup_nil, nofun, nodup_nil, nofun, rfl, nodup_nil, nofun⟩,
    fun _ => ⟨rfl, rfl, rfl, rfl, rfl, rfl, rfl⟩, (by rintro (hl | hl) <;> cases hl), nofun, nofun⟩

theorem Inv.tidy (h : Inv s) : s.Tidy where
  distinct := (nodup_append.1 (nodup_append.1 h.base.apart).1).1
  completed := fun child hmem => h.base.known child (mem_append_left _ hmem)
  every := fun he => (h.exhausted he).2
  removed := fun hor => hor.elim (fun hc => (h.created hc).1) h.ended
  accepted := h.base.accepted

end Pytealet.Scheduler.CompletionOrder
