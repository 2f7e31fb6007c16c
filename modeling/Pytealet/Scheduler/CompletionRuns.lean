import Mathlib.Data.List.Perm.Subperm
import Pytealet.Scheduler.CompletionOrder

/-!
# CompletionRuns — the order of `as_completed`, and the two sets of `wait`

As long as `complete_next` is called for every child in the order of the completions, the children
that have been yielded, those in the queue and those whose callback is due are, one after the other,
all that have been completed.

`wait` is a task that goes through `as_completed` until its condition is met.
-/

namespace Pytealet.Scheduler.CompletionOrder

open Lib Lib.Transition List

open Tasks.DoneCallbacks (Outcome)

variable {s s' : State}

/-! ## The order -/

/-- Every child that has been completed is where it has to be, inside of the `try` block. -/
structure Prompt (s : State) : Prop where
  order : s.yielded ++ s.completed ++ s.due = s.order
  shut : s.pendingCallbacks = [] → s.isShutdown = true
  deaf : s.deaf = false

structure Served (s : State) : Prop where
  live : s.Live → Prompt s
  yielded : s.yielded <+: s.order

theorem Served.of_prompt (h : Prompt s) : Served s :=
  ⟨fun _ => h, ⟨s.completed ++ s.due, by rw [← append_assoc, h.order]⟩⟩

theorem Served.of_sget (h : Prompt s) : Served s.sget := by
  unfold State.sget
  split
  · rename_i child rest hqueue
    apply Served.of_prompt
    refine ⟨?_, h.shut, h.deaf⟩
    have horder := h.order
    rw [hqueue] at horder
    rw [← horder]
    simp
  · split
    · refine ⟨?_, (Served.of_prompt h).yielded⟩
      rintro (hl | hl) <;> cases hl
    · exact Served.of_prompt ⟨h.order, h.shut, h.deaf⟩

theorem Entering.prompt (h : Entering [] s) : Prompt s where
  order := by
    have hqueue := h.queue
    rw [filter_nil, append_nil] at hqueue
    rw [h.fresh.1, h.fresh.2.1, nil_append, append_nil, hqueue]
  shut := h.shut
  deaf := h.fresh.2.2.2

theorem Served.childStep {a : ChildAction} (hv : Served s) (h : Inv s) (hturn : s.InTurn a)
    (hs : CompletionOrder.childStep s a = some s') : Served s' := by
  cases a with
  | complete child o wakes =>
    rcases childStep_complete hs with ⟨hin, hopen, ⟨hreg, -, rfl⟩ | ⟨hnot, rfl⟩⟩
    · refine ⟨fun hl => ?_, hv.yielded.trans (prefix_append _ _)⟩
      have hp := hv.live hl
      refine ⟨?_, hp.shut, hp.deaf⟩
      show s.yielded ++ s.completed ++ (s.due ++ [child]) = s.order ++ [child]
      rw [← append_assoc, hp.order]
    · -- outside of the `try` block, or the callback would have been registered
      refine ⟨fun hl => absurd ?_ hnot, hv.yielded.trans (prefix_append _ _)⟩
      have hb := h.live hl
      have hmem : child ∈ s.yielded ++ s.completed ++ s.pendingCallbacks :=
        hb.whole.mem_iff.2 (mem_children.2 hin)
      have hreg : child ∈ s.registered := by
        rcases mem_append.1 hmem with hmem | hmem
        · have hdone := (h.base.known child hmem).2
          rw [hopen] at hdone
          cases hdone
        · exact hb.waits child hmem hopen
      exact ⟨hreg, hturn hl hreg⟩
  | invoke child wakes =>
    rcases childStep_invoke hs with ⟨hdue, rfl⟩
    rcases completeNext_eq (s := { s with due := s.due.erase child }) h.base.shut
      (h.base.due child hdue).1 wakes with
      ⟨isShutdown, deaf, heq, -, hwake⟩
    rw [heq]
    refine ⟨fun hl => ?_, hv.yielded⟩
    have hp := hv.live hl
    rcases hturn hl with ⟨hhead, hwakes⟩
    rcases hwake hwakes with ⟨hdeaf, hlast⟩
    rcases List.head?_eq_some_iff.1 hhead with ⟨rest, hrest⟩
    refine ⟨?_, hlast, hdeaf.trans hp.deaf⟩
    have horder := hp.order
    rw [hrest] at horder
    show s.yielded ++ (s.completed ++ [child]) ++ s.due.erase child = s.order
    rw [hrest, erase_cons_head, ← horder]
    simp
  | leave child =>
    cases hs
    refine ⟨fun hl => ?_, hv.yielded⟩
    have hp := hv.live hl
    have hsame : s.due.erase child = s.due := erase_of_not_mem (hturn hl)
    refine ⟨?_, hp.shut, hp.deaf⟩
    show s.yielded ++ s.completed ++ s.due.erase child = s.order
    rw [hsame, hp.order]

theorem Served.moves (hv : Served s) (h : Inv s) (hm : Moves s s') : Served s' := by
  cases hm with
  | enters hgen =>
    unfold State.first
    split
    · refine ⟨?_, hv.yielded⟩
      rintro (hl | hl) <;> cases hl
    · rename_i hne
      exact Served.of_sget (h.entering hgen hne).prompt
  | closes hgen =>
    refine ⟨?_, hv.yielded⟩
    rintro (hl | hl) <;> cases hl
  | goesOn hlive => exact Served.of_sget (hv.live hlive)
  | ends hlive =>
    refine ⟨?_, hv.yielded⟩
    rintro (hl | hl) <;> cases hl
  | stays => exact hv

theorem Served.inOrder (hv : Served s) (h : Inv s) : s.InOrder where
  yielded := hv.yielded
  every := by
    intro he
    rcases h.exhausted he with ⟨-, hperm⟩
    -- no child is left that could be in the order only
    have hsub : s.order ⊆ s.yielded := fun child hmem =>
      hperm.mem_iff.2 (mem_children.2 (h.base.order child hmem).1)
    apply hv.yielded.eq_of_length_le
    exact (subperm_of_subset h.base.orderNodup hsub).length_le
  queued := by
    intro hl hnil
    have horder := (hv.live hl).order
    rwa [hnil, append_nil] at horder
  shut := by
    intro hl hnil hall
    have hp := hv.live hl
    have hb := h.live hl
    have horder := hp.order
    rw [hnil, append_nil] at horder
    apply hp.shut
    apply eq_nil_iff_forall_not_mem.2
    intro child hmem
    have hin : child ∈ s.entries :=
      mem_children.1 (hb.whole.mem_iff.1 (mem_append_right _ hmem))
    have hqueued : child ∈ s.yielded ++ s.completed := by
      rw [horder]
      exact hb.ordered child hin (hall child hin)
    exact (nodup_append.1 h.base.apart).2.2 child hqueued child hmem rfl
  heard hl := (hv.live hl).deaf

/-- The condition on a step of the run. -/
def State.Prompts (s : State) : Action → Prop
  | .child a => s.InTurn a
  | _ => True

theorem Served.step {a : Action} (hv : Served s) (h : Inv s) (hturn : s.Prompts a)
    (hs : CompletionOrder.step s a = some s') : Served s' := by
  by_cases ha : ∀ b, a ≠ .child b
  · exact hv.moves h (moves_of_step ha hs)
  · rcases not_forall.1 ha with ⟨b, hb⟩
    rw [not_not] at hb
    subst hb
    exact hv.childStep h hturn hs

theorem Served.asCompleted (entries : List Nat) (outcome : Nat → Option Outcome) :
    Served (CompletionOrder.asCompleted entries outcome) :=
  ⟨(by rintro (hl | hl) <;> cases hl), nil_prefix⟩

/-! ## The two sets of `wait` -/

inductive ReturnWhen
  | firstCompleted
  | firstException
  | allCompleted
  deriving DecidableEq, Repr

/-- The task of `wait`. -/
structure Wait where
  gen : State
  returnWhen : ReturnWhen
  /-- `done` and `children - done` -/
  result : Option (List Nat × List Nat) := none
  /-- it has caught `TimeoutError` -/
  timedOut : Bool := false

/-- The loop is left with this child. -/
def ReturnWhen.breaks (returnWhen : ReturnWhen) (s : State) (child : Nat) : Bool :=
  match returnWhen with
  | .firstCompleted => true
  | .firstException => s.outcome child = some (.exception false)
  | .allCompleted => false

/-- The loop of `wait_task`, with so many children in the queue.  The generator is closed when the
loop is left. -/
def consume (returnWhen : ReturnWhen) : Nat → State → State
  | 0, s => s.sget
  | n + 1, s =>
    let s₁ := s.sget
    match s₁.yielded.getLast? with
    | some child => if returnWhen.breaks s₁ child then s₁.finish else consume returnWhen n s₁
    | none => s₁

namespace Wait

/-- The loop, and what is returned when it has ended. -/
def go (w : Wait) (s : State) : Wait :=
  let s₁ := consume w.returnWhen s.completed.length s
  if s₁.gen = .ended then { w with gen := s₁, result := some (s₁.children.partition s₁.done) }
  else { w with gen := s₁ }

end Wait

/-- `wait`; an empty set is refused. -/
def wait (entries : List Nat) (outcome : Nat → Option Outcome) (returnWhen : ReturnWhen) : Option Wait :=
  if entries = [] then none else some { gen := asCompleted entries outcome, returnWhen }

inductive WaitAction
  | child (a : ChildAction)
  /-- the task starts -/
  | run
  /-- it goes on from `sget` -/
  | resume
  /-- an exception is thrown into it there, a `TimeoutError` or another one -/
  | interrupt (timeout : Bool)
  deriving DecidableEq, Repr

def waitStep (w : Wait) : WaitAction → Option Wait
  | .child a => (childStep w.gen a).map fun s => { w with gen := s }
  | .run => if w.gen.gen = .created then some (w.go w.gen.enter) else none
  | .resume =>
    if w.gen.gen = .waiting ∧ w.gen.deaf = false ∧ (w.gen.completed ≠ [] ∨ w.gen.isShutdown = true) then
      some (w.go w.gen)
    else none
  | .interrupt timeout =>
    if w.gen.gen = .waiting then
      let s₁ := w.gen.finish
      if timeout then some { w with gen := s₁, result := some (s₁.children.partition s₁.done), timedOut := true }
      else some { w with gen := s₁ }
    else none

namespace Wait

/-- The condition of `return_when`. -/
def Met (w : Wait) (done pending : List Nat) : Prop :=
  match w.returnWhen with
  | .firstCompleted => done ≠ []
  | .firstException => pending = [] ∨ ∃ child ∈ done, w.gen.outcome child = some (.exception false)
  | .allCompleted => pending = []

/-- What `wait` returns are the children that are done then and the others, and the condition is met
unless it has timed out. -/
def Returns (w w' : Wait) : Prop :=
  w.result = none → ∀ done pending, w'.result = some (done, pending) →
    (done ++ pending).Perm w'.gen.children ∧ (∀ child ∈ done, w'.gen.done child = true) ∧
      (∀ child ∈ pending, w'.gen.done child = false) ∧ (w'.timedOut = false → w'.Met done pending)

/-- The condition on a step of the run. -/
def Prompts (w : Wait) : WaitAction → Prop
  | .child a => w.gen.InTurn a
  | _ => True

end Wait

/-! ## The loop of `wait` -/

/-- When the loop has ended, all children have been yielded, or one with which it is left. -/
def Left (returnWhen : ReturnWhen) (s : State) : Prop :=
  s.gen = .ended → s.exhausted = true ∨ ∃ child ∈ s.yielded, returnWhen.breaks s child = true

theorem left_of_live {returnWhen : ReturnWhen} (hl : s.Live) : Left returnWhen s := by
  intro he
  rcases hl with hgen | hgen <;> cases hgen.symm.trans he

theorem sget_cons {child : Nat} {rest : List Nat} (hqueue : s.completed = child :: rest) :
    s.sget = { s with completed := rest, gen := .suspended, yielded := s.yielded ++ [child] } := by
  unfold State.sget
  rw [hqueue]

theorem sget_nil (hqueue : s.completed = []) :
    s.sget = if s.isShutdown then { s.finish with exhausted := true } else { s with gen := .waiting } := by
  unfold State.sget
  rw [hqueue]

theorem consume_of {P Q : State → Prop} (returnWhen : ReturnWhen) (hget : ∀ s, P s → Q s.sget)
    (hlive : ∀ s, Q s → s.Live → P s) (hfinish : ∀ s, Q s → s.Live → Q s.finish) (h : P s) :
    Q (consume returnWhen s.completed.length s) := by
  induction hn : s.completed.length generalizing s with
  | zero => exact hget s h
  | succ n ih =>
    rcases exists_cons_of_length_eq_add_one hn with ⟨child, rest, hqueue⟩
    have hq := hget s h
    have hsget := sget_cons hqueue
    have hl : s.sget.Live := by
      rw [hsget]
      exact .inr rfl
    have hlast : s.sget.yielded.getLast? = some child := by
      rw [hsget]
      exact List.getLast?_concat
    have hlength : s.sget.completed.length = n := by
      rw [hsget]
      rw [hqueue] at hn
      exact Nat.succ.inj hn
    unfold consume
    dsimp only
    rw [hlast]
    dsimp only
    split
    · exact hfinish _ hq hl
    · exact ih (hlive _ hq hl) hlength

theorem left_consume (returnWhen : ReturnWhen) (n : Nat) (hn : s.completed.length = n) :
    Left returnWhen (consume returnWhen n s) := by
  induction n generalizing s with
  | zero =>
    unfold consume
    rw [sget_nil (length_eq_zero_iff.1 hn)]
    split
    · exact fun _ => .inl rfl
    · exact left_of_live (.inl rfl)
  | succ n ih =>
    rcases exists_cons_of_length_eq_add_one hn with ⟨child, rest, hqueue⟩
    have hsget := sget_cons hqueue
    unfold consume
    dsimp only
    rw [hsget]
    dsimp only
    rw [List.getLast?_concat]
    dsimp only
    split
    · rename_i hbreaks
      exact fun _ => .inr ⟨child, mem_append_right _ (mem_singleton.2 rfl), hbreaks⟩
    · apply ih
      rw [hqueue] at hn
      exact Nat.succ.inj hn

theorem entries_sget : s.sget.entries = s.entries := by
  unfold State.sget
  split
  · rfl
  · split <;> rfl

theorem entries_completeNext (child : Nat) (wakes : Bool) :
    (s.completeNext child wakes).entries = s.entries := by
  unfold State.completeNext
  dsimp only
  split
  · rfl
  · split
    · rfl
    · split <;> rfl

theorem entries_enter : s.enter.entries = s.entries := by
  have hloop : ∀ (l : List Nat) (s : State), (l.foldl State.register s).entries = s.entries := by
    intro l
    induction l with
    | nil =>
      intro s
      rfl
    | cons child l ih =>
      intro s
      refine (ih _).trans ?_
      unfold State.register
      split
      · exact entries_completeNext child true
      · rfl
  exact hloop _ _

theorem entries_childStep {a : ChildAction} (hs : childStep s a = some s') : s'.entries = s.entries := by
  cases a with
  | complete child o wakes =>
    rcases childStep_complete hs with ⟨-, -, ⟨-, -, rfl⟩ | ⟨-, rfl⟩⟩ <;> rfl
  | invoke child wakes =>
    rcases childStep_invoke hs with ⟨-, rfl⟩
    exact entries_completeNext child wakes
  | leave child =>
    cases hs
    rfl

theorem entries_consume (returnWhen : ReturnWhen) :
    (consume returnWhen s.completed.length s).entries = s.entries :=
  consume_of (P := fun s' => s'.entries = s.entries) (Q := fun s' => s'.entries = s.entries) returnWhen
    (fun _ h => entries_sget.trans h) (fun _ h _ => h) (fun _ h _ => h) rfl

theorem Inv.consume (h : Base s) (hb : Body s) (hopen : s.exhausted = false) (returnWhen : ReturnWhen) :
    Inv (consume returnWhen s.completed.length s) :=
  consume_of (P := fun s => Base s ∧ Body s ∧ s.exhausted = false) returnWhen
    (fun _ h => Inv.of_sget h.1 h.2.1 h.2.2)
    (fun _ h hl => ⟨h.base, h.live hl, h.exhausted_live hl⟩) (fun _ h hl => h.finish hl) ⟨h, hb, hopen⟩

theorem Served.consume (h : Prompt s) (returnWhen : ReturnWhen) :
    Served (consume returnWhen s.completed.length s) := by
  refine consume_of (P := Prompt) (Q := Served) returnWhen (fun _ h => Served.of_sget h)
    (fun _ h hl => h.live hl)
    (fun s h _ => ⟨?_, h.yielded⟩) h
  rintro (hl | hl) <;> cases hl

/-! ## Runs of `wait` -/

theorem partition_returns (s : State) (done pending : List Nat)
    (heq : s.children.partition s.done = (done, pending)) :
    (done ++ pending).Perm s.children ∧ (∀ child, child ∈ done ↔ child ∈ s.entries ∧ s.done child = true) ∧
      ∀ child, child ∈ pending ↔ child ∈ s.entries ∧ s.done child = false := by
  rw [partition_eq_filter_filter] at heq
  cases heq
  refine ⟨filter_append_perm s.done s.children, fun child => ?_, fun child => ?_⟩
  · rw [mem_filter, mem_children]
  · rw [mem_filter, mem_children]
    simp

theorem met_of_left {w : Wait} (h : Inv w.gen) (hne : w.gen.entries ≠ []) (hleft : Left w.returnWhen w.gen)
    (hended : w.gen.gen = .ended) {done pending : List Nat}
    (hdone : ∀ child, child ∈ done ↔ child ∈ w.gen.entries ∧ w.gen.done child = true)
    (hpending : ∀ child, child ∈ pending ↔ child ∈ w.gen.entries ∧ w.gen.done child = false) :
      w.Met done pending := by
  have hyielded : ∀ child ∈ w.gen.yielded, child ∈ done := fun child hmem =>
    (hdone child).2 (h.base.known child (mem_append_left _ hmem))
  unfold Wait.Met
  rcases hleft hended with hall | ⟨child, hmem, hbreaks⟩
  · -- all children have been yielded
    have hperm := (h.exhausted hall).2
    have hin : ∀ child ∈ w.gen.entries, child ∈ done := fun child hc =>
      hyielded child (hperm.mem_iff.2 (mem_children.2 hc))
    have hnone : pending = [] := by
      apply eq_nil_iff_forall_not_mem.2
      intro child hc
      rcases (hpending child).1 hc with ⟨hentry, hopen⟩
      have hdone' := ((hdone child).1 (hin child hentry)).2
      rw [hopen] at hdone'
      cases hdone'
    cases w.returnWhen with
    | firstCompleted =>
      rcases exists_mem_of_ne_nil _ hne with ⟨child, hc⟩
      exact ne_nil_of_mem (hin child hc)
    | firstException => exact .inl hnone
    | allCompleted => exact hnone
  · cases hwhen : w.returnWhen with
    | firstCompleted => exact ne_nil_of_mem (hyielded child hmem)
    | firstException =>
      rw [hwhen] at hbreaks
      exact .inr ⟨child, hyielded child hmem, of_decide_eq_true hbreaks⟩
    | allCompleted =>
      rw [hwhen] at hbreaks
      cases hbreaks

theorem go_eq {w : Wait} (h : Base s) (hb : Body s) (hopen : s.exhausted = false)
    (hsame : s.entries = w.gen.entries)
    (hne : w.gen.entries ≠ []) : Inv (w.go s).gen ∧ (w.go s).gen.entries = w.gen.entries ∧
      w.Returns (w.go s) := by
  have hinv := Inv.consume h hb hopen w.returnWhen
  have hentries := (entries_consume (s := s) w.returnWhen).trans hsame
  have hleft := left_consume (s := s) w.returnWhen _ rfl
  unfold Wait.go
  dsimp only
  generalize consume w.returnWhen s.completed.length s = s₁ at hinv hentries hleft ⊢
  split
  · rename_i hended
    refine ⟨hinv, hentries, fun _ done pending hresult => ?_⟩
    rcases partition_returns s₁ done pending (Option.some.inj hresult) with ⟨hperm, hdone, hpending⟩
    refine ⟨hperm, fun child hc => ((hdone child).1 hc).2, fun child hc =>
      ((hpending child).1 hc).2, fun _ => ?_⟩
    exact met_of_left (w := { w with gen := s₁, result := some (s₁.children.partition s₁.done) }) hinv
      (fun hnil => hne (hentries.symm.trans hnil)) hleft hended hdone hpending
  · refine ⟨hinv, hentries, fun hnone done pending hresult => ?_⟩
    cases hnone.symm.trans hresult

theorem waitStep_returns {w w' : Wait} {a : WaitAction} (h : Inv w.gen) (hne : w.gen.entries ≠ [])
    (hs : waitStep w a = some w') : Inv w'.gen ∧ w'.gen.entries = w.gen.entries ∧ w.Returns w' := by
  cases a with
  | child a =>
    rcases Option.map_eq_some_iff.1 hs with ⟨s', hstep, rfl⟩
    refine ⟨h.childStep hstep, entries_childStep hstep, fun hnone done pending hresult => ?_⟩
    cases hnone.symm.trans hresult
  | run =>
    simp only [waitStep] at hs
    split at hs
    · rename_i hgen
      cases hs
      have hchildren : w.gen.children ≠ [] := by
        rcases exists_mem_of_ne_nil _ hne with ⟨child, hc⟩
        exact ne_nil_of_mem (mem_children.2 hc)
      have hentering := h.entering hgen hchildren
      exact go_eq hentering.base hentering.body hentering.fresh.2.2.1 entries_enter hne
    · cases hs
  | resume =>
    simp only [waitStep] at hs
    split at hs
    · rename_i hgen
      cases hs
      have hl : w.gen.Live := .inl hgen.1
      exact go_eq h.base (h.live hl) (h.exhausted_live hl) rfl hne
    · cases hs
  | interrupt timeout =>
    simp only [waitStep] at hs
    split at hs
    · rename_i hgen
      have hfinish := h.finish (.inl hgen)
      split at hs
      · cases hs
        refine ⟨hfinish, rfl, fun _ done pending hresult => ?_⟩
        rcases partition_returns w.gen.finish done pending (Option.some.inj hresult) with
          ⟨hperm, hdone, hpending⟩
        exact ⟨hperm, fun child hc => ((hdone child).1 hc).2, fun child hc => ((hpending child).1 hc).2, nofun⟩
      · cases hs
        refine ⟨hfinish, rfl, fun hnone done pending hresult => ?_⟩
        cases hnone.symm.trans hresult
    · cases hs

theorem Served.go {w : Wait} (h : Prompt s) : Served (w.go s).gen := by
  have hserved := Served.consume h w.returnWhen
  unfold Wait.go
  dsimp only
  split <;> exact hserved

theorem Served.waitStep {w w' : Wait} {a : WaitAction} (hv : Served w.gen) (h : Inv w.gen)
    (hne : w.gen.entries ≠ [])
    (hturn : w.Prompts a) (hs : CompletionOrder.waitStep w a = some w') : Served w'.gen := by
  cases a with
  | child a =>
    rcases Option.map_eq_some_iff.1 hs with ⟨s', hstep, rfl⟩
    exact hv.childStep h hturn hstep
  | run =>
    simp only [CompletionOrder.waitStep] at hs
    split at hs
    · rename_i hgen
      cases hs
      have hchildren : w.gen.children ≠ [] := by
        rcases exists_mem_of_ne_nil _ hne with ⟨child, hc⟩
        exact ne_nil_of_mem (mem_children.2 hc)
      exact Served.go (h.entering hgen hchildren).prompt
    · cases hs
  | resume =>
    simp only [CompletionOrder.waitStep] at hs
    split at hs
    · rename_i hgen
      cases hs
      exact Served.go (hv.live (.inl hgen.1))
    · cases hs
  | interrupt timeout =>
    simp only [CompletionOrder.waitStep] at hs
    have hfinish : Served w.gen.finish := by
      refine ⟨?_, hv.yielded⟩
      rintro (hl | hl) <;> cases hl
    split at hs
    · split at hs <;> cases hs <;> exact hfinish
    · cases hs

theorem wait_start {entries : List Nat} {outcome : Nat → Option Outcome}
    {returnWhen : ReturnWhen} {w : Wait}
    (hw : wait entries outcome returnWhen = some w) :
    Inv w.gen ∧ w.gen.entries ≠ [] ∧ Served w.gen := by
  unfold wait at hw
  split at hw
  · cases hw
  · rename_i hne
    cases hw
    exact ⟨Inv.asCompleted entries outcome, hne, Served.asCompleted entries outcome⟩

/-- Nothing is yielded twice, `wait` returns a partition that meets its condition, and neither
leaves a callback behind, in every run.  The order is that of the completions, and no child is
missing, if `complete_next` is called for every child and in turn. -/
theorem as_completed_and_wait (entries : List Nat) (outcome : Nat → Option Outcome) (run : List Action)
    (returnWhen : ReturnWhen) (w : Wait) (hw : wait entries outcome returnWhen = some w)
    (waitRun : List WaitAction) :
    (Always step State.Tidy (asCompleted entries outcome) run ∧
      (Along step State.Prompts (asCompleted entries outcome) run →
        Always step State.InOrder (asCompleted entries outcome) run)) ∧
      Always waitStep (fun w => w.gen.Tidy) w waitRun ∧
      Along waitStep (fun w a => ∀ w', waitStep w a = some w' → w.Returns w') w waitRun ∧
      (Along waitStep Wait.Prompts w waitRun → Always waitStep (fun w => w.gen.InOrder) w waitRun) := by
  have hinit := Inv.asCompleted entries outcome
  rcases wait_start hw with ⟨hinv, hne, hserved⟩
  have hstep : ∀ (w : Wait) (a : WaitAction) (w' : Wait), Inv w.gen ∧
      w.gen.entries ≠ [] → waitStep w a = some w' →
      Inv w'.gen ∧ w'.gen.entries ≠ [] := by
    intro w a w' hI hs
    rcases waitStep_returns hI.1 hI.2 hs with ⟨hinv', hentries, -⟩
    exact ⟨hinv', fun hnil => hI.2 (hentries.symm.trans hnil)⟩
  refine ⟨⟨?_, ?_⟩, ?_, ?_, ?_⟩
  · exact always_of_invariant (I := Inv) (fun _ h => h.tidy) (fun _ _ _ h hs => h.step hs) run _ hinit
  · exact always_of_along (I := fun s => Inv s ∧ Served s) (fun _ h => h.2.inOrder h.1)
      (fun _ _ _ h hturn hs => ⟨h.1.step hs, h.2.step h.1 hturn hs⟩) run _
        ⟨hinit, Served.asCompleted entries outcome⟩
  · exact always_of_invariant (I := fun w : Wait => Inv w.gen ∧ w.gen.entries ≠ [])
      (fun _ h => h.1.tidy) hstep waitRun _
      ⟨hinv, hne⟩
  · exact along_of_along (I := fun w : Wait => Inv w.gen ∧ w.gen.entries ≠ []) (C := fun _ _ => True)
      (fun w a h _ w' hs => (waitStep_returns h.1 h.2 hs).2.2)
        (fun w a w' h _ hs => hstep w a w' h hs) waitRun _
      ⟨hinv, hne⟩ (along_of_forall (fun _ _ => trivial) waitRun _)
  · exact always_of_along (I := fun w : Wait => (Inv w.gen ∧ w.gen.entries ≠ []) ∧ Served w.gen)
      (fun _ h => h.2.inOrder h.1.1)
      (fun w a w' h hturn hs => ⟨hstep w a w' h.1 hs, h.2.waitStep h.1.1 h.1.2 hturn hs⟩) waitRun _
      ⟨⟨hinv, hne⟩, hserved⟩

/-- A child that is given twice, and two that are completed the other way round. -/
theorem as_completed_and_wait_three :
    Played step (Always step State.InOrder) (asCompleted [1, 2, 1] fun _ => none)
        [.next, .child (.complete 2 .result true), .child (.invoke 2 true), .resume,
          .child (.complete 1 .result true),
          .child (.invoke 1 true), .next, .next] ∧
      Played waitStep (Always waitStep fun w => w.gen.InOrder)
        ⟨asCompleted [1, 2] fun _ => none, .firstCompleted, none, false⟩
        [.run, .child (.complete 2 .result true), .child (.invoke 2 true), .resume] := by
  have hboth := as_completed_and_wait [1, 2, 1] (fun _ => none)
    [.next, .child (.complete 2 .result true), .child (.invoke 2 true), .resume,
      .child (.complete 1 .result true),
      .child (.invoke 1 true), .next, .next]
  have hwait := as_completed_and_wait [1, 2] (fun _ => none) [] .firstCompleted _ rfl
    [.run, .child (.complete 2 .result true), .child (.invoke 2 true), .resume]
  refine ⟨⟨(hboth .firstCompleted _ rfl []).1.2 ?_, by decide⟩, hwait.2.2.2 ?_, by decide⟩
  · exact ⟨trivial, fun _ _ => rfl, fun _ => ⟨rfl, fun _ => rfl⟩, trivial, fun _ _ => rfl,
      fun _ => ⟨rfl, fun _ => rfl⟩,
      trivial, trivial, trivial⟩
  · exact ⟨trivial, fun _ _ => rfl, fun _ => ⟨rfl, fun _ => rfl⟩, trivial, trivial⟩

/-- Another callback of the only child raises before `complete_next` is called: the child is never
yielded. -/
theorem left_loop_yields_nothing : ∃ s,
    exec step (asCompleted [1] fun _ => none)
      [.next, .child (.complete 1 .result true), .child (.leave 1)] = some s ∧
      s.done 1 = true ∧ s.gen = .waiting ∧ step s .resume = none ∧ ¬ s.InOrder := by
  refine ⟨_, rfl, rfl, rfl, rfl, fun h => ?_⟩
  have hqueued := h.queued (.inl rfl) rfl
  cases hqueued

end Pytealet.Scheduler.CompletionOrder
