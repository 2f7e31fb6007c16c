import Mathlib.Data.List.Basic
import Pytealet.Lib.Transition

/-!
# AcceptBridge — accepted connections on their way to an asyncio future

`ForwardingProactor.accept` hands the call to the host proactor and returns an asyncio future.  The
host calls `on_done`, which queues `complete_future` on the asyncio loop; the loop runs it later.
In between the future may be cancelled, and the loop may be closed: it drops what it has queued
then, and refuses what comes after.
-/

namespace Pytealet.Asyncio.AcceptBridge

open Lib Lib.Transition List

abbrev Conn :=
  Nat

abbrev Handle :=
  Nat

abbrev Peername :=
  String

/-- What the host gives to `on_done`. -/
inductive Outcome
  | connection (c : Conn)
  /-- `is_io_cancellation` -/
  | cancellation
  | exception
  deriving DecidableEq, Repr

/-- The asyncio future. -/
inductive Future
  | pending
  | cancelled
  /-- `(conn, peername)` -/
  | result (c : Conn) (peername : Option Peername)
  | exception
  deriving DecidableEq, Repr

/-- One call of `accept`. -/
structure Accept where
  future : Future := .pending
  handle : Option Handle
  /-- what the host has delivered -/
  delivered : Option Outcome := none
  deriving DecidableEq, Repr

/-- What the asyncio loop has queued; the number is that of the call. -/
inductive Callback
  | completeFuture (k : Nat) (o : Outcome)
  | cancelOperation (k : Nat)
  deriving DecidableEq, Repr

structure State where
  accepts : List Accept := []
  ready : List Callback := []
  loopClosed : Bool := false
  /-- `wake_wait` calls -/
  wakes : Nat := 0
  /-- `cancel_nowait` calls -/
  cancels : List Handle := []
  /-- the connections that the bridge has closed -/
  closes : List Conn := []
  deriving DecidableEq, Repr

namespace State

/-- A pending future is settled; the loop schedules its done-callback, or raises when it is
closed. -/
def settle (s : State) (k : Nat) (f : Future) : State :=
  match s.accepts[k]? with
  | none => s
  | some a =>
    if a.future = .pending then
      { s with
        accepts := s.accepts.set k { a with future := f }
        ready := if s.loopClosed then s.ready else s.ready ++ [.cancelOperation k] }
    else s

/-- The value of the future, with the peer's name as `map_accept` gives it. -/
def valueOf (o : Outcome) (peername : Option Peername) : Future :=
  match o with
  | .connection c => .result c peername
  | .cancellation => .cancelled
  | .exception => .exception

def completeFuture (s : State) (k : Nat) (o : Outcome) (peername : Option Peername) : State :=
  if s.accepts[k]?.map Accept.future = some .cancelled then s else s.settle k (valueOf o peername)

def cancelOperation (s : State) (k : Nat) : State :=
  match s.accepts[k]? with
  | none => s
  | some a =>
    if a.future = .cancelled then
      match a.handle with
      | some h => { s with cancels := s.cancels ++ [h] }
      | none => s
    else s

/-- `_marshal_operation_completion`; a closed loop raises, and that is swallowed. -/
def marshalOperationCompletion (s : State) (cb : Callback) : State :=
  if s.loopClosed then s else { s with ready := s.ready ++ [cb], wakes := s.wakes + 1 }

def onDone (s : State) (k : Nat) (a : Accept) (o : Outcome) : State :=
  { s with accepts := s.accepts.set k { a with delivered := some o } }.marshalOperationCompletion
    (.completeFuture k o)

def runCallback (s : State) (peername : Option Peername) : Callback → State
  | .completeFuture k o => s.completeFuture k o peername
  | .cancelOperation k => s.cancelOperation k

end State

inductive Action
  | accept (handle : Option Handle)
  /-- the host completes a call -/
  | deliver (k : Nat) (o : Outcome)
  /-- the loop runs the callback at the head of its queue -/
  | run (peername : Option Peername)
  | cancel (k : Nat)
  | close
  deriving DecidableEq, Repr

def step (s : State) : Action → Option State
  | .accept handle => some { s with accepts := s.accepts ++ [{ handle }] }
  | .deliver k o =>
    match s.accepts[k]? with
    | none => none
    | some a => if a.delivered = none then some (s.onDone k a o) else none
  | .run peername =>
    match s.ready with
    | [] => none
    | cb :: rest => if s.loopClosed then none else some ({ s with ready := rest }.runCallback peername cb)
  | .cancel k => some (s.settle k .cancelled)
  | .close => some { s with loopClosed := true, ready := [] }

def init : State :=
  { }

/-! ## The property -/

/-- A connection has reached the future of its call, or has been closed. -/
def State.Settled (s : State) (a : Accept) (c : Conn) : Prop :=
  (∃ peername, a.future = .result c peername) ∨ c ∈ s.closes

/-- Each connection that was delivered is on its way, or has got there. -/
def State.Owned (s : State) : Prop :=
  ∀ k a c, s.accepts[k]? = some a → a.delivered = some (.connection c) →
    .completeFuture k (.connection c) ∈ s.ready ∨ s.Settled a c

/-- No connection comes to a closed loop or a cancelled future, and the loop is not closed with one
in its queue. -/
def Met (s : State) : Action → Prop
  | .deliver _ (.connection _) => s.loopClosed = false
  | .run _ => ∀ k c, s.ready.head? = some (.completeFuture k (.connection c)) →
      s.accepts[k]?.map Accept.future ≠ some .cancelled
  | .close => ∀ k c, .completeFuture k (.connection c) ∉ s.ready
  | _ => True

/-! ## The invariant -/

def Accept.unsettled (a : Accept) : Prop :=
  a.future = .pending ∨ a.future = .cancelled

/-- The call that a callback completes. -/
def Callback.completes : Callback → Option Nat
  | .completeFuture k _ => some k
  | .cancelOperation _ => none

structure Inv (s : State) : Prop where
  queued : ∀ k o, .completeFuture k o ∈ s.ready → ∃ a : Accept,
    s.accepts[k]? = some a ∧ a.delivered = some o ∧ a.unsettled
  waits : ∀ (k : Nat) (a : Accept), s.accepts[k]? = some a → a.delivered = none → a.unsettled
  once : (s.ready.filterMap Callback.completes).Nodup
  idle : s.loopClosed = true → s.ready = []
  /-- the bridge does not close anything -/
  closes : s.closes = []

variable {s s' : State} {k : Nat} {a : Accept} {o : Outcome}

theorem mem_completes {l : List Callback} : k ∈ l.filterMap Callback.completes ↔
    ∃ o, .completeFuture k o ∈ l := by
  rw [mem_filterMap]
  constructor
  · rintro ⟨cb, hmem, hk⟩
    cases cb with
    | completeFuture k' o =>
      cases hk
      exact ⟨o, hmem⟩
    | cancelOperation k' => cases hk
  · rintro ⟨o, hmem⟩
    exact ⟨_, hmem, rfl⟩

theorem inv_init : Inv init where
  queued := fun _ _ hmem => nomatch hmem
  waits := fun _ _ ha => nomatch ha
  once := nodup_nil
  idle := fun _ => rfl
  closes := rfl

theorem Inv.settle (h : Inv s) {f : Future} (hf : f = .cancelled ∨ (∀ o, .completeFuture k o ∉ s.ready) ∧
    ∀ a, s.accepts[k]? = some a → a.delivered ≠ none) : Inv (s.settle k f) := by
  unfold State.settle
  split
  · exact h
  · rename_i a ha
    split
    · have hlt : k < s.accepts.length := (List.getElem?_eq_some_iff.1 ha).1
      refine ⟨fun k₁ o hmem => ?_, fun k₁ a₁ ha₁ hnone => ?_, ?_, fun hclosed => ?_, h.closes⟩
      · have hold : .completeFuture k₁ o ∈ s.ready := by
          dsimp only at hmem
          split at hmem
          · exact hmem
          · rcases mem_append.1 hmem with hold | hnew
            · exact hold
            · simp at hnew
        rcases h.queued k₁ o hold with ⟨a₁, ha₁, hdel, hopen⟩
        by_cases heq : k = k₁
        · subst heq
          cases ha.symm.trans ha₁
          refine ⟨{ a with future := f }, List.getElem?_set_self hlt, hdel, ?_⟩
          rcases hf with hcancelled | ⟨hnone, _⟩
          · exact .inr hcancelled
          · exact absurd hold (hnone o)
        · exact ⟨a₁, by simpa [heq] using ha₁, hdel, hopen⟩
      · by_cases heq : k = k₁
        · subst heq
          simp only [List.getElem?_set_self hlt, Option.some.injEq] at ha₁
          subst ha₁
          rcases hf with rfl | ⟨_, hdel⟩
          · exact .inr rfl
          · exact absurd hnone (hdel a ha)
        · exact h.waits k₁ a₁ (by simpa [heq] using ha₁) hnone
      · dsimp only
        split
        · exact h.once
        · rw [filterMap_append]
          exact (append_nil (s.ready.filterMap Callback.completes)).symm ▸ h.once
      · dsimp only
        rw [if_pos hclosed]
        exact h.idle hclosed
    · exact h

theorem Inv.cancelOperation (h : Inv s) (k : Nat) : Inv (s.cancelOperation k) := by
  unfold State.cancelOperation
  split
  · exact h
  · split
    · split
      · exact ⟨h.queued, h.waits, h.once, h.idle, h.closes⟩
      · exact h
    · exact h

theorem Inv.pop {cb : Callback} {rest : List Callback} (h : Inv s) (hready : s.ready = cb :: rest)
    (hopen : s.loopClosed = false) :
    Inv { s with ready := rest } ∧ ∀ k o, cb = .completeFuture k o → ∀ o', .completeFuture k o' ∉ rest := by
  have honce := h.once
  rw [hready] at honce
  constructor
  · refine ⟨fun k o hmem => h.queued k o (hready ▸ mem_cons_of_mem _ hmem), h.waits, ?_, fun hclosed => ?_,
      h.closes⟩
    · exact List.Nodup.sublist (List.Sublist.filterMap _ (sublist_cons_self cb rest)) honce
    · rw [hopen] at hclosed
      cases hclosed
  · rintro k o rfl o' hmem
    have hfirst : (k :: rest.filterMap Callback.completes).Nodup := honce
    exact (nodup_cons.1 hfirst).1 (mem_completes.2 ⟨o', hmem⟩)

theorem Inv.onDone (h : Inv s) (ha : s.accepts[k]? = some a) (hnone : a.delivered = none) :
    Inv (s.onDone k a o) := by
  have hlt : k < s.accepts.length := (List.getElem?_eq_some_iff.1 ha).1
  have hopen := h.waits k a ha hnone
  have hfresh : ∀ o', .completeFuture k o' ∉ s.ready := by
    intro o' hmem
    rcases h.queued k o' hmem with ⟨a', ha', hdel, _⟩
    cases ha.symm.trans ha'
    rw [hnone] at hdel
    cases hdel
  have hold : ∀ k₁ o₁, .completeFuture k₁ o₁ ∈ s.ready → ∃ a₁ : Accept,
      (s.accepts.set k { a with delivered := some o })[k₁]? = some a₁ ∧
        a₁.delivered = some o₁ ∧ a₁.unsettled := by
    intro k₁ o₁ hmem
    rcases h.queued k₁ o₁ hmem with ⟨a₁, ha₁, hrest⟩
    have hne : k ≠ k₁ := fun heq => hfresh o₁ (heq ▸ hmem)
    exact ⟨a₁, by simpa [hne] using ha₁, hrest⟩
  have hwaits : ∀ (k₁ : Nat) (a₁ : Accept), (s.accepts.set k { a with delivered := some o })[k₁]? =
      some a₁ → a₁.delivered = none →
      a₁.unsettled := by
    intro k₁ a₁ ha₁ hnone₁
    by_cases heq : k = k₁
    · subst heq
      simp only [List.getElem?_set_self hlt, Option.some.injEq] at ha₁
      subst ha₁
      exact hopen
    · exact h.waits k₁ a₁ (by simpa [heq] using ha₁) hnone₁
  unfold State.onDone State.marshalOperationCompletion
  dsimp only
  split
  · exact ⟨hold, hwaits, h.once, h.idle, h.closes⟩
  · rename_i hloop
    refine ⟨fun k₁ o₁ hmem => ?_, hwaits, ?_, fun hclosed => absurd hclosed hloop, h.closes⟩
    · rcases mem_append.1 hmem with hmem | hmem
      · exact hold k₁ o₁ hmem
      · cases mem_singleton.1 hmem
        exact ⟨{ a with delivered := some o }, List.getElem?_set_self hlt, rfl, hopen⟩
    · rw [filterMap_append, nodup_append]
      refine ⟨h.once, by simp [Callback.completes], fun k₁ hk₁ k₂ hk₂ => ?_⟩
      have heq₂ : k₂ = k := mem_singleton.1 hk₂
      rcases mem_completes.1 hk₁ with ⟨o', hmem⟩
      exact fun heq => hfresh o' (heq₂ ▸ heq ▸ hmem)

theorem complete_cases {rest : List Callback} (h : Inv s) (hready : s.ready = .completeFuture k o :: rest)
    (hopen : s.loopClosed = false) (peername : Option Peername) :
    ∃ a : Accept, s.accepts[k]? = some a ∧ a.delivered = some o ∧
      ((a.future = .cancelled ∧ { s with ready := rest }.completeFuture k o peername =
        { s with ready := rest }) ∨
        (a.future = .pending ∧ { s with ready := rest }.completeFuture k o peername =
          { s with
            accepts := s.accepts.set k { a with future := State.valueOf o peername }
            ready := rest ++ [.cancelOperation k] })) := by
  rcases h.queued k o (hready ▸ mem_cons_self) with ⟨a, ha, hdel, hpending | hcancelled⟩
  · refine ⟨a, ha, hdel, .inr ⟨hpending, ?_⟩⟩
    simp [State.completeFuture, State.settle, ha, hpending, hopen]
  · refine ⟨a, ha, hdel, .inl ⟨hcancelled, ?_⟩⟩
    simp [State.completeFuture, ha, hcancelled]

theorem Inv.completeFuture {rest : List Callback} (h : Inv s)
    (hready : s.ready = .completeFuture k o :: rest)
    (hopen : s.loopClosed = false) (peername : Option Peername) :
    Inv ({ s with ready := rest }.completeFuture k o peername) := by
  rcases h.pop hready hopen with ⟨hpop, hgone⟩
  unfold State.completeFuture
  split
  · exact hpop
  · refine hpop.settle (.inr ⟨hgone k o rfl, fun a ha => ?_⟩)
    rcases h.queued k o (hready ▸ mem_cons_self) with ⟨a', ha', hdel, _⟩
    cases ha.symm.trans ha'
    rw [hdel]
    exact Option.some_ne_none o

/-- A connection is with the host, in the queue of the loop, or with its future. -/
theorem Inv.step {act : Action} (h : Inv s) (hs : step s act = some s') : Inv s' := by
  cases act with
  | accept handle =>
    cases hs
    refine ⟨fun k o hmem => ?_, fun k a ha hnone => ?_, h.once, h.idle, h.closes⟩
    · rcases h.queued k o hmem with ⟨a, ha, hrest⟩
      have hlt : k < s.accepts.length := (List.getElem?_eq_some_iff.1 ha).1
      exact ⟨a, (List.getElem?_append_left hlt).trans ha, hrest⟩
    · by_cases hlt : k < s.accepts.length
      · exact h.waits k a ((List.getElem?_append_left hlt).symm.trans ha) hnone
      · -- the call that is new
        have hmem := mem_of_getElem? ((List.getElem?_append_right (Nat.not_lt.1 hlt)).symm.trans ha)
        cases mem_singleton.1 hmem
        exact .inl rfl
  | deliver k o =>
    simp only [AcceptBridge.step] at hs
    split at hs
    · cases hs
    · rename_i a ha
      split at hs
      · rename_i hnone
        cases hs
        exact h.onDone ha hnone
      · cases hs
  | run peername =>
    simp only [AcceptBridge.step] at hs
    split at hs
    · cases hs
    · rename_i cb rest hready
      split at hs
      · cases hs
      · rename_i hloop
        have hopen : s.loopClosed = false := Bool.eq_false_iff.2 hloop
        cases hs
        cases cb with
        | completeFuture k o => exact h.completeFuture hready hopen peername
        | cancelOperation k => exact (h.pop hready hopen).1.cancelOperation k
  | cancel k =>
    cases hs
    exact h.settle (.inl rfl)
  | close =>
    cases hs
    exact ⟨fun k o hmem => (nomatch hmem), h.waits, nodup_nil, fun _ => rfl, h.closes⟩

/-! ## One step -/

theorem Owned.settle (h : s.Owned) (k : Nat) (f : Future) : (s.settle k f).Owned := by
  unfold State.settle
  split
  · exact h
  · rename_i a ha
    split
    · rename_i hpending
      have hlt : k < s.accepts.length := (List.getElem?_eq_some_iff.1 ha).1
      intro k₁ a₁ c ha₁ hdel
      have hold : ∀ {cb : Callback}, cb ∈ s.ready →
          cb ∈ if s.loopClosed then s.ready else s.ready ++ [.cancelOperation k] := by
        intro cb hmem
        split
        · exact hmem
        · exact mem_append_left _ hmem
      by_cases heq : k = k₁
      · subst heq
        simp only [List.getElem?_set_self hlt, Option.some.injEq] at ha₁
        subst ha₁
        rcases h k a c ha hdel with hmem | ⟨peername, hres⟩ | hclosed
        · exact .inl (hold hmem)
        · rw [hpending] at hres
          cases hres
        · exact .inr (.inr hclosed)
      · rcases h k₁ a₁ c (by simpa [heq] using ha₁) hdel with hmem | hsettled
        · exact .inl (hold hmem)
        · exact .inr hsettled
    · exact h

theorem owned_step {act : Action} (hI : Inv s) (h : s.Owned) (hmet : Met s act)
    (hs : step s act = some s') :
    s'.Owned := by
  cases act with
  | accept handle =>
    cases hs
    intro k a c ha hdel
    by_cases hlt : k < s.accepts.length
    · exact h k a c ((List.getElem?_append_left hlt).symm.trans ha) hdel
    · have hmem := mem_of_getElem? ((List.getElem?_append_right (Nat.not_lt.1 hlt)).symm.trans ha)
      cases mem_singleton.1 hmem
      cases hdel
  | deliver k o =>
    simp only [step] at hs
    split at hs
    · cases hs
    · rename_i a ha
      split at hs
      · cases hs
        have hlt : k < s.accepts.length := (List.getElem?_eq_some_iff.1 ha).1
        intro k₁ a₁ c ha₁ hdel
        simp only [State.onDone, State.marshalOperationCompletion] at ha₁ ⊢
        by_cases heq : k = k₁
        · subst heq
          split at ha₁
          · rename_i hclosed
            simp only [List.getElem?_set_self hlt, Option.some.injEq] at ha₁
            subst ha₁
            cases hdel
            rw [show s.loopClosed = false from hmet] at hclosed
            cases hclosed
          · rename_i hopen
            simp only [List.getElem?_set_self hlt, Option.some.injEq] at ha₁
            subst ha₁
            cases hdel
            exact .inl (by simp [hopen])
        · have ha₁' : s.accepts[k₁]? = some a₁ := by
            split at ha₁ <;> simpa [heq] using ha₁
          rcases h k₁ a₁ c ha₁' hdel with hmem | hsettled
          · refine .inl ?_
            split
            · exact hmem
            · exact mem_append_left _ hmem
          · refine .inr ?_
            split <;> exact hsettled
      · cases hs
  | run peername =>
    simp only [step] at hs
    split at hs
    · cases hs
    · rename_i cb rest hready
      split at hs
      · cases hs
      · rename_i hloop
        have hopen : s.loopClosed = false := Bool.eq_false_iff.2 hloop
        cases hs
        have hrest : ∀ {k c}, .completeFuture k (.connection c) ∈ s.ready →
            cb ≠ .completeFuture k (.connection c) → .completeFuture k (.connection c) ∈ rest := by
          intro k c hmem hne
          rw [hready] at hmem
          exact (mem_cons.1 hmem).resolve_left (Ne.symm hne)
        cases cb with
        | completeFuture k o =>
          rcases complete_cases hI hready hopen peername with
            ⟨a, ha, hdel, ⟨hcancelled, heq⟩ | ⟨hpending, heq⟩⟩
          · simp only [State.runCallback, heq]
            intro k₁ a₁ c ha₁ hdel₁
            refine (h k₁ a₁ c ha₁ hdel₁).imp_left fun hmem => hrest hmem ?_
            intro hcb
            cases hcb
            exact hmet k c (by rw [hready]; rfl) (by rw [ha]; exact congrArg some hcancelled)
          · simp only [State.runCallback, heq]
            have hlt : k < s.accepts.length := (List.getElem?_eq_some_iff.1 ha).1
            intro k₁ a₁ c ha₁ hdel₁
            by_cases hk : k = k₁
            · subst hk
              simp only [List.getElem?_set_self hlt, Option.some.injEq] at ha₁
              subst ha₁
              cases hdel.symm.trans hdel₁
              exact .inr (.inl ⟨peername, rfl⟩)
            · rcases h k₁ a₁ c (by simpa [hk] using ha₁) hdel₁ with hmem | hsettled
              · exact .inl (mem_append_left _ (hrest hmem fun hcb => by cases hcb; exact hk rfl))
              · exact .inr hsettled
        | cancelOperation k =>
          have hpop : State.Owned { s with ready := rest } := by
            intro k₁ a₁ c ha₁ hdel₁
            exact (h k₁ a₁ c ha₁ hdel₁).imp_left fun hmem => hrest hmem (by simp)
          simp only [State.runCallback, State.cancelOperation]
          split
          · exact hpop
          · split
            · split
              · exact hpop
              · exact hpop
            · exact hpop
  | cancel k =>
    cases hs
    exact Owned.settle h k .cancelled
  | close =>
    cases hs
    intro k a c ha hdel
    exact .inr ((h k a c ha hdel).resolve_left (hmet k c))

theorem not_settled (hI : Inv s) (hopen : a.unsettled) (c : Conn) : ¬ s.Settled a c := by
  rintro (⟨peername, hres⟩ | hmem)
  · rcases hopen with hpending | hcancelled
    · rw [hpending] at hres
      cases hres
    · rw [hcancelled] at hres
      cases hres
  · rw [hI.closes] at hmem
    cases hmem

theorem lost_step {act : Action} (hI : Inv s) (hmet : ¬ Met s act) (hs : step s act = some s') :
    ¬ s'.Owned := by
  intro howned
  cases act with
  | deliver k o =>
    cases o with
    | connection c =>
      have hclosed : s.loopClosed = true := by simpa [Met] using hmet
      simp only [step] at hs
      split at hs
      · cases hs
      · rename_i a ha
        split at hs
        · rename_i hnone
          have hlt : k < s.accepts.length := (List.getElem?_eq_some_iff.1 ha).1
          simp only [State.onDone, State.marshalOperationCompletion, hclosed,
            if_true, Option.some.injEq] at hs
          subst hs
          rcases howned k { a with delivered := some (.connection c) } c (by simp [hlt]) rfl with
            hmem | hsettled
          · simp [hI.idle hclosed] at hmem
          · exact not_settled hI (hI.waits k a ha hnone) c hsettled
        · cases hs
    | cancellation => exact hmet trivial
    | exception => exact hmet trivial
  | run peername =>
    simp only [Met, not_forall, not_not] at hmet
    rcases hmet with ⟨k, c, hhead, hcancelled⟩
    simp only [step] at hs
    split at hs
    · cases hs
    · rename_i cb rest hready
      rw [hready] at hhead
      cases hhead
      split at hs
      · cases hs
      · rename_i hloop
        have hopen : s.loopClosed = false := Bool.eq_false_iff.2 hloop
        cases hs
        rcases complete_cases hI hready hopen peername with ⟨a, ha, hdel, ⟨_, heq⟩ | ⟨hpending, _⟩⟩
        · simp only [State.runCallback, heq] at howned
          rw [ha] at hcancelled
          rcases howned k a c ha hdel with hmem | hsettled
          · exact (hI.pop hready hopen).2 k _ rfl _ hmem
          · exact not_settled hI (.inr (Option.some.inj hcancelled)) c hsettled
        · rw [ha, Option.map_some, hpending] at hcancelled
          cases hcancelled
  | close =>
    simp only [Met, not_forall, not_not] at hmet
    rcases hmet with ⟨k, c, hmem⟩
    cases hs
    rcases hI.queued k _ hmem with ⟨a, ha, hdel, hopen⟩
    rcases howned k a c ha hdel with hin | hsettled
    · cases hin
    · exact not_settled hI hopen c hsettled
  | accept handle => exact hmet trivial
  | cancel k => exact hmet trivial

/-! ## Runs -/

theorem run_step {cb : Callback} {rest : List Callback} (hready : s.ready = cb :: rest)
    (hopen : s.loopClosed = false)
    (peername : Option Peername) :
    ∃ s', step s (.run peername) = some s' ∧ s'.loopClosed = false ∧
      ∃ extra, s'.ready = rest ++ extra ∧ ∀ k o, .completeFuture k o ∉ extra := by
  refine ⟨{ s with ready := rest }.runCallback peername cb, by simp [step, hready, hopen], ?_⟩
  have hsettle : ∀ k f, ({ s with ready := rest }.settle k f).loopClosed = false ∧
      ∃ extra, ({ s with ready := rest }.settle k f).ready = rest ++ extra ∧
        ∀ k o, .completeFuture k o ∉ extra := by
    intro k f
    unfold State.settle
    split
    · exact ⟨hopen, [], by simp, by simp⟩
    · split
      · exact ⟨hopen, [.cancelOperation k], by simp [hopen], by simp⟩
      · exact ⟨hopen, [], by simp, by simp⟩
  cases cb with
  | completeFuture k o =>
    simp only [State.runCallback, State.completeFuture]
    split
    · exact ⟨hopen, [], by simp, by simp⟩
    · exact hsettle k _
  | cancelOperation k =>
    simp only [State.runCallback, State.cancelOperation]
    split
    · exact ⟨hopen, [], by simp, by simp⟩
    · split
      · split
        · exact ⟨hopen, [], by simp, by simp⟩
        · exact ⟨hopen, [], by simp, by simp⟩
      · exact ⟨hopen, [], by simp, by simp⟩

theorem drained (names : List (Option Peername)) {l extra : List Callback} (hready : s.ready = l ++ extra)
    (hlen : l.length = names.length) (hextra : ∀ k o, .completeFuture k o ∉ extra)
    (hopen : s.loopClosed = false) :
    ∃ s', exec step s (names.map .run) = some s' ∧ ∀ k o, .completeFuture k o ∉ s'.ready := by
  -- the induction is on what is still to run; what is queued meanwhile comes behind it
  induction names generalizing s l extra with
  | nil =>
    cases eq_nil_of_length_eq_zero hlen
    exact ⟨s, rfl, by rw [hready]; exact hextra⟩
  | cons peername names ih =>
    cases l with
    | nil => cases hlen
    | cons cb l =>
      rcases run_step hready hopen peername with ⟨s₁, hs, hopen₁, more, hready₁, hmore⟩
      have hboth : ∀ k o, .completeFuture k o ∉ extra ++ more := fun k o hmem =>
        (mem_append.1 hmem).elim (hextra k o) (hmore k o)
      rcases ih (hready₁.trans (append_assoc l extra more)) (Nat.succ.inj hlen) hboth hopen₁ with
        ⟨s', he, hgone⟩
      refine ⟨s', ?_, hgone⟩
      simp only [map_cons, exec, hs]
      exact he

/-- In a run, each connection that was delivered is on its way or has got there if and only if none
has come to a closed loop or a cancelled future; and where the loop goes on through what it has
queued, they all get there. -/
theorem connections_owned (run : List Action) :
    (Always step State.Owned init run ↔ Along step Met init run) ∧
      ∀ s, exec step init run = some s → s.loopClosed = false → ∀ names : List (Option Peername),
        names.length = s.ready.length → Along step Met init (run ++ names.map .run) →
          ∃ s', exec step s (names.map .run) = some s' ∧
            ∀ (k : Nat) (a : Accept) (c : Conn), s'.accepts[k]? = some a →
              a.delivered = some (.connection c) → s'.Settled a c := by
  have hkept : ∀ s act s', Inv s ∧ s.Owned → Met s act → step s act = some s' → Inv s' ∧ s'.Owned :=
    fun s act s' h hmet hs => ⟨h.1.step hs, owned_step h.1 h.2 hmet hs⟩
  have hinit : Inv init ∧ init.Owned := ⟨inv_init, fun k a c ha => (nomatch ha)⟩
  refine ⟨always_iff_along (fun s h => h.2) hkept (fun s act s' h hmet hs => lost_step h.1 hmet hs)
    run init hinit, ?_⟩
  intro s he hopen names hlen hmet
  rcases drained names (append_nil s.ready).symm hlen.symm (by simp) hopen with ⟨s', hdrain, hgone⟩
  refine ⟨s', hdrain, fun k a c ha hdel => ?_⟩
  rcases hmet.split he with ⟨hleft, hright⟩
  have hs : Inv s ∧ s.Owned := (always_of_along (fun s h => h) hkept run init hinit hleft).exec he
  have howned : s'.Owned := (always_of_along (fun s h => h.2) hkept _ s hs hright).exec hdrain
  exact (howned k a c ha hdel).resolve_left (hgone k _)

/-- A connection that comes in time. -/
theorem connections_owned_one :
    ∃ s', exec step
        { accepts := [{ handle := some 7, delivered := some (.connection 3) }]
          ready := [.completeFuture 0 (.connection 3)]
          wakes := 1 }
        [.run (some "peer")] = some s' ∧
      ∀ (k : Nat) (a : Accept) (c : Conn), s'.accepts[k]? = some a →
        a.delivered = some (.connection c) → s'.Settled a c :=
  (connections_owned [.accept (some 7), .deliver 0 (.connection 3)]).2 _ rfl rfl [some "peer"] rfl
    ⟨trivial, rfl, fun k c hhead => by cases hhead; exact nofun, trivial⟩

/-- The future is cancelled when its completion is queued already: the connection is dropped, and
stays open. -/
theorem cancelled_between :
    ¬ Always step State.Owned init
      [.accept (some 7), .deliver 0 (.connection 3), .cancel 0, .run (some "peer")] := by
  intro h
  have howned := h.2.2.2.2
  rcases howned 0 _ 3 rfl rfl with hmem | ⟨_, hres⟩ | hclosed
  · exact absurd hmem (by decide)
  · cases hres
  · cases hclosed

end Pytealet.Asyncio.AcceptBridge
