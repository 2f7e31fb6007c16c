import Pytealet.Lib.Transition
import Pytealet.Selector.Calls

/-!
# Selector.SubmitAtomic — what a submit that raises leaves behind

A submit is refused before it has changed anything, or it raises when the selector refuses the
registration of the slot that it has reserved by then.  `poll_many` makes its first step inside of
the call, so its registration comes after a callback, in a later step of the machine.

`Watched` keeps the states in which the submits in progress were called, and for every submit that
has raised the states before and after it.
-/

namespace Pytealet.Selector.SubmitAtomic

open Lib Lib.Transition List

/-! ## Calls that raise -/

/-- The call gives no handle back. -/
def submitRaises (s : State) (op : Op) (t : Try) (fails : Bool) : Bool :=
  match op with
  | .send _ [] => false
  | _ => !(s.submit op t fails).accepted ⟨s.count, op⟩

/-- The lock holder's next step is an update of the registration, and it raises. -/
def updateRaises (s : State) : Action → Bool
  | .go _ fails =>
    match s.stack with
    | .streamTail h false :: _ => (s.updateSelectorRegistration h.fd fails).2
    | .removeTail fd :: _ => (s.updateSelectorRegistration fd fails).2
    | _ => false
  | _ => false

structure Watched where
  state : State
  /-- the states in which the submits in progress were called, innermost first -/
  calls : List State := []
  /-- the submits that have raised: the states before and after the call -/
  raised : List (State × State) := []

def step (w : Watched) (a : Action) : Option Watched :=
  (Selector.step w.state a).map fun s' =>
    match a with
    | .submit op t fails =>
      if submitRaises w.state op t fails then { w with state := s', raised := w.raised ++ [(w.state, s')] }
      else
        { w with
          state := s'
          calls := if w.state.stack.length < s'.stack.length then w.state :: w.calls else w.calls }
    | _ =>
      let left := w.calls.filter fun s => s'.stack.length ≤ s.stack.length
      { state := s'
        calls := w.calls.filter fun s => s.stack.length < s'.stack.length
        raised := if updateRaises w.state a then w.raised ++ left.map fun s => (s, s') else w.raised }

/-- The slots, the write queues and so the live handles, and the selector's registrations are those
of before; what can be submitted is the same. -/
structure Atomic (before after : State) : Prop where
  entries : after.table.entryAt = before.table.entryAt
  keys : after.keys = before.keys
  refuses : after.refuses = before.refuses

/-- Every submit that has raised has left things as they were. -/
def Kept (w : Watched) : Prop :=
  ∀ r ∈ w.raised, Atomic r.1 r.2

/-! ## When the selector is asked -/

/-- The operation is neither done at once nor queued: it is parked in its slots by the call
itself. -/
def parks (s : State) (h : Handle) (t : Try) : Bool :=
  match h.op with
  | .send _ [] | .shutdown _ _ _ | .closeSocket _ _ => false
  | .single _ pooled _ => !(pooled && t.outcome = .failed)
  | .send _ _ | .sendAll _ _ => !s.writeBusy h.fd && (h.op.attempt (s.offset h) t).2.2 = .blocked
  | .oneshot _ _ | .poll _ _ | .pollMany _ _ => t.outcome = .blocked

/-- The submit gets as far as to register or modify the descriptor with the selector. -/
def asks (s : State) (h : Handle) (t : Try) : Bool :=
  !s.refuses h && parks s h t && s.keys h.fd ≠ some ((s.reserve h).selectorMaskForFd h.fd)

/-- The selector refuses no `register` and no `modify` of a submit: not the one that the call itself
makes, and not one of a step that is made inside of a call. -/
def SelectorAccepts (w : Watched) : Action → Prop
  | .submit op t fails => fails = true → asks w.state ⟨w.state.count, op⟩ t = false
  | a => updateRaises w.state a = true → ∀ s ∈ w.calls,
      s.stack.length < (unwind .os w.state.stack.tail).length

variable {s s' : State} {h : Handle} {t : Try} {op : Op} {fails : Bool} {fd : Nat}

theorem updateSelectorRegistration_snd (s : State) (fd : Nat) (fails : Bool) :
    (s.updateSelectorRegistration fd fails).2 = true ↔
      s.closed = false ∧ (s.selectorMaskForFd fd).nonzero = true ∧
        s.keys fd ≠ some (s.selectorMaskForFd fd) ∧
        fails = true := by
  unfold State.updateSelectorRegistration
  dsimp only
  cases s.closed with
  | true => simp
  | false =>
    cases s.keys fd with
    | none => cases (s.selectorMaskForFd fd).nonzero <;> cases fails <;> simp
    | some old =>
      cases (s.selectorMaskForFd fd).nonzero with
      | false => simp
      | true =>
        by_cases hold : old = s.selectorMaskForFd fd
        · simp [hold]
        · cases fails <;> simp [hold]

theorem unwind_callable (hcallable : s.callable = true) (e : Exc) : unwind e s.stack = s.stack := by
  unfold State.callable at hcallable
  cases hstack : s.stack with
  | nil => rfl
  | cons f st => cases f <;> simp_all [unwind]

theorem raise_callable (hcallable : s.callable = true) (e : Exc) : s.raise e = s := by
  unfold State.raise
  rw [unwind_callable hcallable]

@[simp]
theorem accepted_issue (s : State) (h : Handle) (ok : Bool) : (s.issue h ok).accepted h = ok := by
  simp [State.issue]

theorem atomic_issue (s : State) (h : Handle) (ok : Bool) : Atomic s (s.issue h ok) :=
  ⟨rfl, rfl, rfl⟩

theorem register_raises (fails : Bool) (hopen : s.refuses h = false) (hparks : parks s h t = true) :
    (((s.attempt h t).1.reserve h).updateSelectorRegistration h.fd fails).2 = true →
      fails = true ∧ asks s h t = true := by
  intro hraises
  obtain ⟨-, -, hkeys, hfails⟩ := (updateSelectorRegistration_snd _ h.fd fails).1 hraises
  refine ⟨hfails, ?_⟩
  have hchanges : s.keys h.fd ≠ some ((s.reserve h).selectorMaskForFd h.fd) := hkeys
  simp [asks, hopen, hparks, hchanges]

theorem submitOneshot_refused (hcallable : s.callable = true)
    (hparks : s.refuses h = false → (h.op.attempt (s.offset h) t).2.2 = .blocked → parks s h t = true)
    (haccepts : fails = true → asks s h t = false)
    (hraises : (s.submitOneshot h t fails).accepted h = false) :
    s.submitOneshot h t fails = s.issue h false := by
  unfold State.submitOneshot State.prepareOperation at hraises ⊢
  by_cases hrefuses : s.refuses h = true
  · rw [if_pos hrefuses]
    exact raise_callable (s := s.issue h false) hcallable .exception
  · rw [if_neg hrefuses] at hraises
    exfalso
    have hopen : s.refuses h = false := Bool.not_eq_true _ ▸ hrefuses
    cases hattempt : (s.attempt h t).2 with
    | blocked =>
      have hasked := register_raises fails hopen (hparks hopen hattempt)
      have hpair : s.attempt h t = ((s.attempt h t).1, .blocked) := Prod.ext rfl hattempt
      rw [hpair] at hraises
      dsimp only at hraises
      cases hupdate : (((s.attempt h t).1.reserve h).updateSelectorRegistration h.fd fails).2 with
      | true =>
        obtain ⟨hfails, hask⟩ := hasked hupdate
        rw [haccepts hfails] at hask
        cases hask
      | false =>
        rw [← Prod.eta (((s.attempt h t).1.reserve h).updateSelectorRegistration h.fd fails),
          hupdate] at hraises
        rw [accepted_issue] at hraises
        cases hraises
    | finished =>
      have hpair : s.attempt h t = ((s.attempt h t).1, .finished) := Prod.ext rfl hattempt
      rw [hpair] at hraises
      cases (accepted_issue _ h true).symm.trans hraises
    | failed =>
      have hpair : s.attempt h t = ((s.attempt h t).1, .failed) := Prod.ext rfl hattempt
      rw [hpair] at hraises
      cases (accepted_issue _ h true).symm.trans hraises

theorem submitSend_refused (hcallable : s.callable = true)
    (hparks : s.writeBusy h.fd = false → (h.op.attempt (s.offset h) t).2.2 = .blocked → parks s h t = true)
    (haccepts : fails = true → asks s h t = false) (hraises : (s.submitSend h t fails).accepted h = false) :
    s.submitSend h t fails = s.issue h false := by
  unfold State.submitSend at hraises ⊢
  by_cases hclosed : s.closed = true
  · rw [if_pos hclosed]
  · rw [if_neg hclosed] at hraises ⊢
    by_cases hqueues : (!s.sockClosed h && s.writeBusy h.fd) = true
    · rw [if_pos hqueues, accepted_issue] at hraises
      cases hraises
    · rw [if_neg hqueues] at hraises ⊢
      apply submitOneshot_refused hcallable _ haccepts hraises
      intro hopen
      apply hparks
      cases hbusy : s.writeBusy h.fd with
      | false => rfl
      | true => simp_all [State.refuses]

theorem runOrEnqueueWrite_refused (hraises : (s.runOrEnqueueWrite h).accepted h = false) :
    s.runOrEnqueueWrite h = s.issue h false := by
  have houtside : ((s.issue h true).outside [.run h]).accepted h = true := by
    unfold State.outside
    split
    · exact accepted_issue s h true
    · exact accepted_issue s h true
  unfold State.runOrEnqueueWrite at hraises ⊢
  split at hraises
  · rw [houtside] at hraises
    cases hraises
  · rename_i hopen
    rw [if_neg hopen]
    split at hraises
    · rename_i hclosed
      rw [if_pos hclosed]
    · split at hraises
      · rw [accepted_issue] at hraises
        cases hraises
      · rw [houtside] at hraises
        cases hraises

theorem registerStream_refused (hparks : parks s h t = true)
    (haccepts : fails = true → asks s h t = false) {s₁ : State}
    (heq : s₁ =
      if s.refuses h then s.issue h false
      else
        match (s.reserve h).updateSelectorRegistration h.fd fails with
        | (s', true) => (s'.issue h false).raise .os
        | (s', false) => s'.issue h true)
    (hraises : s₁.accepted h = false) : s₁ = s.issue h false := by
  by_cases hopen : s.refuses h = true
  · rw [heq, if_pos hopen]
  · exfalso
    rw [if_neg hopen, ← Prod.eta ((s.reserve h).updateSelectorRegistration h.fd fails)] at heq
    cases hupdate : ((s.reserve h).updateSelectorRegistration h.fd fails).2 with
    | true =>
      obtain ⟨-, -, hkeys, hfails⟩ := (updateSelectorRegistration_snd _ h.fd fails).1 hupdate
      have hask := haccepts hfails
      simp [asks, hopen, hparks] at hask
      exact hkeys hask
    | false =>
      rw [hupdate] at heq
      rw [heq] at hraises
      cases (accepted_issue _ h true).symm.trans hraises

theorem pollFirst_refused (t : Try) (fails : Bool) {s₁ : State}
    (heq : s₁ = if s.refuses h then s.issue h false else
      ((s.reserve h).issue h true).stepContinuous h t fails)
    (hraises : s₁.accepted h = false) : s₁ = s.issue h false := by
  by_cases hopen : s.refuses h = true
  · rw [heq, if_pos hopen]
  · exfalso
    rw [if_neg hopen] at heq
    obtain ⟨keys, deliveries, stack, hstep⟩ :=
      State.stepContinuous_eq ((s.reserve h).issue h true) h t fails
    rw [heq, hstep] at hraises
    cases (accepted_issue _ h true).symm.trans hraises

theorem submitStream_refused (hstream : h.op.stream = true)
    (haccepts : fails = true → asks s h t = false)
    (hraises : (s.submitStream h t fails).accepted h = false) :
    s.submitStream h t fails = s.issue h false := by
  cases hop : h.op with
  | single k pooled b =>
    by_cases hfull : pooled = true ∧ t.outcome = .failed
    · -- `ENOBUFS` is delivered, and the call returns its handle
      exfalso
      obtain ⟨rfl, hfailed⟩ := hfull
      unfold State.submitStream at hraises
      rw [hop, hfailed] at hraises
      obtain ⟨stack, houtside⟩ := State.userOutside_eq ((s.issue h true).emit h ⟨b, false⟩)
      dsimp only at hraises
      rw [houtside] at hraises
      cases (accepted_issue s h true).symm.trans hraises
    · apply registerStream_refused _ haccepts _ hraises
      · cases pooled <;> simp_all [parks]
      · unfold State.submitStream
        rw [hop]
        cases pooled with
        | false => cases t.outcome <;> rfl
        | true =>
          cases houtcome : t.outcome with
          | failed => exact absurd ⟨rfl, houtcome⟩ hfull
          | blocked => rfl
          | finished => rfl
  | pollMany fd mask =>
    cases houtcome : t.outcome with
    | blocked =>
      apply registerStream_refused _ haccepts _ hraises
      · simp [parks, hop, houtcome]
      · unfold State.submitStream
        rewrite [hop, houtcome]
        rfl
    | finished =>
      apply pollFirst_refused t fails _ hraises
      unfold State.submitStream
      rewrite [hop, houtcome]
      rfl
    | failed =>
      apply pollFirst_refused t fails _ hraises
      unfold State.submitStream
      rewrite [hop, houtcome]
      rfl
  | send | sendAll | shutdown | closeSocket | oneshot | poll =>
    rewrite [hop] at hstream
    cases hstream

theorem accepted_of_raises (hop : ∀ k, op ≠ .send k []) (hraises : submitRaises s op t fails = true) :
    (s.submit op t fails).accepted ⟨s.count, op⟩ = false := by
  unfold submitRaises at hraises
  split at hraises
  · exact absurd rfl (hop _)
  · simpa using hraises

/-- A submit that raises has been refused before it changed anything, unless the selector has
refused it. -/
theorem submit_refused (hcallable : s.callable = true)
    (haccepts : fails = true → asks s ⟨s.count, op⟩ t = false)
    (hraises : submitRaises s op t fails = true) :
    s.submit op t fails = s.issue ⟨s.count, op⟩ false := by
  cases op with
  | send k data =>
    cases data with
    | nil => cases hraises
    | cons b data =>
      apply submitSend_refused (h := ⟨s.count, .send k (b :: data)⟩) hcallable _ haccepts
      · exact accepted_of_raises (by simp) hraises
      · intro hbusy hblocked
        simp [parks, hbusy, hblocked]
  | sendAll k data =>
    apply submitSend_refused (h := ⟨s.count, .sendAll k data⟩) hcallable _ haccepts
    · exact accepted_of_raises (by simp) hraises
    · intro hbusy hblocked
      simp [parks, hbusy, hblocked]
  | shutdown k how callback =>
    apply runOrEnqueueWrite_refused
    exact accepted_of_raises (by simp) hraises
  | closeSocket k callback =>
    apply runOrEnqueueWrite_refused
    exact accepted_of_raises (by simp) hraises
  | oneshot k event =>
    apply submitOneshot_refused (h := ⟨s.count, .oneshot k event⟩) hcallable _ haccepts
    · exact accepted_of_raises (by simp) hraises
    · exact fun _ hblocked => by simpa [parks, Op.attempt] using hblocked
  | poll fd mask =>
    apply submitOneshot_refused (h := ⟨s.count, .poll fd mask⟩) hcallable _ haccepts
    · exact accepted_of_raises (by simp) hraises
    · exact fun _ hblocked => by simpa [parks, Op.attempt] using hblocked
  | single k pooled b =>
    apply submitStream_refused (h := ⟨s.count, .single k pooled b⟩) rfl haccepts
    exact accepted_of_raises (by simp) hraises
  | pollMany fd mask =>
    apply submitStream_refused (h := ⟨s.count, .pollMany fd mask⟩) rfl haccepts
    exact accepted_of_raises (by simp) hraises

/-! ## Runs -/

theorem update_stack (hraises : (s.updateSelectorRegistration fd fails).2 = true) :
    (s.update fd fails).stack = unwind .os s.stack := by
  obtain ⟨keys, heq⟩ := State.update_eq s fd fails
  rw [heq, hraises]
  rfl

theorem removeTail_stack (hraises : (s.updateSelectorRegistration fd fails).2 = true) :
    (s.removeTail fd fails).stack = unwind .os s.stack := by
  have hused : ¬ (s.table.entryAt fd).empty = true := by
    intro hempty
    obtain ⟨-, hmask, -⟩ := (updateSelectorRegistration_snd s fd fails).1 hraises
    simp [State.selectorMaskForFd, Entry.eq_of_empty hempty, Mask.nonzero] at hmask
  unfold State.removeTail
  rw [dif_neg hused]
  exact update_stack hraises

theorem stack_of_updateRaises {a : Action} (hraises : updateRaises s a = true)
    (hs : Selector.step s a = some s') :
    s'.stack = unwind .os s.stack.tail := by
  cases a with
  | go t fails =>
    dsimp only [updateRaises] at hraises
    simp only [Selector.step, State.go] at hs
    split at hraises
    · rename_i h st hstack
      rw [hstack] at hs ⊢
      cases hs
      apply update_stack (s := { s with stack := st })
      exact (updateSelectorRegistration_snd _ _ _).2 ((updateSelectorRegistration_snd s _ _).1 hraises)
    · rename_i fd st hstack
      rw [hstack] at hs ⊢
      cases hs
      apply removeTail_stack (s := { s with stack := st })
      exact (updateSelectorRegistration_snd _ _ _).2 ((updateSelectorRegistration_snd s _ _).1 hraises)
    · cases hraises
  | submit | ready | stop | back | throw | loose | closeSock | close => cases hraises

/-- A submission is taken as a whole, or leaves the table as it was. -/
theorem Kept.step {w w' : Watched} {a : Action} (h : Kept w) (haccepts : SelectorAccepts w a)
    (hs : step w a = some w') : Kept w' := by
  unfold SubmitAtomic.step at hs
  rw [Option.map_eq_some_iff] at hs
  obtain ⟨s', hs', rfl⟩ := hs
  have hother : (updateRaises w.state a = true →
      ∀ s ∈ w.calls, s.stack.length < (unwind .os w.state.stack.tail).length) →
      ∀ r ∈ (if updateRaises w.state a then w.raised ++ (w.calls.filter fun s => s'.stack.length ≤ s.stack.length).map
        fun s => (s, s') else w.raised), Atomic r.1 r.2 := by
    intro hinside r hr
    by_cases hraises : updateRaises w.state a = true
    · rw [if_pos hraises] at hr
      rcases mem_append.1 hr with hold | hnew
      · exact h r hold
      · -- the error does not come out of a submit
        obtain ⟨s, hover, -⟩ := mem_map.1 hnew
        obtain ⟨hcall, hlength⟩ := mem_filter.1 hover
        have hlonger := hinside hraises s hcall
        rw [← stack_of_updateRaises hraises hs'] at hlonger
        exact absurd hlonger (Nat.not_lt.2 (of_decide_eq_true hlength))
    · rw [if_neg hraises] at hr
      exact h r hr
  cases a with
  | submit op t fails =>
    dsimp only
    split
    · rename_i hraises
      intro r hr
      rcases mem_append.1 hr with hold | hnew
      · exact h r hold
      · rw [mem_singleton.1 hnew]
        simp only [Selector.step] at hs'
        split at hs' <;> cases hs'
        rename_i hcallable
        dsimp only
        rw [submit_refused hcallable haccepts hraises]
        exact atomic_issue _ _ _
    · exact h
  | ready | stop | go | back | throw | loose | closeSock | close => exact hother haccepts

theorem submits_atomic (s : State) (run : List Action)
    (haccepts : Along step SelectorAccepts { state := s } run) : Always step Kept { state := s } run :=
  always_of_along (I := Kept) (fun _ => id) (fun _ _ _ h hok hs => h.step hok hs) run _ nofun haccepts

/-- A socket on descriptor 5. -/
def fifth : Sock := ⟨0, 5⟩

/-- A second `recv` on the descriptor is refused; the selector has accepted the first. -/
theorem submits_atomic_conflict :
    Played step (Always step Kept) { state := init }
      [.submit (.recv fifth) ⟨[], .blocked⟩ false, .submit (.recv fifth) ⟨[], .blocked⟩ true] := by
  refine ⟨submits_atomic _ _ ⟨nofun, fun _ => rfl, trivial⟩, by decide⟩

/-! ## Where the selector refuses -/

/-- The slot of an operation that the selector has refused stays reserved, and the direction is
taken. -/
theorem not_atomic_of_reserve (hopen : s.refuses h = false) (hmask : h.op.mask.nonzero = true)
    (htable : s'.table = (s.reserve h).table) : s'.slotTaken h = true ∧ ¬ Atomic s s' := by
  have hentry : s'.table.entryAt h.fd = (s.table.entryAt h.fd).reserve h := by
    rw [htable, State.reserve, Table.reserve, Table.entryAt_put, Function.update_self]
  have hfree : s.slotTaken h = false := by
    simp only [State.refuses, Bool.or_eq_false_iff] at hopen
    exact hopen.2
  have htaken : s'.slotTaken h = true := by
    simp only [Mask.nonzero, Bool.or_eq_true] at hmask
    simp only [State.slotTaken, hentry, Entry.reserve, Bool.or_eq_true, Bool.and_eq_true]
    rcases hmask with hread | hwrite
    · exact Or.inl ⟨hread, by rw [if_pos hread]; rfl⟩
    · exact Or.inr ⟨hwrite, by rw [if_pos hwrite]; rfl⟩
  refine ⟨htaken, ?_⟩
  intro hatomic
  have hsame : s'.slotTaken h = s.slotTaken h := by
    simp only [State.slotTaken, hatomic.entries]
  rw [hsame, hfree] at htaken
  cases htaken

/-- The call has raised with its slot reserved. -/
def LeavesSlot (s s' : State) (h : Handle) : Prop :=
  s'.accepted h = false ∧ s'.slotTaken h = true ∧ ¬ Atomic s s'

theorem leavesSlot_register (s₁ : State) {s₂ : State} (hask : asks s h t = true)
    (hmask : h.op.mask.nonzero = true)
    (htable : s₁.table = s.table) (hkeys : s₁.keys = s.keys) (hclosed : s₁.closed = s.closed)
    (heq : s₂ =
      match (s₁.reserve h).updateSelectorRegistration h.fd true with
      | (s', true) => (s'.issue h false).raise .os
      | (s', false) => s'.issue h true) : LeavesSlot s s₂ h := by
  simp only [asks, Bool.and_eq_true, Bool.not_eq_true', decide_eq_true_eq] at hask
  obtain ⟨⟨hopen, -⟩, hchanges⟩ := hask
  have hreserve : (s₁.reserve h).table = (s.reserve h).table := by simp only [State.reserve, htable]
  have hsame : (s₁.reserve h).selectorMaskForFd h.fd = (s.reserve h).selectorMaskForFd h.fd := by
    simp only [State.selectorMaskForFd, hreserve]
  have hwaits : ((s.reserve h).selectorMaskForFd h.fd).nonzero = true := by
    simp only [Mask.nonzero, Bool.or_eq_true] at hmask
    simp only [State.selectorMaskForFd, State.reserve, Table.reserve,
      Table.entryAt_put, Function.update_self,
      Entry.reserve, Mask.nonzero, Bool.or_eq_true]
    rcases hmask with hread | hwrite
    · exact Or.inl (by rw [if_pos hread]; rfl)
    · exact Or.inr (by rw [if_pos hwrite]; rfl)
  have hnotclosed : s.closed = false := by
    simp only [State.refuses, Bool.or_eq_false_iff] at hopen
    exact hopen.1.1.1
  have hraises : ((s₁.reserve h).updateSelectorRegistration h.fd true).2 = true := by
    apply (updateSelectorRegistration_snd _ _ _).2
    refine ⟨hclosed.trans hnotclosed, hsame ▸ hwaits, ?_, rfl⟩
    rw [hsame]
    exact fun hkey => hchanges (hkeys ▸ hkey)
  obtain ⟨keys, hstate⟩ := State.updateSelectorRegistration_eq (s₁.reserve h) h.fd true
  rw [← Prod.eta ((s₁.reserve h).updateSelectorRegistration h.fd true), hraises, hstate] at heq
  rw [heq]
  exact ⟨accepted_issue _ h false, not_atomic_of_reserve hopen hmask hreserve⟩

theorem submitOneshot_leavesSlot (hask : asks s h t = true) (hmask : h.op.mask.nonzero = true)
    (hblocked : (h.op.attempt (s.offset h) t).2.2 = .blocked) :
      LeavesSlot s (s.submitOneshot h t true) h := by
  apply leavesSlot_register (s.attempt h t).1 hask hmask rfl rfl rfl
  have hopen : ¬ s.refuses h = true := by
    intro hrefuses
    simp [asks, hrefuses] at hask
  have hpair : s.attempt h t = ((s.attempt h t).1, .blocked) := Prod.ext rfl hblocked
  unfold State.submitOneshot State.prepareOperation
  rw [if_neg hopen, hpair]
  dsimp only
  rcases ((s.attempt h t).1.reserve h).updateSelectorRegistration h.fd true with ⟨s', _ | _⟩
  · rfl
  · rfl

theorem asks_iff : asks s h t = true ↔ s.refuses h = false ∧ parks s h t = true ∧
    s.keys h.fd ≠ some ((s.reserve h).selectorMaskForFd h.fd) := by
  simp only [asks, Bool.and_eq_true, Bool.not_eq_true', decide_eq_true_eq, and_assoc]

theorem refuses_eq_false : s.refuses h = false ↔
    s.closed = false ∧ s.sockClosed h = false ∧ h.op.emptyMask = false ∧ s.slotTaken h = false := by
  simp only [State.refuses, Bool.or_eq_false_iff, and_assoc]

theorem submitSend_leavesSlot (hask : asks s h t = true) (hmask : h.op.mask.nonzero = true)
    (hparks : s.writeBusy h.fd = false ∧ (h.op.attempt (s.offset h) t).2.2 = .blocked) :
    LeavesSlot s (s.submitSend h t true) h := by
  have hclosed : ¬ s.closed = true := by
    rw [(refuses_eq_false.1 (asks_iff.1 hask).1).1]
    nofun
  have hidle : ¬ (!s.sockClosed h && s.writeBusy h.fd) = true := by simp [hparks.1]
  unfold State.submitSend
  rw [if_neg hclosed, if_neg hidle]
  exact submitOneshot_leavesSlot hask hmask hparks.2

theorem submitStream_leavesSlot (hask : asks s h t = true) (hmask : h.op.mask.nonzero = true)
    (hstream : h.op.stream = true) : LeavesSlot s (s.submitStream h t true) h := by
  obtain ⟨hopen, hparks, -⟩ := asks_iff.1 hask
  apply leavesSlot_register s hask hmask rfl rfl rfl
  have hlast : (if s.refuses h then s.issue h false
      else
        match (s.reserve h).updateSelectorRegistration h.fd true with
        | (s', true) => (s'.issue h false).raise .os
        | (s', false) => s'.issue h true) =
      match (s.reserve h).updateSelectorRegistration h.fd true with
      | (s', true) => (s'.issue h false).raise .os
      | (s', false) => s'.issue h true := by
    rw [hopen]
    rfl
  rw [← hlast]
  unfold State.submitStream
  cases hop : h.op with
  | single k pooled b =>
    cases pooled with
    | false => cases t.outcome <;> rfl
    | true =>
      cases houtcome : t.outcome with
      | failed => simp [parks, hop, houtcome] at hparks
      | blocked => rfl
      | finished => rfl
  | pollMany fd mask =>
    have hblocked : t.outcome = .blocked := by simpa [parks, hop] using hparks
    rewrite [hblocked]
    rfl
  | send | sendAll | shutdown | closeSocket | oneshot | poll =>
    rewrite [hop] at hstream
    cases hstream

/-- Wherever a submit asks the selector and the selector refuses, the call raises and its slot stays
reserved: the condition on the selector's answers cannot be dropped. -/
theorem submit_leavesSlot (s : State) (op : Op) (t : Try) (hask : asks s ⟨s.count, op⟩ t = true) :
    LeavesSlot s (s.submit op t true) ⟨s.count, op⟩ := by
  obtain ⟨hopen, hparks, -⟩ := asks_iff.1 hask
  have hnonempty : op.emptyMask = false := (refuses_eq_false.1 hopen).2.2.1
  cases op with
  | send k data =>
    cases data with
    | nil => cases hparks
    | cons b data => exact submitSend_leavesSlot hask rfl (by simpa [parks] using hparks)
  | sendAll k data => exact submitSend_leavesSlot hask rfl (by simpa [parks] using hparks)
  | shutdown k how callback => cases hparks
  | closeSocket k callback => cases hparks
  | oneshot k event =>
    apply submitOneshot_leavesSlot hask
    · cases event <;> rfl
    · simpa [parks, Op.attempt] using hparks
  | poll fd mask =>
    apply submitOneshot_leavesSlot hask
    · simpa [Op.emptyMask, Op.mask] using hnonempty
    · simpa [parks, Op.attempt] using hparks
  | single k pooled b => exact submitStream_leavesSlot hask rfl rfl
  | pollMany fd mask =>
    exact submitStream_leavesSlot hask (by simpa [Op.emptyMask, Op.mask] using hnonempty) rfl

/-- The selector refuses to register the descriptor of a `recv`; the descriptor takes no other
`recv` after it. -/
theorem refused_registration_keeps_slot :
    ¬ Always step Kept { state := init } [.submit (.recv fifth) ⟨[], .blocked⟩ true] ∧
      submitRaises (Selector.init.submit (.recv fifth) ⟨[], .blocked⟩ true)
        (.recv fifth) ⟨[], .blocked⟩ false = true := by
  constructor
  · intro hkept
    have hraised :=
      hkept.2.head (init, init.submit (.recv fifth) ⟨[], .blocked⟩ true) (mem_singleton_self _)
    exact (submit_leavesSlot init (.recv fifth) ⟨[], .blocked⟩ (by decide)).2.2 hraised
  · decide

end Pytealet.Selector.SubmitAtomic
