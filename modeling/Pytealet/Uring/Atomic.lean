import Pytealet.Uring.Orderly

/-!
# Atomic — a failed `prepare` leaves no trace

What a failed call may leave behind is that SQEs which were in the queue before it have gone to the
kernel, and the abandon mark that a cancel puts on its `send_all`.  A batch stops at the first item
that fails; the items before it are accepted, in order.
-/

namespace Pytealet.Uring

open Lib.Transition

/-- FIFO, active `send_all` and abortive mark of a descriptor; one without a slot has none of
them. -/
def slotState (slot : Option Slot) : List Nat × Option Nat × Bool :=
  let slot := slot.getD {}
  (slot.fifo, slot.active, slot.abortive)

/-- What a failed `prepare` of `c` leaves. -/
structure LeavesNoTrace (r : Ring) (c : Nat) (r' : Ring) : Prop where
  /-- SQEs have only left the queue, at its head, for the kernel. -/
  queue : ∃ n, r'.sq = r.sq.drop n ∧ r'.kernel = r.kernel ++ r.sq.take n
  accepted : r'.accepted = r.accepted
  bits : ∀ d, r'.bits d = r.bits d ∨ r.Abandons c d ∧ r'.bits d = { r.bits d with abandon := true }
  slots : ∀ fd, slotState (r'.slots fd) = slotState (r.slots fd)
  pending : r'.pendingCount = r.pendingCount

namespace LeavesNoTrace

variable {r r' : Ring} {c : Nat}

theorem refl (r : Ring) (c : Nat) : LeavesNoTrace r c r :=
  ⟨⟨0, by simp⟩, rfl, fun _ => .inl rfl, fun _ => rfl, rfl⟩

theorem slotState_of_idle {slot : Slot} (hmark : slot.abortive = false) (hactive : slot.active = none)
    (hfifo : slot.fifo = []) : slotState (some slot) = slotState none := by
  simp [slotState, hmark, hactive, hfifo]

theorem of_undone (h : r.Undone c r') : LeavesNoTrace r c r' := by
  rcases h with ⟨n, rfl | ⟨-, hslot, rfl⟩ | ⟨slot, hslot, hmark, hactive, hfifo, rfl⟩⟩
  · exact ⟨⟨n, rfl, rfl⟩, rfl, fun _ => .inl rfl, fun _ => rfl, rfl⟩
  · refine ⟨⟨n, rfl, rfl⟩, rfl, fun _ => .inl rfl, ?_, rfl⟩
    intro fd
    by_cases hfd : fd = (r.handle c).fd
    · subst hfd
      simp [hslot]
    · simp [hfd]
  · refine ⟨⟨n, rfl, rfl⟩, rfl, fun _ => .inl rfl, ?_, rfl⟩
    intro fd
    by_cases hfd : fd = (r.handle c).fd
    · subst hfd
      simpa [hslot] using (slotState_of_idle hmark hactive hfifo).symm
    · simp [hfd]

theorem of_abandonTarget (h : LeavesNoTrace (r.abandonTarget c) c r') : LeavesNoTrace r c r' := by
  have hother : ∀ {α : Type} (p : Ring → α), (∀ r c f, p (Ring.setBits r c f) = p r) →
      p (r.abandonTarget c) = p r := fun p => Ring.abandonTarget_other r c p
  rcases h with ⟨⟨n, hsq, hkernel⟩, haccepted, hbits, hslots, hpending⟩
  refine ⟨⟨n, ?_, ?_⟩, ?_, ?_, ?_, ?_⟩
  · rw [hsq, hother Ring.sq fun _ _ _ => rfl]
  · rw [hkernel, hother Ring.sq fun _ _ _ => rfl, hother Ring.kernel fun _ _ _ => rfl]
  · rw [haccepted, hother Ring.accepted fun _ _ _ => rfl]
  · intro d
    rcases Ring.abandonTarget_eq r c with heq | ⟨t, ht, heq⟩
    · rw [heq] at hbits
      exact hbits d
    · rw [heq] at hbits
      by_cases hd : d = t
      · subst hd
        rcases hbits d with hd | ⟨-, hd⟩
        · exact .inr ⟨ht, by simpa [Ring.abandonMark] using hd⟩
        · exact .inr ⟨ht, by simpa [Ring.abandonMark] using hd⟩
      · rcases hbits d with hd' | ⟨habandons, hd'⟩
        · exact .inl (by simpa [Ring.abandonMark, hd] using hd')
        · exact .inr ⟨habandons, by simpa [Ring.abandonMark, hd] using hd'⟩
  · intro fd
    rw [hslots, (Ring.abandonTarget_frame r c).2.1]
  · rw [hpending, hother Ring.pendingCount fun _ _ _ => rfl]

theorem of_prepared {e : Err} (h : r.Prepared c (r', some e)) : LeavesNoTrace r c r' := by
  cases h with
  | refused e => exact .refl r c
  | failed r' e _ hundone => exact (of_undone hundone).of_abandonTarget

end LeavesNoTrace

/-! ## Batches -/

/-- A batch that failed: `before` was accepted in order, and the item after it left no trace. -/
structure BatchFails (r : Ring) (items : List (Option Nat × Fate)) (r' : Ring) (e : Err) : Prop where
  split : ∃ before item after r₁, items = before ++ item :: after ∧
    r.prepareConstructed before = (r₁, none) ∧ r₁.prepareConstructed [item] = (r', some e) ∧
    before.all (fun i => i.1.isSome) = true ∧ r₁.accepted = r.accepted ++ before.filterMap Prod.fst ∧
    (item.1 = none ∧ r' = r₁ ∨ ∃ c, item.1 = some c ∧ LeavesNoTrace r₁ c r' ∧
      ((r₁.bits c).isAccepted = false → (r'.bits c).isAccepted = false ∧ r'.flight c = 0))

namespace Ring

variable {r r' : Ring}

theorem Prepared.accepted_eq {c : Nat} (h : r.Prepared c (r', none)) : r'.accepted = r.accepted ++ [c] := by
  have hother : (r.abandonTarget c).accepted = r.accepted :=
    abandonTarget_other r c Ring.accepted fun _ _ _ => rfl
  cases h with
  | parked fd slot _ _ _ _ =>
    rw [park_eq]
    dsimp only
    rw [hother]
  | filled r₁ _ _ _ hres _ =>
    have hres' : r₁.accepted = r.accepted := by
      rcases hres with ⟨n, rfl | ⟨-, -, rfl⟩⟩
      · exact hother
      · exact hother
    have hissue : ((r₁.copyPoison c).issue c false).accepted = r.accepted ++ [c] := by
      rw [issue_accepted, copyPoison_other r₁ c Ring.accepted fun _ _ _ => rfl, hres']
      rfl
    rcases fill_cases (r₁.copyPoison c) c false with heq | ⟨fd, heq⟩
    · rw [heq, hissue]
    · rw [heq]
      rcases fdTableTryFree_cases ((r₁.copyPoison c).issue c false) fd with heq | ⟨_, _, _, _, _, heq⟩
      · rw [heq, hissue]
      · rw [heq]
        exact hissue

theorem Orderly.prepareOne (h : r.Orderly) {c : Nat} {fate : Fate} {res : Ring × Option Err}
    (heq : r.prepareOne c fate = res) : r.Prepared c res ∧ res.1.Orderly := by
  have hprep : r.Prepared c res := heq ▸ prepareOne_prepared (h.unpoisoned c) fate
  exact ⟨hprep, h.moves hprep.changes.moves⟩

theorem fails_of_prepared {c : Nat} {e : Err} (hprep : r.Prepared c (r', some e))
    (horderly : r'.Orderly) : LeavesNoTrace r c r' ∧
      ((r.bits c).isAccepted = false → (r'.bits c).isAccepted = false ∧ r'.flight c = 0) := by
  have htrace := LeavesNoTrace.of_prepared hprep
  refine ⟨htrace, ?_⟩
  intro hnew
  have hnew' : (r'.bits c).isAccepted = false := by
    rcases htrace.bits c with hb | ⟨-, hb⟩
    · rw [hb]
      exact hnew
    · rw [hb]
      exact hnew
  exact ⟨hnew', ((horderly.placed c).fresh hnew').2.2.1⟩

theorem prepareConstructed_fails (h : r.Orderly) (items : List (Option Nat × Fate)) {e : Err}
    (hfail : r.prepareConstructed items = (r', some e)) : BatchFails r items r' e := by
  induction items generalizing r with
  | nil => simp [prepareConstructed] at hfail
  | cons item items ih =>
    -- the first item fails, or it is accepted and the rest of the batch fails
    rcases item with ⟨_ | c, fate⟩
    · have heq : (r, some Err.notCompletion) = (r', some e) := by simpa [prepareConstructed] using hfail
      cases heq
      exact ⟨[], (none, fate), items, _, rfl, rfl, rfl, rfl, by simp, .inl ⟨rfl, rfl⟩⟩
    · unfold prepareConstructed at hfail
      split at hfail
      · rename_i r₁ heq
        rcases h.prepareOne heq with ⟨hprep, horderly⟩
        rcases (ih horderly hfail).split with
          ⟨before, item, after, r₂, rfl, hbefore, hitem, hsome, haccepted, hend⟩
        refine ⟨(some c, fate) :: before, item, after, r₂, rfl, ?_, hitem, by simpa using hsome, ?_, hend⟩
        · simp only [prepareConstructed, heq, hbefore]
        · rw [haccepted, hprep.accepted_eq]
          simp
      · rename_i r₁ e₁ heq
        cases hfail
        rcases h.prepareOne heq with ⟨hprep, horderly⟩
        refine ⟨[], (some c, fate), items, r, rfl, rfl, ?_, rfl, by simp, .inr ⟨c, rfl, ?_⟩⟩
        · simp only [prepareConstructed, heq]
        · exact fails_of_prepared hprep horderly

end Ring

/-- A `prepare` that raises leaves no trace of the item that failed, and has accepted exactly the
items before it, in order. -/
theorem prepare_failed_atomic (entries : Nat) (makeRoom : Bool) (handle : Nat → Handle) {r : Ring}
    (hr : Reachable step (Ring.init entries makeRoom handle) r) (items : List (Option Nat × Fate)) {e : Err}
    (hfail : (r.prepare items).2 = some e) :
    r.initialized = false ∧ e = .closed ∧ (r.prepare items).1 = r ∨
      BatchFails r items (r.prepare items).1 e := by
  have horderly : r.Orderly := hr.invariant (.init entries makeRoom handle) fun _ _ _ h hs => h.step hs
  unfold Ring.prepare at hfail ⊢
  split at hfail
  · rename_i hclosed
    cases hfail
    rw [if_pos hclosed]
    exact .inl ⟨by simpa using hclosed, rfl, rfl⟩
  · rename_i hopen
    rw [if_neg hopen]
    exact .inr (Ring.prepareConstructed_fails horderly items (Prod.ext rfl hfail))

/-- Two sends on a ring with one SQE that may not make room. -/
theorem prepare_failed_atomic_full :
    let r := Ring.init 1 false fun _ => { kind := .send, fd := 3 }
    let items : List (Option Nat × Fate) := [(some 0, {}), (some 1, {})]
    (r.prepare items).2 = some .queueFull ∧
      (r.initialized = false ∧ Err.queueFull = .closed ∧ (r.prepare items).1 = r ∨
        BatchFails r items (r.prepare items).1 .queueFull) :=
  ⟨by decide, prepare_failed_atomic 1 false (fun _ => { kind := .send, fd := 3 }) .refl
    [(some 0, {}), (some 1, {})] (by decide)⟩

end Pytealet.Uring
