import Pytealet.Uring.Parked

/-!
# Changes — the ring's functions as sequences of changes

`Prepared` says what `prepare` of one operation does; the drain of a FIFO, the end of a `send_all`
and the direct posts are sequences of `Change`.
-/

namespace Pytealet.Uring

namespace Ring

variable {r : Ring}

/-! ## Making room only lets the kernel take SQEs -/

@[simp]
theorem enterKernel_zero (r : Ring) : r.enterKernel 0 = r := by
  simp [enterKernel]

theorem enterKernel_add (r : Ring) (n m : Nat) :
    (r.enterKernel n).enterKernel m = r.enterKernel (n + m) := by
  simp [enterKernel, List.take_add, List.append_assoc]

theorem sqPrepareRoom_fst (r : Ring) (need : Nat) (always : Bool) (enter : Enter) :
    ∃ n, (r.sqPrepareRoom need always enter).1 = r.enterKernel n := by
  unfold sqPrepareRoom sqEnsureSpace
  split
  · exact ⟨0, by simp⟩
  split
  · exact ⟨0, by simp⟩
  split
  · exact ⟨0, by simp⟩
  refine ⟨enter.taken, ?_⟩
  dsimp only
  split
  · rfl
  · split <;> rfl

theorem reserveSqes_fst (r : Ring) (c : Nat) (flush : Bool) (enter : Enter) :
    ∃ n, (r.reserveSqes c flush enter).1 = r.enterKernel n := by
  have hfirst : ∃ n, (if (r.bits c).timeout then r.sqPrepareRoom 2 flush enter else (r, .room)).1 =
      r.enterKernel n := by
    split
    · exact sqPrepareRoom_fst r 2 flush enter
    · exact ⟨0, by simp⟩
  rcases hfirst with ⟨n, hn⟩
  unfold reserveSqes
  split
  · rename_i r₁ heq
    have hr₁ : r₁ = r.enterKernel n := by simpa [heq] using hn
    rcases sqPrepareRoom_fst r₁ 1 flush enter with ⟨m, hm⟩
    exact ⟨n + m, by rw [hm, hr₁, enterKernel_add]⟩
  · rename_i r₁ heq
    rw [heq] at hn
    exact ⟨n, hn⟩
  · rename_i r₁ e heq
    rw [heq] at hn
    exact ⟨n, hn⟩

/-! ## The fill -/

theorem abandonTarget_push_dropLast (r : Ring) (c : Nat) (sqe : Sqe) :
    { (r.push sqe).abandonTarget c with sq := ((r.push sqe).abandonTarget c).sq.dropLast } =
      r.abandonTarget c := by
  by_cases h : ∃ t, r.Abandons c t
  · rcases h with ⟨t, ht⟩
    rw [abandonTarget_pos (r := r.push sqe) ht, abandonTarget_pos ht]
    simp [abandonMark, setBits, push]
  · rw [abandonTarget_neg (r := r.push sqe) h, abandonTarget_neg h]
    simp [push]

theorem fillOne_cases (r : Ring) (c : Nat) (ph fp flush : Bool) (fate : Fate) :
    ∃ n, r.fillOne c ph fp flush fate = ((r.enterKernel n).fill c fp, none) ∨
      (∃ e, r.fillOne c ph fp flush fate = (r.enterKernel n).failFill c ph fp e) ∨
      ∃ e, r.fillOne c ph fp flush fate = ((r.enterKernel n).abandonTarget c).failFill c ph fp e := by
  rcases reserveSqes_fst r c flush fate.enter with ⟨n, hn⟩
  refine ⟨n, ?_⟩
  unfold fillOne
  split
  · rename_i r₁ heq
    rw [heq] at hn
    subst hn
    exact .inr (.inl ⟨_, rfl⟩)
  · rename_i r₁ e heq
    rw [heq] at hn
    subst hn
    exact .inr (.inl ⟨_, rfl⟩)
  · rename_i r₁ heq
    rw [heq] at hn
    subst hn
    dsimp only
    split
    · rename_i htimeout
      cases hmem : fate.timer with
      | true =>
        simp only [fillLinkTimeout, if_true]
        refine .inl ?_
        simp only [fill, pushed, htimeout, if_true]
        rfl
      | false =>
        simp only [fillLinkTimeout, Bool.false_eq_true, if_false]
        refine .inr (.inr ⟨.noMemory, ?_⟩)
        rw [abandonTarget_push_dropLast]
    · rename_i htimeout
      refine .inl ?_
      simp only [fill, pushed, htimeout, if_false, Bool.false_eq_true]
      rfl

/-! ## Parking -/

variable {c : Nat} {slot : Slot} {fd : Int}

theorem shouldEnqueueConflict_eq_true (h : r.shouldEnqueueConflict c = true) :
    ∃ fd slot, r.conflictFd c = some fd ∧ r.slots fd = some slot ∧
      (slot.active ≠ none ∨ slot.fifo ≠ []) := by
  unfold shouldEnqueueConflict at h
  split at h
  · cases h
  · rename_i fd hfd
    split at h
    · cases h
    · rename_i slot hslot
      split at h
      · cases h
      · rename_i hbusy
        refine ⟨fd, slot, hfd, hslot, ?_⟩
        by_contra hidle
        simp only [not_or, not_not] at hidle
        exact hbusy hidle

theorem idle_of_shouldEnqueueConflict
    (h : r.shouldEnqueueConflict c = false) (hfd : r.conflictFd c = some fd)
    (hslot : r.slots fd = some slot) (hkind : completionKindConflicts (r.kind c) = true) :
    slot.active = none ∧ slot.fifo = [] := by
  have hcancel : r.isCancelOfActive c slot = false := by
    cases hk : r.kind c <;> simp_all [completionKindConflicts, isCancelOfActive]
  by_contra hbusy
  simp [shouldEnqueueConflict, hfd, hslot, hbusy, hcancel, hkind] at h

theorem idle_of_turn (h : slot.active = none ∨ r.isCancelOfActive c slot = true)
    (hkind : completionKindConflicts (r.kind c) = true) : slot.active = none := by
  refine h.resolve_right ?_
  intro hcancel
  simp only [isCancelOfActive, Bool.and_eq_true, decide_eq_true_eq] at hcancel
  simp [hcancel.1.1, completionKindConflicts] at hkind

theorem enqueueConflict_cases (hfd : r.conflictFd c = some fd)
    (hslot : r.slots fd = some slot) (hnew : (r.bits c).isAccepted = false) (fate : Fate) :
    r.enqueueConflict c fate = (r.park c fd slot, none) ∨
      r.enqueueConflict c fate = (r, some .noMemory) := by
  have hget : r.fdTableGet fd fate.slot = some r := by simp [fdTableGet, hslot]
  have hslots : (((r.takeParkRef c).setBits c fun b => { b with conflictQueued := true }).slots fd) =
      some slot := by
    unfold takeParkRef
    split <;> simpa [setBits, takeInFlightRef, pendingInc] using hslot
  have hqueued : (r.bits c).conflictQueued = false := by
    simp only [Bits.isAccepted, Bool.or_eq_false_iff] at hnew
    exact hnew.2
  unfold enqueueConflict
  rw [hfd]
  simp only [hget]
  cases hmem : fate.fifo with
  | true =>
    refine .inl ?_
    simp only [if_true, hslots, Option.getD_some, park]
  | false =>
    refine .inr ?_
    simp only [Bool.false_eq_true, if_false]
    -- the reference taken for the park goes back
    cases hcounts : r.completionCountsPending c with
    | true =>
      have hback : ((r.takeInFlightRef c).setBits c fun b => { b with conflictQueued := true }).setBits c
          (fun b => { b with conflictQueued := false }) = r.takeInFlightRef c := by
        rw [setBits_setBits]
        apply setBits_eq_self
        simp [takeInFlightRef, ← hqueued]
      have hcounts' : (r.takeInFlightRef c).completionCountsPending c = true := by
        rw [← hcounts]
        apply completionCountsPending_congr
        · rfl
        · simp [takeInFlightRef]
      simp only [takeParkRef, hcounts, if_true, hback, dropParkedRingRef, hcounts']
      simp [takeInFlightRef, setBits, pendingInc, pendingDec]
    | false =>
      have hback : (r.setBits c fun b => { b with conflictQueued := true }).setBits c
          (fun b => { b with conflictQueued := false }) = r := by
        rw [setBits_setBits]
        apply setBits_eq_self
        simp [← hqueued]
      simp only [takeParkRef, hcounts, Bool.false_eq_true, if_false, hback, dropParkedRingRef]

/-! ## The way to an SQE -/

theorem copyPoison_enterKernel (r : Ring) (c n : Nat) :
    (r.copyPoison c).enterKernel n = (r.enterKernel n).copyPoison c := by
  have hfd : (r.enterKernel n).conflictFd c = r.conflictFd c := rfl
  have hslots : (r.enterKernel n).slots = r.slots := rfl
  have hkind : (r.enterKernel n).kind = r.kind := rfl
  unfold copyPoison stageACopyAbortive
  rw [hfd, hslots, hkind]
  split
  · rfl
  · split
    · rfl
    · split <;> rfl

theorem copyPoison_of_fresh (h : r.slots fd = none) (hfd : r.conflictFd c = some fd) :
    r.copyPoison c = r ∧ (r.write fd (some {}) .opened).copyPoison c = r.write fd (some {}) .opened := by
  refine ⟨?_, ?_⟩
  · simp [copyPoison, stageACopyAbortive, hfd, h]
  · simp [copyPoison, stageACopyAbortive, hfd]

theorem abandonTarget_idem (r : Ring) (c : Nat) :
    (r.abandonTarget c).abandonTarget c = r.abandonTarget c := by
  by_cases h : ∃ t, r.Abandons c t
  · rcases h with ⟨t, ht⟩
    rw [abandonTarget_pos ht, abandonTarget_pos (r := r.abandonMark t) ht]
    exact setBits_setBits r t _ _
  · rw [abandonTarget_neg h, abandonTarget_neg h]

theorem abandonTarget_enterKernel (r : Ring) (c n : Nat) :
    (r.enterKernel n).abandonTarget c = (r.abandonTarget c).enterKernel n := by
  by_cases h : ∃ t, r.Abandons c t
  · rcases h with ⟨t, ht⟩
    rw [abandonTarget_pos ht, abandonTarget_pos (r := r.enterKernel n) ht]
    rfl
  · rw [abandonTarget_neg h, abandonTarget_neg (r := r.enterKernel n) h]

theorem conflictFd_sendAll (hc : r.kind c = .sendAll) : r.conflictFd c = some (r.handle c).fd := by
  unfold kind at hc
  simp [conflictFd, conflictFdFrom, hc]

/-- The ring in which the SQE of an operation that does not park is filled: SQEs may have gone to
the kernel, and a `send_all` may have made its slot. -/
def Reserved (r : Ring) (c : Nat) (r₁ : Ring) : Prop :=
  ∃ n, r₁ = r.enterKernel n ∨
    r.kind c = .sendAll ∧ r.slots (r.handle c).fd = none ∧
      r₁ = (r.write (r.handle c).fd (some {}) .opened).enterKernel n

/-- What a failed call leaves: SQEs may have gone to the kernel, and an idle slot of a `send_all` is
gone. -/
def Undone (r : Ring) (c : Nat) (r' : Ring) : Prop :=
  ∃ n, r' = r.enterKernel n ∨
    (r.kind c = .sendAll ∧ r.slots (r.handle c).fd = none ∧
      r' = ((r.write (r.handle c).fd (some {}) .opened).enterKernel n).write (r.handle c).fd none .freed) ∨
    ∃ slot, r.slots (r.handle c).fd = some slot ∧ slot.abortive = false ∧ slot.active = none ∧
      slot.fifo = [] ∧ r' = (r.enterKernel n).write (r.handle c).fd none .freed

theorem fdTableTryFree_cases (r : Ring) (fd : Int) :
    r.fdTableTryFree fd = r ∨
      ∃ slot, r.slots fd = some slot ∧ slot.abortive = false ∧ slot.active = none ∧ slot.fifo = [] ∧
        r.fdTableTryFree fd = r.write fd none .freed := by
  unfold fdTableTryFree
  split
  · exact .inl rfl
  · rename_i slot hslot
    split
    · exact .inl rfl
    · rename_i hidle
      simp only [not_or, Bool.not_eq_true, not_not] at hidle
      exact .inr ⟨slot, hslot, hidle.1, hidle.2.1, hidle.2.2, rfl⟩

theorem undo_stageACopyAbortive (hnew : (r.bits c).isAccepted = false)
    (hpoison : (r.bits c).poison = false) (n : Nat) :
    ((r.stageACopyAbortive c).1.enterKernel n).undoUnacceptedPoison c (r.stageACopyAbortive c).2 false =
      r.enterKernel n := by
  rcases stageACopyAbortive_cases r c with heq | heq
  · simp [heq, undoUnacceptedPoison]
  · rw [heq]
    have hacc : (((r.setBits c fun b => { b with poison := true }).enterKernel n).bits c).isAccepted =
        false := by
      simpa [Bits.isAccepted] using hnew
    have hback : ((r.setBits c fun b => { b with poison := true }).enterKernel n).setBits c
        (fun b => { b with poison := false }) = (r.enterKernel n) := by
      have heq : (r.setBits c fun b => { b with poison := true }).enterKernel n =
          (r.enterKernel n).setBits c fun b => { b with poison := true } := rfl
      rw [heq, setBits_setBits]
      apply setBits_eq_self
      simp [← hpoison]
    simp only [undoUnacceptedPoison, hacc, Bool.not_false, Bool.and_self, if_true, hback]

theorem failFill_direct (hnew : (r.bits c).isAccepted = false)
    (hpoison : (r.bits c).poison = false) (n : Nat) (e : Err) :
    r.Undone c (((r.stageACopyAbortive c).1.enterKernel n).failFill c (r.stageACopyAbortive c).2 false
      e).1 := by
  unfold failFill
  rw [undo_stageACopyAbortive hnew hpoison]
  dsimp only
  split
  · rcases fdTableTryFree_cases (r.enterKernel n) (r.handle c).fd with
      heq | ⟨slot, hslot, hmark, hactive, hfifo, heq⟩
    · exact ⟨n, .inl heq⟩
    · exact ⟨n, .inr (.inr ⟨slot, hslot, hmark, hactive, hfifo, heq⟩)⟩
  · exact ⟨n, .inl rfl⟩

theorem failFill_snd (r : Ring) (c : Nat) (ph fp : Bool) (e : Err) :
    (r.failFill c ph fp e).2 = some e := by
  unfold failFill
  dsimp only
  split <;> rfl

theorem stageACopyAbortive_cancel (hc : r.kind c = .cancel) :
    r.stageACopyAbortive c = (r, false) := by
  unfold stageACopyAbortive
  simp only [hc]
  split
  · rfl
  · split
    · rfl
    · simp

theorem abandonTarget_stageA (habandon : r.abandonTarget c = r) (n : Nat) :
    ((r.stageACopyAbortive c).1.enterKernel n).abandonTarget c =
      (r.stageACopyAbortive c).1.enterKernel n := by
  by_cases h : ∃ t, r.Abandons c t
  · rcases h with ⟨t, ht⟩
    rw [stageACopyAbortive_cancel ht.1, abandonTarget_enterKernel, habandon]
  · apply abandonTarget_neg
    rcases stageACopyAbortive_cases r c with heq | heq
    · rw [heq]
      exact h
    · rw [heq]
      exact h

theorem Reserved.of_stageA (hnew : (r.bits c).isAccepted = false)
    (hpoison : (r.bits c).poison = false) (habandon : r.abandonTarget c = r) (flush : Bool)
    (fate : Fate) :
    (∃ n, (r.stageACopyAbortive c).1.fillOne c (r.stageACopyAbortive c).2 false flush fate =
      (((r.enterKernel n).copyPoison c).fill c false, none)) ∨
    ∃ r' e, r.Undone c r' ∧
      (r.stageACopyAbortive c).1.fillOne c (r.stageACopyAbortive c).2 false flush fate = (r', some e) := by
  have hundone : ∀ n e, ∃ r', r.Undone c r' ∧
      ((r.stageACopyAbortive c).1.enterKernel n).failFill c (r.stageACopyAbortive c).2 false e =
        (r', some e) := by
    intro n e
    exact ⟨_, failFill_direct hnew hpoison n e, Prod.ext rfl (failFill_snd _ _ _ _ _)⟩
  rcases fillOne_cases (r.stageACopyAbortive c).1 c (r.stageACopyAbortive c).2 false flush fate with
    ⟨n, heq | ⟨e, heq⟩ | ⟨e, heq⟩⟩
  · refine .inl ⟨n, ?_⟩
    rw [heq, ← copyPoison_enterKernel]
    rfl
  · rcases hundone n e with ⟨r', hr', heq'⟩
    exact .inr ⟨r', e, hr', heq.trans heq'⟩
  · rw [abandonTarget_stageA habandon] at heq
    rcases hundone n e with ⟨r', hr', heq'⟩
    exact .inr ⟨r', e, hr', heq.trans heq'⟩

theorem fillOne_opened (hkind : r.kind c = .sendAll) (hslot : r.slots (r.handle c).fd = none)
    (flush : Bool) (fate : Fate) :
    (∃ r₁, r.Reserved c r₁ ∧ (r₁.slots (r.handle c).fd).isSome = true ∧
      (r.write (r.handle c).fd (some {}) .opened).fillOne c false false flush fate =
        ((r₁.copyPoison c).fill c false, none)) ∨
    ∃ r' e, r.Undone c r' ∧
      (r.write (r.handle c).fd (some {}) .opened).fillOne c false false flush fate = (r', some e) := by
  have hcancel : ∀ r' : Ring, r'.kind = r.kind → ¬ ∃ t, r'.Abandons c t := by
    rintro r' hr' ⟨t, hc, -⟩
    rw [hr', hkind] at hc
    cases hc
  have hundone : ∀ n e, ∃ r', r.Undone c r' ∧
      ((r.write (r.handle c).fd (some {}) .opened).enterKernel n).failFill c false false e =
        (r', some e) := by
    intro n e
    refine ⟨_, ⟨n, .inr (.inl ⟨hkind, hslot, rfl⟩)⟩, ?_⟩
    simp [failFill, undoUnacceptedPoison, hkind, fdTableTryFree]
  rcases fillOne_cases (r.write (r.handle c).fd (some {}) .opened) c false false flush fate with
    ⟨n, heq | ⟨e, heq⟩ | ⟨e, heq⟩⟩
  · refine .inl ⟨_, ⟨n, .inr ⟨hkind, hslot, rfl⟩⟩, by simp, ?_⟩
    rw [heq, ← copyPoison_enterKernel, (copyPoison_of_fresh hslot (conflictFd_sendAll hkind)).2]
  · rcases hundone n e with ⟨r', hr', heq'⟩
    exact .inr ⟨r', e, hr', heq.trans heq'⟩
  · rw [abandonTarget_neg (r := (r.write (r.handle c).fd (some {}) .opened).enterKernel n)
      (hcancel _ rfl)] at heq
    rcases hundone n e with ⟨r', hr', heq'⟩
    exact .inr ⟨r', e, hr', heq.trans heq'⟩

theorem submitOne_direct (hnew : (r.bits c).isAccepted = false)
    (hpoison : (r.bits c).poison = false) (habandon : r.abandonTarget c = r) (flush : Bool)
    (fate : Fate) :
    (∃ r₁, r.Reserved c r₁ ∧ (r.kind c = .sendAll → (r₁.slots (r.handle c).fd).isSome = true) ∧
      r.submitOne c false flush fate = ((r₁.copyPoison c).fill c false, none)) ∨
    ∃ r' e, r.Undone c r' ∧ r.submitOne c false flush fate = (r', some e) := by
  rcases stageACopyAbortive_frame r c with ⟨hslots, hkind', hhandle⟩
  unfold submitOne fdTableGet
  simp only [hslots, hkind', hhandle]
  split
  · rename_i hkind
    cases hslot : r.slots (r.handle c).fd with
    | some slot =>
      dsimp only
      rcases Reserved.of_stageA hnew hpoison habandon flush fate with ⟨n, heq⟩ | hfail
      · exact .inl ⟨r.enterKernel n, ⟨n, .inl rfl⟩, by simp [hslot], heq⟩
      · exact .inr hfail
    | none =>
      -- a descriptor without a slot has no mark to copy
      have hfresh : r.stageACopyAbortive c = (r, false) := by
        simp [stageACopyAbortive, conflictFd_sendAll hkind, hslot]
      rw [hfresh]
      dsimp only
      split
      · rename_i heq
        split at heq
        · cases heq
        · exact .inr ⟨r, .noMemory, ⟨0, .inl (by simp)⟩, by simp [undoUnacceptedPoison]⟩
      · rename_i r₁ heq
        split at heq
        · cases heq
          rcases fillOne_opened hkind hslot flush fate with ⟨r₁, hres, hsome, heq⟩ | hfail
          · exact .inl ⟨r₁, hres, fun _ => hsome, heq⟩
          · exact .inr hfail
        · cases heq
  · rename_i hkind
    rcases Reserved.of_stageA hnew hpoison habandon flush fate with ⟨n, heq⟩ | hfail
    · exact .inl ⟨r.enterKernel n, ⟨n, .inl rfl⟩, fun h => absurd h hkind, heq⟩
    · exact .inr hfail

theorem shouldEnqueueConflict_reserved {r₁ : Ring} (h : r.shouldEnqueueConflict c = false)
    (hres : r.Reserved c r₁) : r₁.shouldEnqueueConflict c = false := by
  rcases hres with ⟨n, rfl | ⟨hkind, -, rfl⟩⟩
  · exact h
  · have hfd : ((r.write (r.handle c).fd (some {}) .opened).enterKernel n).conflictFd c =
        some (r.handle c).fd := conflictFd_sendAll hkind
    simp [shouldEnqueueConflict, hfd]

/-- What `prepare` of one operation does: it fails and leaves the ring as it was, it parks the
operation, or it fills its SQE. -/
inductive Prepared (r : Ring) (c : Nat) : Ring × Option Err → Prop where
  | refused (e : Err) : Prepared r c (r, some e)
  | failed (r' : Ring) (e : Err) : constructedKindReady (r.handle c) = true →
      (r.abandonTarget c).Undone c r' → Prepared r c (r', some e)
  | parked (fd : Int) (slot : Slot) : (r.bits c).isAccepted = false →
      r.conflictFd c = some fd → r.slots fd = some slot →
      (r.abandonTarget c).shouldEnqueueConflict c = true →
      Prepared r c ((r.abandonTarget c).park c fd slot, none)
  | filled (r₁ : Ring) : (r.bits c).isAccepted = false → constructedKindReady (r.handle c) = true →
      (r.abandonTarget c).shouldEnqueueConflict c = false → (r.abandonTarget c).Reserved c r₁ →
      (r.kind c = .sendAll → (r₁.slots (r.handle c).fd).isSome = true) →
      Prepared r c ((r₁.copyPoison c).fill c false, none)

theorem refusal_eq_none {fp : Bool} (h : r.refusal c fp = none) :
    constructedKindReady (r.handle c) = true ∧ (fp = false → (r.bits c).isAccepted = false) := by
  unfold refusal at h
  split at h
  · cases h
  · rename_i hready
    split at h
    · cases h
    · rename_i hnew
      refine ⟨by simpa using hready, ?_⟩
      intro hfp
      simpa [hfp] using hnew

theorem prepareOne_prepared (hpoison : (r.bits c).isAccepted = false → (r.bits c).poison = false)
    (fate : Fate) : r.Prepared c (r.prepareOne c fate) := by
  unfold prepareOne prepareOneConstructedEx
  split
  · exact .refused _
  · rename_i hrefusal
    rcases refusal_eq_none hrefusal with ⟨hready, hnew⟩
    have hnew : (r.bits c).isAccepted = false := hnew rfl
    rcases abandonTarget_frame r c with ⟨hhandle, hslots, hbits⟩
    rcases hbits c with ⟨b, hb⟩
    have hnew' : ((r.abandonTarget c).bits c).isAccepted = false := by
      rw [hb]
      exact hnew
    have hpoison' : ((r.abandonTarget c).bits c).poison = false := by
      rw [hb]
      exact hpoison hnew
    have hfd' : (r.abandonTarget c).conflictFd = r.conflictFd := by
      unfold conflictFd
      rw [hhandle]
    simp only [Bool.false_eq_true, if_false, Bool.not_false, Bool.true_and]
    split
    · rename_i hpark
      rcases shouldEnqueueConflict_eq_true hpark with ⟨fd, slot, hfd, hslot, -⟩
      rcases enqueueConflict_cases hfd hslot hnew' fate with heq | heq
      · rw [heq]
        exact .parked fd slot hnew (hfd' ▸ hfd) (hslots ▸ hslot) hpark
      · rw [heq]
        exact .failed _ _ hready ⟨0, .inl (by simp)⟩
    · rename_i hpark
      have hpark' : (r.abandonTarget c).shouldEnqueueConflict c = false := by simpa using hpark
      have hkind : (r.abandonTarget c).kind = r.kind := by
        unfold kind
        rw [hhandle]
      rcases submitOne_direct hnew' hpoison' (abandonTarget_idem r c) false fate with
        ⟨r₁, hres, hsome, heq⟩ | ⟨r', e, hundone, heq⟩
      · rw [heq]
        refine .filled r₁ hnew hready hpark' hres ?_
        rw [← hhandle, ← hkind]
        exact hsome
      · rw [heq]
        exact .failed r' e hready hundone

/-! ## Sequences of changes -/

theorem fdTableTryFree_changes (r : Ring) (fd : Int) : Changes r (r.fdTableTryFree fd) := by
  rcases fdTableTryFree_cases r fd with heq | ⟨slot, hslot, hmark, hactive, hfifo, heq⟩
  · rw [heq]
  · rw [heq]
    exact .single (.freed r fd slot hslot hmark hactive hfifo)

theorem abandonTarget_changes (r : Ring) (c : Nat) : Changes r (r.abandonTarget c) := by
  rcases abandonTarget_eq r c with heq | ⟨t, ht, heq⟩
  · rw [heq]
  · rw [heq]
    exact .single (.abandon r t ht.2.2)

theorem fill_cases (r : Ring) (c : Nat) (fp : Bool) :
    r.fill c fp = r.issue c fp ∨ ∃ fd, r.fill c fp = (r.issue c fp).fdTableTryFree fd := by
  unfold fill issue noteIssue writeIssue
  cases hfd : ((r.pushed c).charged c fp).conflictFd c with
  | none => exact .inl rfl
  | some fd =>
    dsimp only
    split
    · exact .inr ⟨fd, rfl⟩
    · exact .inl rfl

theorem issue_fill_changes (r : Ring) (c : Nat) (fp : Bool) : Changes (r.issue c fp) (r.fill c fp) := by
  rcases fill_cases r c fp with heq | ⟨fd, heq⟩
  · rw [heq]
  · rw [heq]
    exact fdTableTryFree_changes _ fd

theorem nonneg_of_ready (hready : constructedKindReady (r.handle c) = true)
    (hkind : r.kind c = .sendAll) : 0 ≤ (r.handle c).fd := by
  unfold kind at hkind
  simpa [constructedKindReady, hkind] using hready

theorem Reserved.changes {r₁ : Ring} (hready : constructedKindReady (r.handle c) = true)
    (h : r.Reserved c r₁) : Changes r r₁ := by
  rcases h with ⟨n, rfl | ⟨hkind, hslot, rfl⟩⟩
  · exact .single (.enter r n)
  · exact .tail (.single (.opened r _ (nonneg_of_ready hready hkind) hslot)) (.enter _ n)

theorem Reserved.bits_eq {r₁ : Ring} (h : r.Reserved c r₁) : r₁.bits = r.bits := by
  rcases h with ⟨n, rfl | ⟨-, -, rfl⟩⟩ <;> rfl

theorem Reserved.handle_eq {r₁ : Ring} (h : r.Reserved c r₁) : r₁.handle = r.handle := by
  rcases h with ⟨n, rfl | ⟨-, -, rfl⟩⟩ <;> rfl

theorem Undone.changes {r' : Ring} (hready : constructedKindReady (r.handle c) = true)
    (h : r.Undone c r') : Changes r r' := by
  rcases h with ⟨n, rfl | ⟨hkind, hslot, rfl⟩ | ⟨slot, hslot, hmark, hactive, hfifo, rfl⟩⟩
  · exact .single (.enter r n)
  · refine .tail (.tail (.single (.opened r _ (nonneg_of_ready hready hkind) hslot)) (.enter _ n)) ?_
    exact .freed _ _ {} (by simp) rfl rfl rfl
  · exact .tail (.single (.enter r n)) (.freed _ _ slot hslot hmark hactive hfifo)

theorem Prepared.changes {res : Ring × Option Err} (h : r.Prepared c res) : Changes r res.1 := by
  cases h with
  | refused e => exact .refl
  | failed r' e hready hundone =>
    refine (abandonTarget_changes r c).trans (hundone.changes ?_)
    rw [(abandonTarget_frame r c).1]
    exact hready
  | parked fd slot hnew hfd hslot hpark =>
    rcases abandonTarget_frame r c with ⟨hhandle, hslots, hbits⟩
    rcases hbits c with ⟨b, hb⟩
    refine (abandonTarget_changes r c).tail (.parked _ c fd slot ?_ ?_ ?_ hpark)
    · rw [hb]
      exact hnew
    · unfold conflictFd
      rw [hhandle]
      exact hfd
    · rw [hslots]
      exact hslot
  | filled r₁ hnew hready hpark hres hsome =>
    rcases abandonTarget_frame r c with ⟨hhandle, hslots, hbits⟩
    rcases hbits c with ⟨b, hb⟩
    have hhandle₁ : r₁.handle = r.handle := hres.handle_eq.trans hhandle
    have hready' : constructedKindReady ((r.abandonTarget c).handle c) = true := by
      rw [hhandle]
      exact hready
    refine ((abandonTarget_changes r c).trans (hres.changes hready')).trans ?_
    refine .trans (.single (.filled r₁ c ?_ ?_ ?_ ?_)) (issue_fill_changes _ c false)
    · rw [hres.bits_eq, hb]
      exact hnew
    · rw [hhandle₁]
      exact hready
    · exact shouldEnqueueConflict_reserved hpark hres
    · unfold kind
      rw [hhandle₁]
      exact hsome

theorem prepareConstructed_changes (hpoison : ∀ r', Changes r r' → ∀ c, (r'.bits c).isAccepted = false →
    (r'.bits c).poison = false) (items : List (Option Nat × Fate)) :
    Changes r (r.prepareConstructed items).1 := by
  induction items generalizing r with
  | nil => exact .refl
  | cons item items ih =>
    rcases item with ⟨_ | c, fate⟩
    · exact .refl
    · have hone : Changes r (r.prepareOne c fate).1 :=
        (prepareOne_prepared (hpoison r .refl c) fate).changes
      unfold prepareConstructed
      split
      · rename_i r₁ heq
        rw [heq] at hone
        exact .trans hone (ih fun r' hr' => hpoison r' (.trans hone hr'))
      · rename_i r₁ e heq
        rw [heq] at hone
        exact hone

/-! ## The drain of a FIFO -/

theorem fill_of_parked (hfd : r.conflictFd c = some fd)
    (hslot : r.slots fd = some slot) (hfifo : slot.fifo ≠ []) : r.fill c true = r.issue c true := by
  have hslots : ((r.pushed c).charged c true).slots fd = some slot := by
    rw [charged_eq, pushed_eq]
    dsimp only
    rw [(abandonTarget_frame r c).2.1, hslot]
  have hfd' : ((r.pushed c).charged c true).conflictFd c = some fd := by
    unfold conflictFd
    rw [charged_eq, pushed_eq]
    dsimp only
    rw [(abandonTarget_frame r c).1]
    exact hfd
  unfold fill issue noteIssue writeIssue
  rw [hfd']
  simp [hslots, freesAfterIssue, hfifo]

theorem failFill_parked (hfd : r.conflictFd c = some fd)
    (hslot : r.slots fd = some slot) (hfifo : slot.fifo ≠ []) (ph : Bool) (e : Err) :
    r.failFill c ph true e = (r, some e) := by
  have hundo : r.undoUnacceptedPoison c ph true = r := by simp [undoUnacceptedPoison]
  unfold failFill
  rw [hundo]
  dsimp only
  split
  · rename_i hkind
    have heq : (r.handle c).fd = fd := by
      rw [conflictFd_sendAll hkind] at hfd
      exact Option.some.inj hfd
    rw [heq]
    simp [fdTableTryFree, hslot, hfifo]
  · rfl

theorem prepareParked_cases (hfd : r.conflictFd c = some fd)
    (hslot : r.slots fd = some slot) (hfifo : slot.fifo ≠ []) (fate : Fate) :
    (∃ n, r.prepareOneConstructedEx c true true fate =
      (((r.enterKernel n).copyPoison c).issue c true, none)) ∨
    ∃ e r', r.prepareOneConstructedEx c true true fate = (r', some e) ∧
      (r' = r ∨ ∃ n, r' = (r.copyPoison c).enterKernel n ∨
        r' = ((r.copyPoison c).enterKernel n).abandonTarget c) := by
  rcases stageACopyAbortive_frame r c with ⟨hslots, hkind, hhandle⟩
  have hget : r.kind c = .sendAll →
      (r.stageACopyAbortive c).1.fdTableGet (r.handle c).fd fate.slot =
        some (r.stageACopyAbortive c).1 := by
    intro hsend
    have heq : (r.handle c).fd = fd := by
      rw [conflictFd_sendAll hsend] at hfd
      exact Option.some.inj hfd
    simp [fdTableGet, hslots, heq, hslot]
  have hsubmit : r.submitOne c true true fate =
      (r.stageACopyAbortive c).1.fillOne c (r.stageACopyAbortive c).2 true true fate := by
    unfold submitOne
    dsimp only
    split
    · rename_i hsend
      rw [hkind] at hsend
      rw [hhandle, hget hsend]
    · rfl
  have hslot' : ∀ n, ((r.stageACopyAbortive c).1.enterKernel n).slots fd = some slot := by
    intro n
    rw [enterKernel_slots, hslots]
    exact hslot
  have hfd' : ∀ n, ((r.stageACopyAbortive c).1.enterKernel n).conflictFd c = some fd := by
    intro n
    unfold conflictFd
    rw [enterKernel_handle, hhandle]
    exact hfd
  unfold prepareOneConstructedEx
  split
  · exact .inr ⟨_, r, rfl, .inl rfl⟩
  · simp only [if_true, Bool.not_true, Bool.false_and, Bool.false_eq_true, if_false]
    rw [hsubmit]
    rcases fillOne_cases (r.stageACopyAbortive c).1 c (r.stageACopyAbortive c).2 true true fate with
      ⟨n, heq | ⟨e, heq⟩ | ⟨e, heq⟩⟩
    · refine .inl ⟨n, ?_⟩
      rw [heq, fill_of_parked (hfd' n) (hslot' n) hfifo, ← copyPoison_enterKernel]
      rfl
    · rw [heq, failFill_parked (hfd' n) (hslot' n) hfifo]
      exact .inr ⟨e, _, rfl, .inr ⟨n, .inl rfl⟩⟩
    · rcases abandonTarget_frame ((r.stageACopyAbortive c).1.enterKernel n) c with ⟨hh, hs, -⟩
      have hfd'' : (((r.stageACopyAbortive c).1.enterKernel n).abandonTarget c).conflictFd c = some fd := by
        unfold conflictFd
        rw [hh]
        exact hfd' n
      rw [heq, failFill_parked hfd'' (hs ▸ hslot' n) hfifo]
      exact .inr ⟨e, _, rfl, .inr ⟨n, .inr rfl⟩⟩

theorem drainFdSlot_changes (fd : Int) (n : Nat) (h : r.Parked) (fates : List Fate) :
    Changes r (drainFdSlot fd n r fates).1 := by
  induction n generalizing r fates with
  | zero => exact fdTableTryFree_changes r fd
  | succ n ih =>
    -- the induction is on the passes that are left; `Parked` goes with the ring
    unfold drainFdSlot
    split
    · exact .refl
    · rename_i slot hslot
      split
      · exact fdTableTryFree_changes r fd
      · rename_i c rest hfifo
        split
        · exact fdTableTryFree_changes r fd
        · rename_i hturn
          have hfd : r.conflictFd c = some fd := h.fd fd slot hslot c (by simp [hfifo])
          have hturn' : slot.active = none ∨ r.isCancelOfActive c slot = true := by
            by_contra hbusy
            simp only [not_or, Bool.not_eq_true] at hbusy
            exact hturn hbusy
          rcases prepareParked_cases hfd hslot (by simp [hfifo]) (fates.headD {}) with
            ⟨k, heq⟩ | ⟨e, r', heq, hr'⟩
          · rw [heq]
            have hstep : Changes r ((((r.enterKernel k).copyPoison c).issue c true).popParked fd) :=
              .tail (.single (.enter r k)) (.copied _ fd slot c rest hslot hfifo hturn')
            have hparked : ((((r.enterKernel k).copyPoison c).issue c true).popParked fd).Parked :=
              (h.change (.enter r k)).change (.copied _ fd slot c rest hslot hfifo hturn')
            exact hstep.trans (ih hparked _)
          · rw [heq]
            have hpoisoned : Change r (r.copyPoison c) := .poisoned r fd slot c rest hslot hfifo
            have hleft : Changes r r' := by
              rcases hr' with rfl | ⟨k, rfl | rfl⟩
              · exact .refl
              · exact .tail (.single hpoisoned) (.enter _ k)
              · exact .trans (.tail (.single hpoisoned) (.enter _ k)) (abandonTarget_changes _ c)
            exact .tail hleft (.stranded r' e)

/-- The descriptor without its active `send_all`. -/
def release (r : Ring) (c : Nat) (slot : Slot) : Ring :=
  r.write (r.handle c).fd (some (r.releasedSlot c slot)) (.release c (r.bits c).res (r.bits c).skipAll)

theorem release_parked (h : r.Parked) (hslot : r.slots (r.handle c).fd = some slot) :
    (r.release c slot).Parked := by
  refine h.write _ ?_
  intro slot' hslot'
  cases hslot'
  exact .inr ⟨slot, hslot, rfl⟩

theorem sendAllReleaseActive_cases (c : Nat) (h : r.Parked) (fates : List Fate) :
    (r.sendAllReleaseActive c fates).1 = r ∨
      ∃ slot, r.slots (r.handle c).fd = some slot ∧ slot.active = some c ∧
        Changes (r.release c slot) (r.sendAllReleaseActive c fates).1 := by
  unfold sendAllReleaseActive
  dsimp only
  split
  · exact .inl rfl
  · rename_i slot hslot
    split
    · rename_i hactive
      refine .inr ⟨slot, hslot, hactive, ?_⟩
      split
      · exact fdTableTryFree_changes (r.release c slot) _
      · exact drainFdSlot_changes _ _ (release_parked h hslot) fates
    · exact .inl rfl

/-! ## Direct nowait posts -/

theorem nowaitPostOrDefer_cases (r : Ring) (mustPark : Bool) (sqe : Sqe) (enter : Enter) :
    ∃ n, (mustPark = false ∧ r.nowaitPostOrDefer mustPark sqe enter = ((r.enterKernel n).push sqe, .room)) ∨
      ∃ out, out ≠ .room ∧ r.nowaitPostOrDefer mustPark sqe enter = (r.enterKernel n, out) := by
  unfold nowaitPostOrDefer
  cases mustPark with
  | true => exact ⟨0, .inr ⟨.short, by simp, by simp⟩⟩
  | false =>
    rcases sqPrepareRoom_fst r 1 false enter with ⟨n, hn⟩
    refine ⟨n, ?_⟩
    simp only [Bool.false_eq_true, if_false]
    split
    · rename_i r₁ heq
      rw [heq] at hn
      subst hn
      exact .inl ⟨trivial, rfl⟩
    · rename_i r₁ heq
      rw [heq] at hn
      subst hn
      exact .inr ⟨.short, by simp, rfl⟩
    · rename_i r₁ e heq
      rw [heq] at hn
      subst hn
      exact .inr ⟨.error e, by simp, rfl⟩

theorem discharged_slot (hpark : r.nowaitFdOpMustPark fd = false) :
    ((r.slots fd).map fun slot => if r.idleAbortive fd then { slot with abortive := false } else slot) =
      (r.slots fd).map fun slot => { slot with abortive := false } := by
  unfold nowaitFdOpMustPark at hpark
  cases hslot : r.slots fd with
  | none => rfl
  | some slot =>
    simp only [hslot, ne_eq, Bool.or_eq_false_iff, decide_eq_false_iff_not, not_not] at hpark
    cases hmark : slot.abortive with
    | true => simp [idleAbortive, hslot, hmark, hpark]
    | false =>
      have hidle : r.idleAbortive fd = false := by simp [idleAbortive, hslot, hmark]
      rw [hidle]
      cases slot
      cases hmark
      rfl

theorem tryDirectCloseNowait_changes (r : Ring) (fd : Int) (enter : Enter) :
    Changes r (r.tryDirectCloseNowait fd enter).1 := by
  unfold tryDirectCloseNowait
  split
  · exact .refl
  · dsimp only
    rcases nowaitPostOrDefer_cases r (r.nowaitFdOpMustPark fd) { data := .nowait .close fd, fd := fd }
      enter with ⟨n, ⟨hpark, heq⟩ | ⟨out, hout, heq⟩⟩
    · rw [heq]
      have hpost : Changes r ((r.enterKernel n).post .close fd fd
          ((r.slots fd).map fun slot => { slot with abortive := false })) :=
        .tail (.single (.enter r n)) (.posted _ .close fd fd _ hpark (.inl ⟨rfl, rfl, rfl⟩))
      have hafter := discharged_slot hpark
      cases hidle : r.idleAbortive fd with
      | true =>
        simp only [if_true]
        exact hpost.trans (fdTableTryFree_changes _ fd)
      | false =>
        simp only [hidle, Bool.false_eq_true, if_false] at hafter ⊢
        rw [← hafter] at hpost
        exact hpost
    · rw [heq]
      have henter : Changes r (r.enterKernel n) := .single (.enter r n)
      cases out with
      | room => exact absurd rfl hout
      | short => exact henter
      | error e => exact henter

theorem tryDirectShutdownNowait_changes (r : Ring) (fd : Int) (enter : Enter) :
    Changes r (r.tryDirectShutdownNowait fd enter).1 := by
  unfold tryDirectShutdownNowait
  split
  · exact .refl
  · dsimp only
    rcases nowaitPostOrDefer_cases r (r.nowaitFdOpMustPark fd)
      { data := .nowait .shutdown fd, fd := if r.idleAbortive fd then -1 else fd } enter with
      ⟨n, ⟨hpark, heq⟩ | ⟨out, hout, heq⟩⟩
    · rw [heq]
      exact .tail (.single (.enter r n))
        (.posted _ .shutdown fd _ _ hpark (.inr ⟨rfl, rfl, rfl⟩))
    · rw [heq]
      have henter : Changes r (r.enterKernel n) := .single (.enter r n)
      cases out with
      | room => exact absurd rfl hout
      | short => exact henter
      | error e => exact henter

theorem nowaitPostOrDefer_tagged (r : Ring) (mustPark : Bool) {kind : Kind}
    (hkind : kind = .cancel ∨ kind = .pollRemove) (enter : Enter) :
    Changes r (r.nowaitPostOrDefer mustPark { data := .nowait kind (-1) } enter).1 := by
  rcases nowaitPostOrDefer_cases r mustPark { data := .nowait kind (-1) } enter with
    ⟨n, ⟨-, heq⟩ | ⟨out, -, heq⟩⟩
  · rw [heq]
    exact .tail (.single (.enter r n)) (.tagged _ kind hkind)
  · rw [heq]
    exact .single (.enter r n)

theorem tryDirectCancelNowait_changes (r : Ring) (target : Nat) (enter : Enter) :
    Changes r (r.tryDirectCancelNowait target enter).1 := by
  unfold tryDirectCancelNowait
  split
  · exact .refl
  · dsimp only
    split
    · rename_i hkind
      exact .trans (.single (.abandon r target hkind)) (nowaitPostOrDefer_tagged _ _ (.inl rfl) enter)
    · exact nowaitPostOrDefer_tagged _ _ (.inl rfl) enter

theorem tryDirectPollRemoveNowait_changes (r : Ring) (enter : Enter) :
    Changes r (r.tryDirectPollRemoveNowait enter).1 := by
  unfold tryDirectPollRemoveNowait
  split
  · exact .refl
  · exact nowaitPostOrDefer_tagged _ _ (.inr rfl) enter

/-! ## The CQE of a leg -/

theorem sendAllTryNextLeg_cases (r : Ring) (c : Nat) (fate : Fate) :
    ∃ n, (r.sendAllTryNextLeg c fate = ((r.enterKernel n).nextLeg c, .filled) ∧
        (r.bits c).abandon = false) ∨
      (r.sendAllTryNextLeg c fate = (r, .abandoned) ∧ (r.bits c).abandon = true) ∨
      ∃ e, r.sendAllTryNextLeg c fate = (r.enterKernel n, .failed e) := by
  rcases reserveSqes_fst r c true fate.enter with ⟨n, hn⟩
  unfold sendAllTryNextLeg
  split
  · exact ⟨0, .inr (.inr ⟨.closed, by simp⟩)⟩
  split
  · rename_i habandon
    exact ⟨0, .inr (.inl ⟨rfl, habandon⟩)⟩
  rename_i habandon
  refine ⟨n, ?_⟩
  split
  · rename_i r₁ heq
    rw [heq] at hn
    subst hn
    exact .inr (.inr ⟨_, rfl⟩)
  · rename_i r₁ e heq
    rw [heq] at hn
    subst hn
    exact .inr (.inr ⟨_, rfl⟩)
  · rename_i r₁ heq
    rw [heq] at hn
    subst hn
    dsimp only
    split
    · rename_i htimeout
      cases hmem : fate.timer with
      | true =>
        refine .inl ⟨?_, by simpa using habandon⟩
        simp only [fillLinkTimeout, if_true, nextLeg, htimeout]
      | false =>
        refine .inr (.inr ⟨.noMemory, ?_⟩)
        simp [fillLinkTimeout, push, enterKernel]
    · rename_i htimeout
      refine .inl ⟨?_, by simpa using habandon⟩
      simp only [nextLeg, htimeout, Bool.false_eq_true, if_false]

/-- The end of a `send_all`: its bits, then the release of its descriptor. -/
def Ends (r : Ring) (c : Nat) (decref : Bool) (r' : Ring) : Prop :=
  ∃ n res fates, r' = (((r.enterKernel n).ended c decref res).sendAllReleaseActive c fates).1

theorem sendAllComplete_ends (r : Ring) (c : Nat) (res : Int) (fate : BuildFate) :
    r.Ends c false (r.sendAllComplete c res fate).1 := by
  have hended : r.setRes c res = (r.enterKernel 0).ended c false res := by
    simp [setRes, ended]
  refine ⟨0, res, fate.drain, ?_⟩
  unfold sendAllComplete
  dsimp only
  rw [hended]
  split
  · rfl
  · split
    · rename_i heq
      rw [heq]
    · rename_i heq
      rw [heq]

theorem sendAllCancelled_ends (r : Ring) (c : Nat) (res : Int) (fate : BuildFate) :
    r.Ends c (0 < res) (r.sendAllCancelled c res fate).1 := by
  unfold sendAllCancelled
  split
  · rename_i hpos
    rcases sendAllComplete_ends (r.setAuxDecref c) c (-ecanceled) fate with ⟨n, res', fates, heq⟩
    refine ⟨n, res', fates, ?_⟩
    rw [heq]
    have hended : ((r.setAuxDecref c).enterKernel n).ended c false res' =
        (r.enterKernel n).ended c (0 < res) res' := by
      simp [setAuxDecref, ended, setBits, enterKernel, hpos]
    rw [hended]
  · rename_i hpos
    rcases sendAllComplete_ends r c (-ecanceled) fate with ⟨n, res', fates, heq⟩
    refine ⟨n, res', fates, ?_⟩
    rw [heq]
    simp [hpos]

theorem sendAllAbortUnparked_ends (r : Ring) (c n : Nat) (e : Err) (fates : List Fate) :
    r.Ends c true ((r.enterKernel n).sendAllAbortUnparked c e fates).1 := by
  refine ⟨n, if e = .noMemory then -enomem else -eio, fates, ?_⟩
  unfold sendAllAbortUnparked
  have hended : ∀ res, ((r.enterKernel n).setAuxDecref c).setRes c res =
      (r.enterKernel n).ended c true res := by
    intro res
    simp [setAuxDecref, setRes, ended, setBits]
  dsimp only
  rw [hended]

/-- The CQE of a leg: the next leg is filled, or the `send_all` ends.  It ends without setting
`AUX_DECREF` only after an error, with no byte left, or abandoned without a byte taken. -/
theorem sendAllOnCqe_cases (r : Ring) (c : Nat) (res : Int) (fate : BuildFate) :
    (∃ n, (r.sendAllOnCqe c res fate).1 = ((r.advanced c res).enterKernel n).nextLeg c ∧ 0 ≤ res ∧
      (r.advanced c res).sendAllRemaining c ≠ 0 ∧ (r.bits c).abandon = false) ∨
    ∃ decref, (r.advanced c res).Ends c decref (r.sendAllOnCqe c res fate).1 ∧
      (decref = false → res < 0 ∨ (r.advanced c res).sendAllRemaining c = 0 ∨
        res ≤ 0 ∧ (r.bits c).abandon = true) := by
  have habandon : ((r.advanced c res).bits c).abandon = (r.bits c).abandon := by simp [advanced]
  have hcancelled : ∀ h : (r.bits c).abandon = true, ∃ decref,
      (r.advanced c res).Ends c decref ((r.advanced c res).sendAllCancelled c res fate).1 ∧
      (decref = false → res < 0 ∨ (r.advanced c res).sendAllRemaining c = 0 ∨
        res ≤ 0 ∧ (r.bits c).abandon = true) := by
    intro h
    refine ⟨_, sendAllCancelled_ends _ c res fate, ?_⟩
    intro hpos
    exact .inr (.inr ⟨by simpa using hpos, h⟩)
  have hdef : (r.setBits c fun b => { b with offset := b.offset + res.toNat }) = r.advanced c res := rfl
  unfold sendAllOnCqe
  dsimp only
  rw [hdef]
  split
  · rename_i hneg
    exact .inr ⟨false, sendAllComplete_ends _ c res fate, fun _ => .inl hneg⟩
  split
  · rename_i hzero
    exact .inr ⟨false, sendAllComplete_ends _ c _ fate, fun _ => .inr (.inl hzero)⟩
  split
  · rename_i h
    exact .inr (hcancelled (habandon ▸ h))
  rename_i hneg hzero _
  rcases sendAllTryNextLeg_cases (r.advanced c res) c fate.leg with
    ⟨n, ⟨heq, hab⟩ | ⟨heq, hab⟩ | ⟨e, heq⟩⟩
  · rw [heq]
    exact .inl ⟨n, rfl, by omega, hzero, habandon ▸ hab⟩
  · rw [heq]
    exact .inr (hcancelled (habandon ▸ hab))
  · rw [heq]
    exact .inr ⟨true, sendAllAbortUnparked_ends _ c n e fate.drain, by simp⟩

end Ring

end Pytealet.Uring
