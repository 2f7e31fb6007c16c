import Pytealet.Uring.Changes
import Pytealet.Uring.Life

/-!
# Moves — every step of a ring, taken apart

A step consumes a CQE, or it is a sequence of `Move`s: the changes of `prepare` and of a drain, the
setters, an abort, and the packaging of a CQE.
-/

namespace Pytealet.Uring

open List

namespace Ring

/-- A worker takes a staged CQE to package it. -/
@[simps -fullyApplied]
def took (r : Ring) (i c : Nat) : Ring :=
  { r with staged := r.staged.eraseIdx i, built := r.built ++ [c] }

/-- The kernel posts a CQE of request `i`. -/
def answered (r : Ring) (i : Nat) (more : Bool) : Ring :=
  if more then r else { r with kernel := r.kernel.eraseIdx i }

/-- `abort_queue` on a slot that has the completion. -/
def abortedSlot (slot : Slot) : Slot :=
  { slot with abortive := true, markedUnder := if slot.abortive then slot.markedUnder else slot.active }

end Ring

inductive Move : Ring → Ring → Prop where
  | change {r r' : Ring} : Change r r' → Move r r'
  | flags (r : Ring) (c : Nat) (success all : Bool) : (r.bits c).isAccepted = false →
      Move r (r.setBits c fun b => { b with skipSuccess := success, skipAll := all })
  | options (r : Ring) (c : Nat) (timeout multi : Bool) :
      Move r (r.setBits c fun b => { b with timeout := timeout, noDeliverMulti := multi })
  | aborted (r : Ring) (c : Nat) (fd : Int) (slot : Slot) : r.slots fd = some slot →
      c ∈ slot.fifo ∨ slot.active = some c →
      Move r (r.write fd (some (Ring.abortedSlot slot)) (.abort c))
  | silent (r : Ring) (i : Nat) (sqe : Sqe) : r.kernel[i]? = some sqe → isNowait sqe = true →
      Move r { r with kernel := r.kernel.eraseIdx i }
  | noted (r : Ring) (i : Nat) (s : Staged) (res : Int) : r.staged[i]? = some s → r.kind s.c ≠ .sendAll →
      Move r ((r.took i s.c).setRes s.c res)
  | leg (r : Ring) (i : Nat) (s : Staged) (n : Nat) : r.staged[i]? = some s → r.kind s.c = .sendAll →
      0 ≤ s.res → (r.advanced s.c s.res).sendAllRemaining s.c ≠ 0 → (r.bits s.c).abandon = false →
      Move r ((((r.took i s.c).advanced s.c s.res).enterKernel n).nextLeg s.c)
  | ended (r : Ring) (i : Nat) (s : Staged) (decref : Bool) (res : Int) : r.staged[i]? = some s →
      r.kind s.c = .sendAll →
      (decref = false → s.res < 0 ∨ (r.advanced s.c s.res).sendAllRemaining s.c = 0 ∨
        s.res ≤ 0 ∧ (r.bits s.c).abandon = true) →
      Move r (((r.took i s.c).advanced s.c s.res).ended s.c decref res)
  | released (r : Ring) (c : Nat) (slot : Slot) : r.kind c = .sendAll →
      r.slots (r.handle c).fd = some slot → slot.active = some c → (r.life c).flight = 0 →
        (r.life c).staged = 0 → Move r (r.release c slot)
  | finish (r : Ring) (i c : Nat) : r.built[i]? = some c →
      Move r ({ r with built := r.built.eraseIdx i }.finishPackage c)

abbrev Moves : Ring → Ring → Prop :=
  Relation.ReflTransGen Move

theorem Changes.moves {r r' : Ring} (h : Changes r r') : Moves r r' :=
  Relation.ReflTransGen.mono (fun _ _ => .change) _ _ h

/-- A CQE of request `i` is consumed. -/
def Consumes (r : Ring) (a : Act) (r' : Ring) : Prop :=
  ∃ i res more notif sqe, a = .cqe i res more notif ∧ r.kernel[i]? = some sqe ∧
    kernelAnswers sqe res more notif = true ∧ r' = (r.answered i more).consumeCqe sqe res more notif

/-! ## One completion in a move -/

namespace Ring

variable {r r' : Ring}

theorem countP_eraseIdx {α : Type*} {l : List α} {i : Nat} {a : α} (h : l[i]? = some a) (p : α → Bool) :
    l.countP p = (l.eraseIdx i).countP p + if p a then 1 else 0 := by
  rcases List.getElem?_eq_some_iff.1 h with ⟨hlt, ha⟩
  have hsplit : l = l.take i ++ a :: l.drop (i + 1) := by
    rw [← ha, getElem_cons_drop, take_append_drop]
  rw [eraseIdx_eq_take_drop_succ, countP_append]
  conv_lhs => rw [hsplit]
  rw [countP_append, countP_cons]
  omega

theorem life_took {i : Nat} {s : Staged} (h : r.staged[i]? = some s) (d : Nat) :
    (r.took i s.c).life d = if d = s.c then (r.life d).took else r.life d := by
  have hstaged := countP_eraseIdx h (fun s' => decide (s'.c = d))
  by_cases hd : d = s.c
  · subst hd
    simp only [decide_true, if_true] at hstaged
    simp [life, Life.of, Life.took, flight, hstaged]
  · have hd' : ¬ s.c = d := fun h => hd h.symm
    simp only [hd', decide_false, Bool.false_eq_true, if_false, Nat.add_zero] at hstaged
    simp [life, Life.of, flight, hd, hd', hstaged]

theorem life_setRes (r : Ring) (c : Nat) (res : Int) (d : Nat) : (r.setRes c res).life d = r.life d := by
  by_cases hd : d = c
  · subst hd
    simp [life, Life.of, flight, setRes, Bits.isAccepted]
  · simp [life, Life.of, flight, setRes, hd]

theorem life_advanced (r : Ring) (c : Nat) (res : Int) (d : Nat) :
    (r.advanced c res).life d = r.life d := by
  by_cases hd : d = c
  · subst hd
    simp [life, Life.of, flight, advanced, Bits.isAccepted]
  · simp [life, Life.of, flight, advanced, hd]

theorem life_enterKernel (r : Ring) (n d : Nat) : (r.enterKernel n).life d = r.life d := by
  simp [life, flight_enterKernel]

theorem life_ended (r : Ring) (c : Nat) (decref : Bool) (res : Int) (d : Nat) :
    (r.ended c decref res).life d =
      if d = c then { r.life d with auxDecref := (r.life d).auxDecref || decref } else r.life d := by
  by_cases hd : d = c
  · subst hd
    simp [life, Life.of, flight, ended, Bits.isAccepted]
  · simp [life, Life.of, flight, ended, hd]

theorem nextLeg_eq (r : Ring) (c : Nat) :
    ∃ entry, r.nextLeg c =
      { r with
        sq := r.sq ++ r.sendAllFillSqe c true ::
          (if (r.bits c).timeout then [{ data := .linkTimeout }] else [])
        pendingCount := r.pendingCount + if (r.bits c).timeout then 1 else 0
        log := r.log ++ [entry] } := by
  refine ⟨⟨(r.handle c).fd, r.slots (r.handle c).fd, r.slots (r.handle c).fd,
    .leg c (r.sendAllFillSqe c true).fd⟩, ?_⟩
  cases ht : (r.bits c).timeout with
  | true => simp [nextLeg, ht, noteLeg, push, pendingInc, write, sendAllFillSqe, completionSqeFd]
  | false => simp [nextLeg, ht, noteLeg, push, write, sendAllFillSqe, completionSqeFd]

theorem nextLeg_writes (r : Ring) (c : Nat) :
    (r.nextLeg c).log = r.log ++ [⟨(r.handle c).fd, r.slots (r.handle c).fd, r.slots (r.handle c).fd,
      .leg c (r.completionSqeFd c)⟩] ∧ (r.nextLeg c).slots = r.slots := by
  unfold nextLeg
  split
  · exact ⟨by simp [noteLeg, sendAllFillSqe, completionSqeFd], by simp [noteLeg]⟩
  · exact ⟨by simp [noteLeg, sendAllFillSqe, completionSqeFd], by simp [noteLeg]⟩

theorem life_nextLeg (r : Ring) (c d : Nat) :
    (r.nextLeg c).life d = if d = c then { r.life d with flight := (r.life d).flight + 1 } else
      r.life d := by
  rcases nextLeg_eq r c with ⟨entry, heq⟩
  have hleg : isOp d (r.sendAllFillSqe c true) = decide (d = c) := by
    simp [isOp, sendAllFillSqe, eq_comm]
  have htimer : (if (r.bits c).timeout then [({ data := .linkTimeout } : Sqe)] else []).countP (isOp d) =
      0 := by
    split <;> rfl
  rw [heq]
  by_cases hd : d = c
  · subst hd
    simp only [life, flight, countP_append, countP_cons, hleg, htimer]
    simp [Life.of, Nat.add_right_comm]
  · simp only [life, flight, countP_append, countP_cons, hleg, htimer]
    simp [hd]

theorem count_eraseIdx {l : List Nat} {i c : Nat} (h : l[i]? = some c) (d : Nat) :
    l.count d = (l.eraseIdx i).count d + if d = c then 1 else 0 := by
  have hcount := countP_eraseIdx h (fun e => e == d)
  unfold List.count
  rw [hcount]
  by_cases hd : d = c
  · simp [hd]
  · have hd' : ¬ c = d := fun h => hd h.symm
    simp [hd, hd']

theorem finishPackage_cases (r : Ring) (c : Nat) :
    ((r.life c).countsCqes = true ∧ (r.bits c).auxRefcount - 1 = 0 ∧ (r.bits c).auxDecref = true ∧
      r.finishPackage c = (r.setBits c fun b =>
        { b with
          auxRefcount := b.auxRefcount - 1, auxDecref := false, inFlight := b.inFlight - 1
          released := b.released + 1 }).pendingDec) ∨
    ((r.life c).countsCqes = true ∧ ¬ ((r.bits c).auxRefcount - 1 = 0 ∧ (r.bits c).auxDecref = true) ∧
      r.finishPackage c = r.setBits c fun b => { b with auxRefcount := b.auxRefcount - 1 }) ∨
    ((r.life c).countsCqes = false ∧
      r.finishPackage c =
        (r.setBits c fun b => { b with inFlight := b.inFlight - 1, released := b.released + 1 }).pendingDec) := by
  have hspecial : ((r.handle c).multishot = true ∨ isZeroCopySendKind (r.kind c) = true ∨
      r.kind c = .sendAll) ↔ (r.life c).countsCqes = true := by
    simp [Life.countsCqes, life, Life.of, kind, or_assoc]
  unfold finishPackage completionFinishInFlightRef
  cases hkind : (r.life c).countsCqes with
  | true =>
    rw [if_pos (hspecial.2 hkind)]
    unfold completionAuxFinishCqe
    by_cases hlast : (r.bits c).auxRefcount - 1 = 0 ∧ (r.bits c).auxDecref = true
    · refine .inl ⟨rfl, hlast.1, hlast.2, ?_⟩
      simp only [setBits_bits, Function.update_self, if_pos hlast]
      simp [setBits, pendingDec]
    · refine .inr (.inl ⟨rfl, hlast, ?_⟩)
      simp only [setBits_bits, Function.update_self, if_neg hlast]
  | false =>
    rw [if_neg (by rw [hspecial, hkind]; simp)]
    exact .inr (.inr ⟨rfl, rfl⟩)

theorem finishPackage_other {α : Type*} (r : Ring) (c : Nat) (p : Ring → α)
    (hbits : ∀ r c f, p (setBits r c f) = p r) (hpending : ∀ r, p (pendingDec r) = p r) :
    p (r.finishPackage c) = p r := by
  rcases finishPackage_cases r c with ⟨-, -, -, heq⟩ | ⟨-, -, heq⟩ | ⟨-, heq⟩
  · rw [heq, hpending, hbits]
  · rw [heq, hbits]
  · rw [heq, hpending, hbits]

theorem life_finishPackage {i c : Nat} (h : r.built[i]? = some c) (d : Nat) :
    ({ r with built := r.built.eraseIdx i }.finishPackage c).life d =
      if d = c then (r.life d).finished else r.life d := by
  have hcount := count_eraseIdx h d
  by_cases hd : d = c
  · subst hd
    simp only [if_true] at hcount
    rw [if_pos rfl]
    rcases finishPackage_cases { r with built := r.built.eraseIdx i } d with
      ⟨hkind, hzero, hlast, heq⟩ | ⟨hkind, hlast, heq⟩ | ⟨hkind, heq⟩
    · have hkind' : (r.life d).countsCqes = true := hkind
      have hlast' : (r.life d).auxRefcount - 1 = 0 ∧ (r.life d).auxDecref = true := ⟨hzero, hlast⟩
      rw [heq]
      simp only [Life.finished, hkind', if_true, if_pos hlast', Life.drop]
      simp [life, Life.of, flight, hcount, Bits.isAccepted]
    · have hkind' : (r.life d).countsCqes = true := hkind
      have hlast' : ¬ ((r.life d).auxRefcount - 1 = 0 ∧ (r.life d).auxDecref = true) := hlast
      rw [heq]
      simp only [Life.finished, hkind', if_true, if_neg hlast']
      simp [life, Life.of, flight, hcount, Bits.isAccepted]
    · have hkind' : (r.life d).countsCqes = false := hkind
      rw [heq]
      simp only [Life.finished, hkind', Bool.false_eq_true, if_false, Life.drop]
      simp [life, Life.of, flight, hcount, Bits.isAccepted]
  · simp only [hd, if_false, Nat.add_zero] at hcount
    rw [if_neg hd]
    rcases finishPackage_cases { r with built := r.built.eraseIdx i } c with
      ⟨-, -, -, heq⟩ | ⟨-, -, heq⟩ | ⟨-, heq⟩
    · simp [heq, life, Life.of, flight, hd, hcount]
    · simp [heq, life, Life.of, flight, hd, hcount]
    · simp [heq, life, Life.of, flight, hd, hcount]

theorem life_flags (r : Ring) (c : Nat) (success all : Bool) (d : Nat) :
    ∃ counts, (r.setBits c fun b => { b with skipSuccess := success, skipAll := all }).life d =
      if d = c then { r.life d with counts := counts } else r.life d := by
  refine ⟨if r.kind c = .sendAll then true else !all, ?_⟩
  by_cases hd : d = c
  · subst hd
    simp only [life, setBits_bits, Function.update_self, if_true]
    rfl
  · simp [life, Life.of, flight, hd]

theorem life_options (r : Ring) (c : Nat) (timeout multi : Bool) (d : Nat) :
    (r.setBits c fun b => { b with timeout := timeout, noDeliverMulti := multi }).life d = r.life d := by
  by_cases hd : d = c
  · subst hd
    simp [life, Life.of, flight, Bits.isAccepted]
  · simp [life, Life.of, flight, hd]

theorem life_silent {i : Nat} {sqe : Sqe} (h : r.kernel[i]? = some sqe) (hnowait : isNowait sqe = true)
    (d : Nat) : { r with kernel := r.kernel.eraseIdx i }.life d = r.life d := by
  have hcount := countP_eraseIdx h (isOp d)
  have hop : isOp d sqe = false := by
    unfold isNowait at hnowait
    unfold isOp
    split at hnowait
    · rename_i heq
      simp [heq]
    · cases hnowait
  simp only [hop, Bool.false_eq_true, if_false, Nat.add_zero] at hcount
  simp [life, flight, countP_append, hcount]

end Ring

open Uring.Ring in
theorem Move.life {r r' : Ring} (hparked : r.Parked) (h : Move r r') (d : Nat) :
    Life.Move (r.life d) (r'.life d) := by
  have hkeep : ∀ {r₁ : Ring}, r₁.life d = r.life d → Life.Move (r.life d) (r₁.life d) := by
    intro r₁ heq
    rw [heq]
    exact .change .keep
  have hstaged : ∀ {i : Nat} {s : Staged}, r.staged[i]? = some s → 0 < (r.life s.c).staged := by
    intro i s hs
    have hcount := countP_eraseIdx hs (fun s' => decide (s'.c = s.c))
    simp only [decide_true, if_true] at hcount
    simp only [Ring.life, Life.of]
    omega
  cases h with
  | change hc => exact .change (hc.life hparked d)
  | flags c success all hnew =>
    rcases life_flags r c success all d with ⟨counts, heq⟩
    rw [heq]
    split
    · rename_i hd
      subst hd
      exact .flags counts hnew
    · exact .change .keep
  | options c timeout multi => exact hkeep (life_options r c timeout multi d)
  | aborted c fd slot _ _ => exact hkeep rfl
  | silent i sqe hi hnowait => exact hkeep (life_silent hi hnowait d)
  | noted i s res hs hkind =>
    rw [life_setRes, life_took hs]
    split
    · rename_i hd
      subst hd
      exact .build hkind (hstaged hs)
    · exact .change .keep
  | leg i s n hs hkind _ _ _ =>
    rw [life_nextLeg, life_enterKernel, life_advanced, life_took hs]
    split
    · rename_i hd
      subst hd
      exact .leg hkind (hstaged hs)
    · exact .change .keep
  | ended i s decref res hs hkind _ =>
    rw [life_ended, life_advanced, life_took hs]
    split
    · rename_i hd
      subst hd
      exact .ended decref hkind (hstaged hs)
    · exact .change .keep
  | released c slot _ _ _ _ _ => exact hkeep rfl
  | finish i c hc =>
    rw [life_finishPackage hc]
    split
    · rename_i hd
      subst hd
      have hcount := count_eraseIdx hc d
      simp only [if_true] at hcount
      refine .finish ?_
      simp only [Ring.life, Life.of]
      omega
    · exact .change .keep

/-! ## A CQE is consumed -/

namespace Ring

variable {r : Ring}

/-- Whether a CQE is the last one, as `completion_prep_in_flight_ref` finds. -/
def isLast (r : Ring) (c : Nat) (res : Int) (more notif : Bool) : Bool :=
  if (r.handle c).multishot then !more
  else if isZeroCopySendKind (r.kind c) then (r.bits c).poison || notif
  else r.sendAllCqeIsTerminal c res

theorem completionPrepInFlightRef_eq (r : Ring) (c : Nat) (res : Int) (more notif : Bool) :
    r.completionPrepInFlightRef c res more notif =
      if (r.life c).countsCqes then r.completionAuxStageCqe c (r.isLast c res more notif) else r := by
  have hcounts : (r.life c).countsCqes =
      ((r.handle c).multishot || isZeroCopySendKind (r.kind c) || decide (r.kind c = .sendAll)) := rfl
  rw [hcounts]
  unfold completionPrepInFlightRef isLast
  cases hmulti : (r.handle c).multishot with
  | true => simp
  | false =>
    cases hzc : isZeroCopySendKind (r.kind c) with
    | true => cases hp : (r.bits c).poison <;> simp
    | false =>
      by_cases hsend : r.kind c = .sendAll
      · simp [hsend]
      · simp [hsend]

theorem flight_answered {i : Nat} {sqe : Sqe} (h : r.kernel[i]? = some sqe) (more : Bool) (d : Nat) :
    (r.answered i more).flight d + (if !more && isOp d sqe then 1 else 0) = r.flight d := by
  have hcount := countP_eraseIdx h (isOp d)
  unfold answered
  cases more with
  | true => simp
  | false =>
    simp only [flight, countP_append, Bool.false_eq_true, if_false, Bool.not_false, Bool.true_and]
    omega

theorem answered_eq (r : Ring) (i : Nat) (more : Bool) :
    ∃ kernel, r.answered i more = { r with kernel := kernel } := by
  unfold answered
  split
  · exact ⟨r.kernel, rfl⟩
  · exact ⟨r.kernel.eraseIdx i, rfl⟩

theorem consumeCqe_op (r : Ring) (i : Nat) {sqe : Sqe} {c : Nat} (hdata : sqe.data = .op c) (res : Int)
    (more notif : Bool) :
    ((r.answered i more).consumeCqe sqe res more notif).handle = r.handle ∧
      ((r.answered i more).consumeCqe sqe res more notif).staged = r.staged ++ [⟨c, res, more, notif⟩] ∧
      ∀ d, ((r.answered i more).consumeCqe sqe res more notif).bits d =
        if d = c ∧ (r.life c).countsCqes = true then
          { r.bits d with
            auxRefcount := (r.bits d).auxRefcount + 1
            auxDecref := (r.bits d).auxDecref || r.isLast c res more notif }
        else r.bits d := by
  rcases answered_eq r i more with ⟨kernel, heq⟩
  have hlast : (r.answered i more).isLast c res more notif = r.isLast c res more notif := by
    rw [heq]
    rfl
  have hkind : ((r.answered i more).life c).countsCqes = (r.life c).countsCqes := by
    rw [heq]
    rfl
  unfold consumeCqe
  rw [hdata]
  dsimp only
  rw [completionPrepInFlightRef_eq, hlast, hkind, heq]
  cases (r.life c).countsCqes with
  | true =>
    refine ⟨rfl, rfl, ?_⟩
    intro d
    by_cases hd : d = c
    · subst hd
      simp [completionAuxStageCqe]
    · simp [completionAuxStageCqe, hd]
  | false => exact ⟨rfl, rfl, by simp⟩

theorem life_consumeCqe_op {i c : Nat} {sqe : Sqe} (h : r.kernel[i]? = some sqe) (hdata : sqe.data = .op c)
    (res : Int) (more notif : Bool) (d : Nat) :
    ((r.answered i more).consumeCqe sqe res more notif).life d =
      if d = c then (r.life d).consumed more (r.isLast d res more notif) else r.life d := by
  have hflight := flight_answered h more d
  have hop : isOp d sqe = decide (d = c) := by simp [isOp, hdata, eq_comm]
  rcases answered_eq r i more with ⟨kernel, heq⟩
  have hlast : (r.answered i more).isLast c res more notif = r.isLast c res more notif := by
    rw [heq]
    rfl
  have hkind : ((r.answered i more).life c).countsCqes = (r.life c).countsCqes := by
    rw [heq]
    rfl
  unfold consumeCqe
  rw [hdata]
  dsimp only
  rw [completionPrepInFlightRef_eq, hlast, hkind]
  rw [hop] at hflight
  by_cases hd : d = c
  · subst hd
    rw [if_pos rfl]
    have hflight' : (r.answered i more).flight d = if more then r.flight d else r.flight d - 1 := by
      cases more with
      | true =>
        simpa using hflight
      | false =>
        simp at hflight ⊢
        omega
    cases hcounts : (r.life d).countsCqes with
    | true =>
      simp only [Life.consumed, hcounts, if_true]
      rw [heq] at hflight' ⊢
      simp only [flight] at hflight'
      simp [life, Life.of, flight, completionAuxStageCqe, Bits.isAccepted, hflight']
    | false =>
      simp only [Life.consumed, hcounts, Bool.false_eq_true, if_false]
      rw [heq] at hflight' ⊢
      simp only [flight] at hflight'
      simp [life, Life.of, flight, hflight']
  · rw [if_neg hd]
    have hflight' : (r.answered i more).flight d = r.flight d := by
      simpa [hd] using hflight
    have hd' : ¬ c = d := fun h => hd h.symm
    rw [heq] at hflight' ⊢
    simp only [flight] at hflight'
    split
    · simp [life, Life.of, flight, completionAuxStageCqe, hd, hd', hflight']
    · simp [life, Life.of, flight, hd', hflight']

theorem life_consumeCqe_other {i : Nat} {sqe : Sqe} (h : r.kernel[i]? = some sqe)
    (hdata : ∀ c, sqe.data ≠ .op c) (res : Int) (more notif : Bool) (d : Nat) :
    ((r.answered i more).consumeCqe sqe res more notif).life d = r.life d := by
  have hflight := flight_answered h more d
  have hop : isOp d sqe = false := by simpa [isOp] using hdata d
  simp only [hop, Bool.and_false, Bool.false_eq_true, if_false, Nat.add_zero] at hflight
  rcases answered_eq r i more with ⟨kernel, heq⟩
  rw [heq] at hflight ⊢
  simp only [flight] at hflight
  unfold consumeCqe
  split
  · simp [life, Life.of, flight, hflight]
  · simp [life, Life.of, flight, hflight]
  · rename_i c hc
    exact absurd hc (hdata c)

end Ring

end Pytealet.Uring
