import Mathlib.Algebra.Order.Ring.Nat
import Mathlib.Tactic.ByContra
import Pytealet.Lib.Transition

/-!
# Uring.UserData — the payload of a multishot completion

A CQE of an armed multishot completion is staged when it is consumed, and packaged later by some
worker, in any order.  Packaging a leg with `F_MORE` builds a shell with a copy of the armed
completion's `user_data`; the terminal leg delivers the armed completion itself.  `take_user_data`
leaves the payload in the slot while legs are staged, and the packaging of the last one clears it.

`aux_lock` is the ring's `refcount_mutex`: what is done under it is one step.  The building of a leg
and the end of its packaging are two.
-/

namespace Pytealet.Uring.UserData

open Lib Lib.Transition List

inductive LegPhase
  | staged
  /-- its shell is built, or the armed completion is completed; `completion_aux_finish_cqe` has not
  run -/
  | built
  | packaged
  deriving DecidableEq, Repr

/-- A consumed CQE. -/
structure Leg where
  /-- `F_MORE` -/
  more : Bool
  legIndex : UInt64
  phase : LegPhase := .staged
  deriving DecidableEq, Repr

/-- The armed completion; `none` is `Py_None`.  `legs` are its CQEs, in the order of the completion
queue. -/
structure Multishot (α : Type*) where
  userData : Option α
  sequence : UInt64
  /-- `omit_no_deliver_multi` -/
  noDeliverMulti : Bool
  auxRefcount : Nat := 0
  auxDecref : Bool := false
  userDataClear : Bool := false
  inFlight : Bool := true
  legs : List Leg := []
  deriving DecidableEq, Repr

inductive Delivery (α : Type*)
  | shell (sequence : UInt64) (userData : Option α)
  /-- the armed completion -/
  | armed
  deriving DecidableEq, Repr

inductive Event (α : Type*)
  | consume (more : Bool)
  /-- a worker builds the leg; `ok` is false where it cannot (no memory, a corrupt CQE) -/
  | build (leg : Nat) (ok : Bool)
  | finish (leg : Nat)
  | take
  | assign (value : Option α)
  deriving DecidableEq, Repr

namespace Multishot

variable {α : Type*} (s : Multishot α)

/-- The legs that are not packaged yet. -/
def staged : Nat :=
  s.legs.countP fun leg => leg.phase ≠ .packaged

def auxStageCqe (wantToDecref : Bool) : Multishot α :=
  { s with auxRefcount := s.auxRefcount + 1, auxDecref := s.auxDecref || wantToDecref }

/-- Whether the in-flight reference is dropped, and the completion after it. -/
def auxFinishCqe : Bool × Multishot α :=
  let n := s.auxRefcount - 1
  if n = 0 then
    (s.auxDecref, { s with
      auxRefcount := n
      auxDecref := false
      userData := if s.userDataClear then none else s.userData
      userDataClear := false })
  else (false, { s with auxRefcount := n })

def consumeCqe (more : Bool) : Multishot α :=
  { s.auxStageCqe (!more) with
    sequence := s.sequence + 1
    legs := s.legs ++ [{ more := more, legIndex := s.sequence }] }

def newMultishotDeliveredShell (legIndex : UInt64) : Delivery α :=
  .shell legIndex s.userData

def buildCompletionResult (leg : Leg) (ok : Bool) : Option (Delivery α) × Multishot α :=
  if leg.more then
    if s.noDeliverMulti then (none, s)
    else if ok then (some (s.newMultishotDeliveredShell leg.legIndex), s)
    else (none, s)
  else
    let s₁ := { s with sequence := leg.legIndex }
    if ok && !s.noDeliverMulti then (some .armed, s₁) else (none, s₁)

def takeUserData : Option α × Multishot α :=
  if 0 < s.auxRefcount then (s.userData, { s with userDataClear := true })
  else (s.userData, { s with userData := none })

def assignUserData : Option α → Multishot α
  | none => s.takeUserData.2
  | some payload => { s with userDataClear := false, userData := some payload }

def setLeg (i : Nat) (leg : Leg) : Multishot α :=
  { s with legs := s.legs.set i leg }

/-- What a step delivers. -/
def delivered : Event α → Option (Delivery α)
  | .build i ok => s.legs[i]?.bind fun leg => (s.buildCompletionResult leg ok).1
  | _ => none

/-- The kernel posts nothing after a CQE without `F_MORE`. -/
def step : Event α → Option (Multishot α)
  | .consume more => if s.legs.all Leg.more then some (s.consumeCqe more) else none
  | .build i ok =>
    match s.legs[i]? with
    | none => none
    | some leg =>
      if leg.phase = .staged then
        some ((s.buildCompletionResult leg ok).2.setLeg i { leg with phase := .built })
      else none
  | .finish i =>
    match s.legs[i]? with
    | none => none
    | some leg =>
      if leg.phase = .built then
        let r := s.auxFinishCqe
        some ({ r.2 with inFlight := s.inFlight && !r.1 }.setLeg i { leg with phase := .packaged })
      else none
  | .take => some s.takeUserData.2
  | .assign value => some (s.assignUserData value)

end Multishot

/-! ## What has been assigned and taken -/

structure Watched (α : Type*) where
  armed : Multishot α
  /-- the payload that was assigned last -/
  assigned : Option α
  /-- it has been taken since -/
  taken : Bool := false
  /-- there was a moment since then when it had been taken and no leg was staged -/
  dropped : Bool := false
  deriving DecidableEq, Repr

namespace Watched

variable {α : Type*}

def after (w : Watched α) (e : Event α) (s : Multishot α) : Watched α :=
  match e with
  | .assign (some payload) => ⟨s, some payload, false, false⟩
  | .take => ⟨s, w.assigned, true, w.dropped || s.staged == 0⟩
  | .assign none => ⟨s, w.assigned, true, w.dropped || s.staged == 0⟩
  | _ => ⟨s, w.assigned, w.taken, w.dropped || w.taken && s.staged == 0⟩

def step (w : Watched α) (e : Event α) : Option (Watched α) :=
  (w.armed.step e).map fun s => w.after e s

/-- A completion that has just been prepared. -/
def start (payload : Option α) (base : UInt64) (noDeliverMulti : Bool) : Watched α :=
  { armed := ⟨payload, base, noDeliverMulti, 0, false, false, true, []⟩, assigned := payload }

/-- The slot has the payload that was assigned last until it is dropped. -/
def Holds (w : Watched α) : Prop :=
  w.armed.userData = if w.dropped then none else w.assigned

/-- A shell carries the payload that was assigned last unless that was dropped, and what is
delivered for a CQE has its number. -/
def HandsOver (base : UInt64) (w : Watched α) (e : Event α) : Prop :=
  ∀ i ok, e = .build i ok → ∀ w', w.step e = some w' → ∀ delivery, w.armed.delivered e = some delivery →
    match delivery with
    | .shell sequence userData =>
      sequence = base + UInt64.ofNat i ∧ userData = if w.dropped then none else w.assigned
    | .armed => w'.armed.sequence = base + UInt64.ofNat i

end Watched

/-! ## The invariant -/

namespace Multishot

variable {α : Type*} {s : Multishot α} {i : Nat}

theorem step_build {ok : Bool} {s' : Multishot α} (h : s.step (.build i ok) = some s') :
    ∃ leg, s.legs[i]? = some leg ∧ leg.phase = .staged ∧
      s' = (s.buildCompletionResult leg ok).2.setLeg i { leg with phase := .built } := by
  simp only [step] at h
  split at h
  · cases h
  · rename_i leg hleg
    split at h
    · rename_i hphase
      exact ⟨leg, hleg, hphase, (Option.some.inj h).symm⟩
    · cases h

theorem step_finish {s' : Multishot α} (h : s.step (.finish i) = some s') :
    ∃ leg, s.legs[i]? = some leg ∧ leg.phase = .built ∧
      s' = { s.auxFinishCqe.2 with inFlight := s.inFlight && !s.auxFinishCqe.1 }.setLeg i
        { leg with phase := .packaged } := by
  simp only [step] at h
  split at h
  · cases h
  · rename_i leg hleg
    split at h
    · rename_i hphase
      exact ⟨leg, hleg, hphase, (Option.some.inj h).symm⟩
    · cases h

theorem step_consume {more : Bool} {s' : Multishot α} (h : s.step (.consume more) = some s') :
    (∀ leg ∈ s.legs, leg.more = true) ∧ s' = s.consumeCqe more := by
  simp only [step] at h
  split at h
  · rename_i hmore
    exact ⟨all_eq_true.1 hmore, (Option.some.inj h).symm⟩
  · cases h

theorem buildCompletionResult_eq (leg : Leg) (ok : Bool) :
    (s.buildCompletionResult leg ok).2 = if leg.more then s else { s with sequence := leg.legIndex } := by
  unfold buildCompletionResult
  split
  · split
    · rfl
    · split <;> rfl
  · dsimp only
    split <;> rfl

theorem auxFinishCqe_legs : s.auxFinishCqe.2.legs = s.legs := by
  unfold auxFinishCqe
  dsimp only
  split <;> rfl

theorem auxFinishCqe_sequence : s.auxFinishCqe.2.sequence = s.sequence := by
  unfold auxFinishCqe
  dsimp only
  split <;> rfl

theorem auxFinishCqe_auxRefcount : s.auxFinishCqe.2.auxRefcount = s.auxRefcount - 1 := by
  unfold auxFinishCqe
  dsimp only
  split <;> rfl

theorem auxFinishCqe_userData : s.auxFinishCqe.2.userData =
    if s.auxRefcount - 1 = 0 ∧ s.userDataClear = true then none else s.userData := by
  unfold auxFinishCqe
  dsimp only
  split
  · rename_i hlast
    simp [hlast]
  · rename_i hmore
    rw [if_neg fun hand => hmore hand.1]

theorem auxFinishCqe_userDataClear :
    s.auxFinishCqe.2.userDataClear = (s.userDataClear && decide (s.auxRefcount - 1 ≠ 0)) := by
  unfold auxFinishCqe
  dsimp only
  split
  · rename_i hlast
    simp [hlast]
  · rename_i hmore
    simp [hmore]

theorem staged_set {leg : Leg} (h : s.legs[i]? = some leg) (leg' : Leg) :
    (s.setLeg i leg').staged + (if leg.phase ≠ .packaged then 1 else 0) =
      s.staged + if leg'.phase ≠ .packaged then 1 else 0 := by
  rcases List.getElem?_eq_some_iff.1 h with ⟨hi, rfl⟩
  have hpos : (if s.legs[i].phase ≠ .packaged then 1 else 0) ≤ s.staged := by
    split
    · rename_i hphase
      exact countP_pos_iff.2 ⟨_, getElem_mem hi, decide_eq_true hphase⟩
    · exact Nat.zero_le _
  have hcount := countP_set (p := fun leg : Leg => decide (leg.phase ≠ .packaged)) (a := leg') hi
  simp only [decide_eq_true_eq] at hcount
  unfold setLeg
  unfold staged at hpos ⊢
  dsimp only
  rw [hcount]
  omega

end Multishot

namespace Watched

variable {α : Type*} {w : Watched α} {base : UInt64}

structure Inv (base : UInt64) (w : Watched α) : Prop where
  holds : w.Holds
  counted : w.armed.auxRefcount = w.armed.staged
  /-- a clear is owed to a take, and to the one that has not taken effect -/
  owed : w.armed.userDataClear = true → w.taken = true
  owes : w.taken = true → w.dropped = false → w.armed.userDataClear = true ∧ 0 < w.armed.staged
  numbered : ∀ i leg, w.armed.legs[i]? = some leg → leg.legIndex = base + UInt64.ofNat i
  /-- the terminal leg, once it is built, has put back its own number -/
  next : (∀ leg ∈ w.armed.legs, leg.more = true ∨ leg.phase = .staged) →
    w.armed.sequence = base + UInt64.ofNat w.armed.legs.length

theorem Inv.start (payload : Option α) (base : UInt64) (noDeliverMulti : Bool) :
    Inv base (start payload base noDeliverMulti) where
  holds := rfl
  counted := rfl
  owed := nofun
  owes := nofun
  numbered := nofun
  next _ := (UInt64.add_zero base).symm

theorem Inv.consume (h : Inv base w) {more : Bool} {w' : Watched α}
    (hs : w.step (.consume more) = some w') :
    Inv base w' := by
  rcases Option.map_eq_some_iff.1 hs with ⟨s', hstep, rfl⟩
  rcases Multishot.step_consume hstep with ⟨hmore, rfl⟩
  have hstaged : (w.armed.consumeCqe more).staged = w.armed.staged + 1 := by
    simp [Multishot.consumeCqe, Multishot.staged, countP_append]
  -- a leg is staged now, so nothing is dropped
  have hdropped : (w.after (.consume more) (w.armed.consumeCqe more)).dropped = w.dropped := by
    simp [after, hstaged]
  have hsequence := h.next fun leg hleg => Or.inl (hmore leg hleg)
  constructor
  · unfold Holds
    rw [hdropped]
    exact h.holds
  · show w.armed.auxRefcount + 1 = (w.armed.consumeCqe more).staged
    rw [hstaged, h.counted]
  · exact h.owed
  · intro htaken hnot
    rw [hdropped] at hnot
    refine ⟨(h.owes htaken hnot).1, ?_⟩
    show 0 < (w.armed.consumeCqe more).staged
    rw [hstaged]
    exact Nat.succ_pos _
  · intro i leg hleg
    have hleg' : (w.armed.legs ++ [{ more := more, legIndex := w.armed.sequence }])[i]? = some leg := hleg
    rw [List.getElem?_append] at hleg'
    split at hleg'
    · exact h.numbered i leg hleg'
    · rename_i hlen
      rcases List.getElem?_eq_some_iff.1 hleg' with ⟨hi, rfl⟩
      have heq : i = w.armed.legs.length := by
        have hi' : i - w.armed.legs.length < 1 := hi
        omega
      subst heq
      simpa using hsequence
  · intro _
    show w.armed.sequence + 1 = base + UInt64.ofNat (w.armed.legs ++ [_]).length
    rw [hsequence, length_append, length_singleton, UInt64.ofNat_add, UInt64.add_assoc]
    rfl

theorem Inv.numbered_set (h : Inv base w) {i : Nat} {leg : Leg} (hleg : w.armed.legs[i]? = some leg)
    (phase : LegPhase) (j : Nat) (leg' : Leg)
    (hleg' : (w.armed.legs.set i { leg with phase := phase })[j]? = some leg') :
    leg'.legIndex = base + UInt64.ofNat j := by
  rw [List.getElem?_set] at hleg'
  split at hleg'
  · rename_i heq
    subst heq
    split at hleg'
    · cases hleg'
      exact h.numbered i leg hleg
    · cases hleg'
  · exact h.numbered j leg' hleg'

/-- If a leg that has been built is not the terminal one, the completion has the number of the next
leg. -/
theorem Inv.next_set (h : Inv base w) {i : Nat} {leg : Leg} (hleg : w.armed.legs[i]? = some leg)
    (phase : LegPhase)
    (hphase : phase ≠ .staged)
    (hnext : ∀ leg' ∈ w.armed.legs.set i { leg with phase := phase }, leg'.more = true ∨
      leg'.phase = .staged) :
    leg.more = true ∧
      w.armed.sequence = base + UInt64.ofNat (w.armed.legs.set i { leg with phase := phase }).length := by
  rcases List.getElem?_eq_some_iff.1 hleg with ⟨hi, hget⟩
  have hmore : leg.more = true := (hnext _ (mem_set hi _)).resolve_right hphase
  refine ⟨hmore, ?_⟩
  rw [length_set]
  refine h.next fun leg' hmem => ?_
  rcases getElem_of_mem hmem with ⟨j, hj, rfl⟩
  by_cases heq : i = j
  · subst heq
    rw [hget]
    exact Or.inl hmore
  · refine hnext _ (mem_iff_getElem.2 ⟨j, by simpa using hj, ?_⟩)
    exact getElem_set_ne heq _

theorem Inv.build (h : Inv base w) {i : Nat} {ok : Bool} {w' : Watched α}
    (hs : w.step (.build i ok) = some w') :
    Inv base w' := by
  rcases Option.map_eq_some_iff.1 hs with ⟨s', hstep, rfl⟩
  rcases Multishot.step_build hstep with ⟨leg, hleg, hphase, rfl⟩
  rw [Multishot.buildCompletionResult_eq]
  generalize hs₁ : (if leg.more then w.armed else { w.armed with sequence := leg.legIndex }) = s₁
  have hlegs : s₁.legs = w.armed.legs := by
    subst hs₁
    split <;> rfl
  have haux : s₁.auxRefcount = w.armed.auxRefcount := by
    subst hs₁
    split <;> rfl
  have hdata : s₁.userData = w.armed.userData := by
    subst hs₁
    split <;> rfl
  have hclear : s₁.userDataClear = w.armed.userDataClear := by
    subst hs₁
    split <;> rfl
  have hleg₁ : s₁.legs[i]? = some leg := by
    rw [hlegs]
    exact hleg
  have hsame : s₁.staged = w.armed.staged := congrArg (List.countP _) hlegs
  have hstaged : (s₁.setLeg i { leg with phase := .built }).staged = w.armed.staged := by
    have hset := Multishot.staged_set hleg₁ { leg with phase := .built }
    rw [hphase, hsame] at hset
    simpa using hset
  have hpos : 0 < w.armed.staged :=
    countP_pos_iff.2 ⟨leg, mem_of_getElem? hleg, by simp [hphase]⟩
  have hdropped : (w.after (.build i ok) (s₁.setLeg i { leg with phase := .built })).dropped =
      w.dropped := by
    simp [after, hstaged, Nat.pos_iff_ne_zero.1 hpos]
  constructor
  · unfold Holds
    rw [hdropped]
    exact hdata.trans h.holds
  · exact haux.trans (h.counted.trans hstaged.symm)
  · intro howed
    exact h.owed (hclear ▸ howed)
  · intro htaken hnot
    rw [hdropped] at hnot
    exact ⟨hclear.trans (h.owes htaken hnot).1, hstaged.symm ▸ hpos⟩
  · intro j leg' hleg'
    refine h.numbered_set hleg .built j leg' ?_
    rw [← hlegs]
    exact hleg'
  · intro hnext
    have hnext' := h.next_set hleg .built nofun (by rw [← hlegs]; exact hnext)
    subst hs₁
    rw [if_pos hnext'.1]
    exact hnext'.2

theorem Inv.finish (h : Inv base w) {i : Nat} {w' : Watched α} (hs : w.step (.finish i) = some w') :
    Inv base w' := by
  rcases Option.map_eq_some_iff.1 hs with ⟨s', hstep, rfl⟩
  rcases Multishot.step_finish hstep with ⟨leg, hleg, hphase, heq⟩
  have hset := Multishot.staged_set hleg { leg with phase := .packaged }
  rw [hphase] at hset
  have hlegs : s'.legs = w.armed.legs.set i { leg with phase := .packaged } := by
    rw [heq]
    exact congrArg (fun legs => legs.set i { leg with phase := .packaged }) Multishot.auxFinishCqe_legs
  have hsequence : s'.sequence = w.armed.sequence := by
    rw [heq]
    exact Multishot.auxFinishCqe_sequence
  have haux : s'.auxRefcount = w.armed.auxRefcount - 1 := by
    rw [heq]
    exact Multishot.auxFinishCqe_auxRefcount
  have hdata : s'.userData =
      if w.armed.auxRefcount - 1 = 0 ∧ w.armed.userDataClear = true then none else w.armed.userData := by
    rw [heq]
    exact Multishot.auxFinishCqe_userData
  have hclear : s'.userDataClear = (w.armed.userDataClear && decide (w.armed.auxRefcount - 1 ≠ 0)) := by
    rw [heq]
    exact Multishot.auxFinishCqe_userDataClear
  have hstaged : s'.staged = w.armed.auxRefcount - 1 := by
    have hsame : s'.staged = (w.armed.setLeg i { leg with phase := .packaged }).staged :=
      congrArg (List.countP _) hlegs
    rw [hsame, h.counted]
    simp at hset
    omega
  constructor
  · show s'.userData = if w.dropped || w.taken && s'.staged == 0 then none else w.assigned
    rw [hdata, hstaged, h.holds]
    by_cases hlast : w.armed.auxRefcount - 1 = 0
    · -- the last leg that was staged
      cases ht : w.taken with
      | true =>
        cases hd : w.dropped with
        | true => simp
        | false => simp [hlast, (h.owes ht hd).1]
      | false =>
        have hnot : ¬ w.armed.userDataClear = true := fun howed => by
          rw [h.owed howed] at ht
          cases ht
        simp [hnot]
    · simp [hlast]
  · rw [show (w.after (.finish i) s').armed = s' from rfl, haux, hstaged]
  · intro howed
    refine h.owed ?_
    have howed' : s'.userDataClear = true := howed
    rw [hclear, Bool.and_eq_true] at howed'
    exact howed'.1
  · intro htaken hnot
    have hnot' : (w.dropped || w.taken && s'.staged == 0) = false := hnot
    have htaken' : w.taken = true := htaken
    rw [hstaged, htaken', Bool.or_eq_false_iff, Bool.true_and, beq_eq_false_iff_ne] at hnot'
    refine ⟨?_, ?_⟩
    · show s'.userDataClear = true
      rw [hclear, (h.owes htaken' hnot'.1).1]
      simpa using hnot'.2
    · show 0 < s'.staged
      rw [hstaged]
      exact Nat.pos_iff_ne_zero.2 hnot'.2
  · intro j leg' hleg'
    refine h.numbered_set hleg .packaged j leg' ?_
    rw [← hlegs]
    exact hleg'
  · intro hnext
    have hnext' : ∀ leg' ∈ s'.legs, leg'.more = true ∨ leg'.phase = .staged := hnext
    rw [hlegs] at hnext'
    show s'.sequence = base + UInt64.ofNat s'.legs.length
    rw [hsequence, hlegs]
    exact (h.next_set hleg .packaged nofun hnext').2

theorem Inv.take (h : Inv base w) {e : Event α} (he : ∀ s, w.after e s =
    ⟨s, w.assigned, true, w.dropped || s.staged == 0⟩) : Inv base (w.after e w.armed.takeUserData.2) := by
  have hlegs : w.armed.takeUserData.2.legs = w.armed.legs := by
    unfold Multishot.takeUserData
    split <;> rfl
  have hsequence : w.armed.takeUserData.2.sequence = w.armed.sequence := by
    unfold Multishot.takeUserData
    split <;> rfl
  have hstaged : w.armed.takeUserData.2.staged = w.armed.staged := congrArg (List.countP _) hlegs
  have haux : w.armed.takeUserData.2.auxRefcount = w.armed.auxRefcount := by
    unfold Multishot.takeUserData
    split <;> rfl
  rw [he]
  constructor
  · show w.armed.takeUserData.2.userData =
      if w.dropped || w.armed.takeUserData.2.staged == 0 then none else w.assigned
    rw [hstaged, ← h.counted]
    unfold Multishot.takeUserData
    split
    · -- deferred
      rename_i hpos
      have hholds : w.armed.userData = if w.dropped then none else w.assigned := h.holds
      simpa [Nat.pos_iff_ne_zero.1 hpos] using hholds
    · rename_i hzero
      simp [Nat.eq_zero_of_not_pos hzero]
  · exact haux.trans (h.counted.trans hstaged.symm)
  · intro _
    rfl
  · intro _ hnot
    have hnot' : (w.dropped || w.armed.takeUserData.2.staged == 0) = false := hnot
    rw [hstaged, Bool.or_eq_false_iff, beq_eq_false_iff_ne] at hnot'
    have hpos : 0 < w.armed.staged := Nat.pos_iff_ne_zero.2 hnot'.2
    refine ⟨?_, hstaged.symm ▸ hpos⟩
    show w.armed.takeUserData.2.userDataClear = true
    unfold Multishot.takeUserData
    rw [if_pos (h.counted.symm ▸ hpos)]
  · intro j leg' hleg'
    exact h.numbered j leg' (hlegs ▸ hleg')
  · intro hnext
    show w.armed.takeUserData.2.sequence = base + UInt64.ofNat w.armed.takeUserData.2.legs.length
    rw [hsequence, hlegs]
    exact h.next fun leg' hmem => hnext leg' (hlegs.symm ▸ hmem)

theorem Inv.step (h : Inv base w) {e : Event α} {w' : Watched α} (hs : w.step e = some w') :
    Inv base w' := by
  cases e with
  | consume more => exact h.consume hs
  | build i ok => exact h.build hs
  | finish i => exact h.finish hs
  | take =>
    cases hs
    exact h.take fun _ => rfl
  | assign value =>
    cases hs
    cases value with
    | none => exact h.take fun _ => rfl
    | some payload => exact ⟨rfl, h.counted, nofun, nofun, h.numbered, h.next⟩

theorem Inv.handsOver (h : Inv base w) (e : Event α) : w.HandsOver base e := by
  rintro i ok rfl w' hs delivery hdelivery
  rcases Option.map_eq_some_iff.1 hs with ⟨s', hstep, rfl⟩
  rcases Multishot.step_build hstep with ⟨leg, hleg, -, rfl⟩
  have hnumber := h.numbered i leg hleg
  have hbuilt : (w.armed.legs[i]?.bind fun leg => (w.armed.buildCompletionResult leg ok).1) =
      some delivery :=
    hdelivery
  rw [hleg, Option.bind_some] at hbuilt
  have hsequence : (w.after (.build i ok) ((w.armed.buildCompletionResult leg ok).2.setLeg i
      { leg with phase := .built })).armed.sequence = if leg.more then
        w.armed.sequence else leg.legIndex := by
    show (w.armed.buildCompletionResult leg ok).2.sequence = _
    rw [Multishot.buildCompletionResult_eq]
    split <;> rfl
  unfold Multishot.buildCompletionResult at hbuilt
  split at hbuilt
  · split at hbuilt
    · cases hbuilt
    · split at hbuilt
      · cases hbuilt
        exact ⟨hnumber, h.holds⟩
      · cases hbuilt
  · rename_i hmore
    dsimp only at hbuilt
    split at hbuilt
    · cases hbuilt
      rw [if_neg hmore] at hsequence
      exact hsequence.trans hnumber
    · cases hbuilt

end Watched

open Watched

/-- In every run a shell carries the payload that was assigned last, unless there was a moment since
then when it had been taken and no leg was staged; that moment is when the slot is cleared.  The
legs have the base and on for their numbers. -/
theorem multishot_user_data {α : Type*} (payload : Option α) (base : UInt64) (noDeliverMulti : Bool)
    (run : List (Event α)) :
    Always Watched.step Holds (start payload base noDeliverMulti) run ∧
      Along Watched.step (HandsOver base) (start payload base noDeliverMulti) run := by
  have hstep : ∀ (w : Watched α) (e : Event α) (w' : Watched α), Inv base w →
      w.step e = some w' → Inv base w' :=
    fun _ _ _ h hs => h.step hs
  constructor
  · exact always_of_invariant (fun _ h => Inv.holds h) hstep run _ (Inv.start payload base noDeliverMulti)
  · exact along_of_along (C := fun _ _ => True) (fun w e h _ => h.handsOver e)
      (fun w e w' h _ hs => hstep w e w' h hs)
      run _ (Inv.start payload base noDeliverMulti) (along_of_forall (fun _ _ => trivial) run _)

/-- Two legs.  The payload is taken while the first is staged, and the second is staged when the
first has been packaged: its shell has no payload.  Numbers that reach 2^64 start again. -/
theorem later_leg_has_no_payload :
    (∃ w, exec Watched.step (start (some 7) 0 false) [.consume true, .take, .build 0 true,
      .finish 0, .consume true] =
        some w ∧ w.assigned = some 7 ∧ w.armed.delivered (.build 1 true) =
          some (.shell 1 (none : Option Nat))) ∧
      ∃ w, exec Watched.step (start (some 7) (UInt64.ofNat (2 ^ 64 - 1)) false)
        [.consume true, .consume true] =
        some w ∧ w.armed.delivered (.build 1 true) = some (.shell 0 (some 7)) :=
  ⟨⟨_, rfl, rfl, rfl⟩, ⟨_, rfl, rfl⟩⟩

end Pytealet.Uring.UserData
