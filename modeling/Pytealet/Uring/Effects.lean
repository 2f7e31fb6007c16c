import Mathlib.Logic.Relation
import Pytealet.Uring.Steps

/-!
# Effects — the changes that the ring's functions are made of

A few kinds of `Change`, each with what its code path has checked: the kernel takes SQEs, an abandon
mark, a slot made or freed, an operation parked, filled directly or copied off a FIFO, a nowait
post, and a drain that fails.  Invariants are proved once for each kind of change; that the
functions are sequences of changes is in `Changes`.
-/

namespace Pytealet.Uring

open Function

namespace Ring

variable (r : Ring)

/-! ## The parts of a successful call -/

/-- The poison that `stage_a_copy_abortive` leaves. -/
def copyPoison (c : Nat) : Ring :=
  (r.stageACopyAbortive c).1

def abandonMark (t : Nat) : Ring :=
  r.setBits t fun b => { b with abandon := true }

/-- The SQE of `c`, the abandon mark of a cancel, and the SQE of the timer. -/
def pushed (c : Nat) : Ring :=
  let r := (r.push (r.stampSqe c)).abandonTarget c
  if (r.bits c).timeout then (r.push { data := .linkTimeout }).pendingInc else r

/-- What acceptance does to the completion and the counts. -/
def charged (c : Nat) (fromParked : Bool) : Ring :=
  let r' := r.setBits c fun b => { b with prepared := true }
  let r' := if r.completionCountsPending c && !fromParked then r'.takeInFlightRef c else r'
  if fromParked then r' else r'.noteAccepted c

/-- What acceptance does to the slot, without the free that may follow. -/
def writeIssue (c : Nat) (fromParked : Bool) : Ring :=
  match r.conflictFd c with
  | none => r
  | some fd =>
    r.write fd ((r.slots fd).map (r.slotAfterIssue c))
      (.issue (.op c) (r.kind c) (r.fillSqe c).fd fromParked)

/-- An SQE filled and accepted. -/
def fill (c : Nat) (fromParked : Bool) : Ring :=
  ((r.pushed c).charged c fromParked).noteIssue c fromParked

/-- `fill`, without the free that may follow. -/
def issue (c : Nat) (fromParked : Bool) : Ring :=
  ((r.pushed c).charged c fromParked).writeIssue c fromParked

/-- The success path of `enqueue_conflict` on a slot that is there. -/
def park (c : Nat) (fd : Int) (slot : Slot) : Ring :=
  let r := (r.takeParkRef c).setBits c fun b => { b with conflictQueued := true }
  (r.write fd (some { slot with fifo := slot.fifo ++ [c] }) (.park c)).noteAccepted c

/-- A nowait operation without a completion got its SQE. -/
def post (kind : Kind) (fd sqeFd : Int) (after : Option Slot) : Ring :=
  (r.push { data := .nowait kind fd, fd := sqeFd }).write fd after
    (.issue (.nowait kind fd) kind sqeFd false)

/-- The end of a `send_all` on its slot. -/
def releasedSlot (c : Nat) (slot : Slot) : Slot :=
  { slot with
    active := none
    abortive := slot.abortive || ((r.bits c).res < 0 && (r.bits c).skipAll)
    markedUnder := if slot.abortive then slot.markedUnder else none }

/-- The bits that a `send_all` has when its descriptor is released. -/
def ended (c : Nat) (decref : Bool) (res : Int) : Ring :=
  r.setBits c fun b => { b with auxDecref := b.auxDecref || decref, res := res }

/-- The bytes that a CQE of a `send_all` reports. -/
def advanced (c : Nat) (res : Int) : Ring :=
  r.setBits c fun b => { b with offset := b.offset + res.toNat }

/-- The SQE of a later leg and that of its timer. -/
def nextLeg (c : Nat) : Ring :=
  let r' := r.push (r.sendAllFillSqe c true)
  (if (r.bits c).timeout then (r'.push { data := .linkTimeout }).pendingInc else r').noteLeg c

/-! ## What the parts change -/

section Parts

variable {r : Ring}

theorem setBits_setBits (r : Ring) (c : Nat) (f g : Bits → Bits) :
    (r.setBits c f).setBits c g = r.setBits c (g ∘ f) := by
  simp [setBits]

theorem setBits_eq_self {c : Nat} {f : Bits → Bits} (h : f (r.bits c) = r.bits c) :
    r.setBits c f = r := by
  simp [setBits, h]

/-- `c` is a cancel of the `send_all` `t`. -/
def Abandons (r : Ring) (c t : Nat) : Prop :=
  r.kind c = .cancel ∧ (r.handle c).target = some t ∧ r.kind t = .sendAll

theorem abandonTarget_pos {c t : Nat} (h : r.Abandons c t) : r.abandonTarget c = r.abandonMark t := by
  rcases h with ⟨hc, ht, htkind⟩
  simp only [abandonTarget, hc, ht, htkind, if_true, abandonMark]

theorem abandonTarget_neg {c : Nat} (h : ¬ ∃ t, r.Abandons c t) : r.abandonTarget c = r := by
  unfold abandonTarget
  split
  · rename_i t hc ht
    split
    · rename_i htkind
      exact absurd ⟨t, hc, ht, htkind⟩ h
    · rfl
  · rfl

theorem abandonTarget_eq (r : Ring) (c : Nat) :
    r.abandonTarget c = r ∨ ∃ t, r.Abandons c t ∧ r.abandonTarget c = r.abandonMark t := by
  by_cases h : ∃ t, r.Abandons c t
  · rcases h with ⟨t, ht⟩
    exact .inr ⟨t, ht, abandonTarget_pos ht⟩
  · exact .inl (abandonTarget_neg h)

theorem abandonTarget_frame (r : Ring) (c : Nat) :
    (r.abandonTarget c).handle = r.handle ∧ (r.abandonTarget c).slots = r.slots ∧
      ∀ d, ∃ b, (r.abandonTarget c).bits d = { r.bits d with abandon := b } := by
  rcases abandonTarget_eq r c with heq | ⟨t, -, heq⟩
  · rw [heq]
    exact ⟨rfl, rfl, fun d => ⟨_, rfl⟩⟩
  · rw [heq]
    refine ⟨rfl, rfl, ?_⟩
    intro d
    by_cases hd : d = t
    · subst hd
      exact ⟨true, by simp [abandonMark]⟩
    · exact ⟨(r.bits d).abandon, by simp [abandonMark, hd]⟩

theorem stageACopyAbortive_cases (r : Ring) (c : Nat) :
    r.stageACopyAbortive c = (r, false) ∨
      r.stageACopyAbortive c = (r.setBits c fun b => { b with poison := true }, true) := by
  unfold stageACopyAbortive
  split
  · exact .inl rfl
  · split
    · exact .inl rfl
    · split
      · exact .inr rfl
      · exact .inl rfl

theorem stageACopyAbortive_frame (r : Ring) (c : Nat) :
    (r.stageACopyAbortive c).1.slots = r.slots ∧ (r.stageACopyAbortive c).1.kind = r.kind ∧
      (r.stageACopyAbortive c).1.handle = r.handle := by
  rcases stageACopyAbortive_cases r c with heq | heq
  · rw [heq]
    exact ⟨rfl, rfl, rfl⟩
  · rw [heq]
    exact ⟨rfl, rfl, rfl⟩

theorem abandonTarget_other {α : Type*} (r : Ring) (c : Nat) (p : Ring → α)
    (hp : ∀ r c f, p (setBits r c f) = p r) : p (r.abandonTarget c) = p r := by
  rcases abandonTarget_eq r c with heq | ⟨t, -, heq⟩
  · rw [heq]
  · rw [heq]
    exact hp _ _ _

theorem copyPoison_eq (r : Ring) (c : Nat) :
    ∃ p, r.copyPoison c = r.setBits c fun b => { b with poison := p } := by
  rcases stageACopyAbortive_cases r c with heq | heq
  · refine ⟨(r.bits c).poison, ?_⟩
    rw [copyPoison, heq]
    exact (setBits_eq_self rfl).symm
  · exact ⟨true, by rw [copyPoison, heq]⟩

/-- The SQEs that `pushed` adds. -/
def newSqes (r : Ring) (c : Nat) : List Sqe :=
  r.stampSqe c :: if (r.bits c).timeout then [{ data := .linkTimeout }] else []

theorem pushed_eq (r : Ring) (c : Nat) :
    r.pushed c =
      { r.abandonTarget c with
        sq := r.sq ++ r.newSqes c
        pendingCount := r.pendingCount + if (r.bits c).timeout then 1 else 0 } := by
  have hpush : (r.push (r.stampSqe c)).abandonTarget c = (r.abandonTarget c).push (r.stampSqe c) := by
    by_cases h : ∃ t, r.Abandons c t
    · rcases h with ⟨t, ht⟩
      rw [abandonTarget_pos (r := r.push (r.stampSqe c)) ht, abandonTarget_pos ht]
      rfl
    · rw [abandonTarget_neg (r := r.push (r.stampSqe c)) h, abandonTarget_neg h]
  have hsq : (r.abandonTarget c).sq = r.sq := abandonTarget_other r c Ring.sq (fun _ _ _ => rfl)
  have hpending : (r.abandonTarget c).pendingCount = r.pendingCount :=
    abandonTarget_other r c Ring.pendingCount (fun _ _ _ => rfl)
  rcases (abandonTarget_frame r c).2.2 c with ⟨b, hb⟩
  unfold pushed
  dsimp only
  rw [hpush]
  cases ht : (r.bits c).timeout with
  | true => simp [push, pendingInc, newSqes, hb, ht, hsq, hpending]
  | false => simp [push, newSqes, hb, ht, hsq, ← hpending]

/-- The reference that acceptance takes: one for a completion that counts and was not parked. -/
def newRef (r : Ring) (c : Nat) (fromParked : Bool) : Int :=
  if r.completionCountsPending c && !fromParked then 1 else 0

theorem charged_eq (r : Ring) (c : Nat) (fromParked : Bool) :
    r.charged c fromParked =
      { r with
        bits := update r.bits c
          { r.bits c with prepared := true, inFlight := (r.bits c).inFlight + r.newRef c fromParked }
        pendingCount := r.pendingCount + r.newRef c fromParked
        accepted := if fromParked then r.accepted else r.accepted ++ [c] } := by
  unfold charged newRef
  cases hp : fromParked with
  | true => simp [setBits]
  | false =>
    cases hc : r.completionCountsPending c with
    | true => simp [setBits, takeInFlightRef, pendingInc, noteAccepted]
    | false => simp [setBits, noteAccepted]

theorem park_eq (r : Ring) (c : Nat) (fd : Int) (slot : Slot) :
    r.park c fd slot =
      { r with
        bits := update r.bits c
          { r.bits c with
            conflictQueued := true, inFlight := (r.bits c).inFlight + r.newRef c false }
        slots := update r.slots fd (some { slot with fifo := slot.fifo ++ [c] })
        pendingCount := r.pendingCount + r.newRef c false
        log := r.log ++ [⟨fd, r.slots fd, some { slot with fifo := slot.fifo ++ [c] }, .park c⟩]
        accepted := r.accepted ++ [c] } := by
  unfold park takeParkRef newRef
  cases hc : r.completionCountsPending c with
  | true => simp [takeInFlightRef, setBits, pendingInc, write, noteAccepted]
  | false => simp [setBits, write, noteAccepted]

theorem completionCountsPending_pushed (r : Ring) (c d : Nat) :
    (r.pushed c).completionCountsPending d = r.completionCountsPending d := by
  rcases abandonTarget_frame r c with ⟨hhandle, -, hbits⟩
  rcases hbits d with ⟨b, hb⟩
  apply completionCountsPending_congr
  · rw [pushed_eq]
    exact hhandle
  · rw [pushed_eq]
    simp [hb]

section Issue

variable (r : Ring) (c : Nat) (fp : Bool)

theorem issue_eq_write :
    r.issue c fp =
      match r.conflictFd c with
      | none => (r.pushed c).charged c fp
      | some fd =>
        ((r.pushed c).charged c fp).write fd ((r.slots fd).map (r.slotAfterIssue c))
          (.issue (.op c) (r.kind c) (((r.pushed c).charged c fp).fillSqe c).fd fp) := by
  have hhandle : ((r.pushed c).charged c fp).handle = r.handle := by
    rw [charged_eq, pushed_eq]
    exact (abandonTarget_frame r c).1
  have hslots : ((r.pushed c).charged c fp).slots = r.slots := by
    rw [charged_eq, pushed_eq]
    exact (abandonTarget_frame r c).2.1
  have hfd : ((r.pushed c).charged c fp).conflictFd c = r.conflictFd c := by
    unfold conflictFd
    rw [hhandle]
  have hkind : ((r.pushed c).charged c fp).kind = r.kind := by
    unfold kind
    rw [hhandle]
  have hafter : ((r.pushed c).charged c fp).slotAfterIssue c = r.slotAfterIssue c := by
    funext slot
    unfold slotAfterIssue
    rw [hkind, hhandle]
  unfold issue writeIssue
  rw [hfd, hslots, hkind, hafter]

theorem issue_other {α : Type*} (p : Ring → α) (hp : ∀ r fd after cause, p (r.write fd after cause) = p r) :
    p (r.issue c fp) = p ((r.pushed c).charged c fp) := by
  rw [issue_eq_write]
  split
  · rfl
  · exact hp _ _ _ _

@[simp]
theorem issue_handle : (r.issue c fp).handle = r.handle := by
  rw [issue_other r c fp Ring.handle (fun _ _ _ _ => rfl), charged_eq, pushed_eq]
  exact (abandonTarget_frame r c).1

@[simp]
theorem issue_sq : (r.issue c fp).sq = r.sq ++ r.newSqes c := by
  rw [issue_other r c fp Ring.sq (fun _ _ _ _ => rfl), charged_eq, pushed_eq]

@[simp]
theorem issue_kernel : (r.issue c fp).kernel = r.kernel := by
  rw [issue_other r c fp Ring.kernel (fun _ _ _ _ => rfl), charged_eq, pushed_eq]
  exact abandonTarget_other r c Ring.kernel (fun _ _ _ => rfl)

@[simp]
theorem issue_staged : (r.issue c fp).staged = r.staged := by
  rw [issue_other r c fp Ring.staged (fun _ _ _ _ => rfl), charged_eq, pushed_eq]
  exact abandonTarget_other r c Ring.staged (fun _ _ _ => rfl)

@[simp]
theorem issue_built : (r.issue c fp).built = r.built := by
  rw [issue_other r c fp Ring.built (fun _ _ _ _ => rfl), charged_eq, pushed_eq]
  exact abandonTarget_other r c Ring.built (fun _ _ _ => rfl)

@[simp]
theorem issue_drainErrors : (r.issue c fp).drainErrors = r.drainErrors := by
  rw [issue_other r c fp Ring.drainErrors (fun _ _ _ _ => rfl), charged_eq, pushed_eq]
  exact abandonTarget_other r c Ring.drainErrors (fun _ _ _ => rfl)

theorem newRef_pushed : (r.pushed c).newRef c fp = r.newRef c fp := by
  unfold newRef
  rw [completionCountsPending_pushed]

theorem issue_pendingCount :
    (r.issue c fp).pendingCount =
      r.pendingCount + (if (r.bits c).timeout then 1 else 0) + r.newRef c fp := by
  rw [issue_other r c fp Ring.pendingCount (fun _ _ _ _ => rfl), charged_eq, newRef_pushed, pushed_eq]

theorem issue_accepted :
    (r.issue c fp).accepted = if fp then r.accepted else r.accepted ++ [c] := by
  have haccepted : (r.pushed c).accepted = r.accepted := by
    rw [pushed_eq]
    exact abandonTarget_other r c Ring.accepted (fun _ _ _ => rfl)
  rw [issue_other r c fp Ring.accepted (fun _ _ _ _ => rfl), charged_eq]
  simp only [haccepted]

theorem issue_bits :
    (r.issue c fp).bits = update (r.abandonTarget c).bits c
      { (r.abandonTarget c).bits c with
        prepared := true, inFlight := (r.bits c).inFlight + r.newRef c fp } := by
  have hbits : (r.pushed c).bits = (r.abandonTarget c).bits := by rw [pushed_eq]
  rcases (abandonTarget_frame r c).2.2 c with ⟨b, hb⟩
  rw [issue_other r c fp Ring.bits (fun _ _ _ _ => rfl), charged_eq, newRef_pushed]
  simp only [hbits, hb]

theorem issue_bits_self : ∃ a, (r.issue c fp).bits c =
    { r.bits c with
      abandon := a, prepared := true, inFlight := (r.bits c).inFlight + r.newRef c fp } := by
  rcases (abandonTarget_frame r c).2.2 c with ⟨a, ha⟩
  refine ⟨a, ?_⟩
  rw [issue_bits, update_self, ha]

theorem issue_bits_ne {d : Nat} (hd : d ≠ c) :
    ∃ a, (r.issue c fp).bits d = { r.bits d with abandon := a } := by
  rcases (abandonTarget_frame r c).2.2 d with ⟨a, ha⟩
  refine ⟨a, ?_⟩
  rw [issue_bits, update_of_ne hd, ha]

theorem issue_slots :
    (r.issue c fp).slots =
      match r.conflictFd c with
      | none => r.slots
      | some fd => update r.slots fd ((r.slots fd).map (r.slotAfterIssue c)) := by
  have hslots : ((r.pushed c).charged c fp).slots = r.slots := by
    rw [charged_eq, pushed_eq]
    exact (abandonTarget_frame r c).2.1
  rw [issue_eq_write]
  split
  · exact hslots
  · rw [write_slots, hslots]

theorem fillSqe_charged : (((r.pushed c).charged c fp).fillSqe c).fd = (r.fillSqe c).fd := by
  have hhandle : ((r.pushed c).charged c fp).handle = r.handle := by
    rw [charged_eq, pushed_eq]
    exact (abandonTarget_frame r c).1
  rcases (abandonTarget_frame r c).2.2 c with ⟨b, hb⟩
  have hpoison : (((r.pushed c).charged c fp).bits c).poison = (r.bits c).poison := by
    rw [charged_eq, pushed_eq]
    simp [hb]
  have habandon : r.kind c = .sendAll →
      (((r.pushed c).charged c fp).bits c).abandon = (r.bits c).abandon := by
    intro hkind
    have hnot : ¬ ∃ t, r.Abandons c t := by
      rintro ⟨t, hc, -⟩
      rw [hkind] at hc
      cases hc
    rw [charged_eq, pushed_eq, abandonTarget_neg hnot]
    simp
  have hkind : ((r.pushed c).charged c fp).kind c = r.kind c := by
    unfold kind
    rw [hhandle]
  have hsqe : ((r.pushed c).charged c fp).completionSqeFd c = r.completionSqeFd c := by
    unfold completionSqeFd
    rw [hpoison, hhandle]
  unfold fillSqe
  rw [hkind, hsqe, hhandle]
  split
  · rename_i hsend
    unfold sendAllFillSqe
    rw [habandon hsend, hsqe]
    split <;> rfl
  all_goals rfl

theorem issue_log :
    (r.issue c fp).log =
      match r.conflictFd c with
      | none => r.log
      | some fd =>
        r.log ++ [⟨fd, r.slots fd, (r.slots fd).map (r.slotAfterIssue c),
          .issue (.op c) (r.kind c) (r.fillSqe c).fd fp⟩] := by
  have hlog : ((r.pushed c).charged c fp).log = r.log := by
    rw [charged_eq, pushed_eq]
    exact abandonTarget_other r c Ring.log (fun _ _ _ => rfl)
  have hslots : ((r.pushed c).charged c fp).slots = r.slots := by
    rw [charged_eq, pushed_eq]
    exact (abandonTarget_frame r c).2.1
  rw [issue_eq_write]
  split
  · exact hlog
  · rw [write_log, hlog, hslots, fillSqe_charged]

end Issue

theorem copyPoison_other {α : Type*} (r : Ring) (c : Nat) (p : Ring → α)
    (hp : ∀ r c f, p (setBits r c f) = p r) : p (r.copyPoison c) = p r := by
  rcases copyPoison_eq r c with ⟨b, heq⟩
  rw [heq]
  exact hp _ _ _

@[simp]
theorem copyPoison_handle (r : Ring) (c : Nat) : (r.copyPoison c).handle = r.handle :=
  copyPoison_other r c Ring.handle fun _ _ _ => rfl

@[simp]
theorem copyPoison_slots (r : Ring) (c : Nat) : (r.copyPoison c).slots = r.slots :=
  copyPoison_other r c Ring.slots fun _ _ _ => rfl

@[simp]
theorem conflictFd_copyPoison (r : Ring) (c : Nat) : (r.copyPoison c).conflictFd = r.conflictFd := by
  unfold conflictFd
  rw [copyPoison_handle]

@[simp]
theorem conflictFd_issue (r : Ring) (c : Nat) (fp : Bool) : (r.issue c fp).conflictFd = r.conflictFd := by
  unfold conflictFd
  rw [issue_handle]

@[simp]
theorem kind_copyPoison (r : Ring) (c : Nat) : (r.copyPoison c).kind = r.kind := by
  unfold kind
  rw [copyPoison_handle]

theorem copyPoison_bits_self (r : Ring) (c : Nat) :
    ∃ p, (r.copyPoison c).bits c = { r.bits c with poison := p } := by
  rcases copyPoison_eq r c with ⟨p, heq⟩
  exact ⟨p, by simp [heq]⟩

theorem copyPoison_bits_ne (r : Ring) {c d : Nat} (hd : d ≠ c) :
    (r.copyPoison c).bits d = r.bits d := by
  rcases copyPoison_eq r c with ⟨p, heq⟩
  simp [heq, hd]

theorem popParked_eq {fd : Int} {slot : Slot} {c : Nat} {rest : List Nat} (hslot : r.slots fd = some slot)
    (hfifo : slot.fifo = c :: rest) :
    r.popParked fd = (r.write fd (some { slot with fifo := rest }) (.pop c)).setBits c
      fun b => { b with conflictQueued := false } := by
  simp only [popParked, hslot, hfifo]

@[simp]
theorem slotAfterIssue_fifo (r : Ring) (c : Nat) (slot : Slot) :
    (r.slotAfterIssue c slot).fifo = slot.fifo := by
  unfold slotAfterIssue
  split
  · rfl
  · split <;> rfl
  · rfl

theorem issue_slot {c : Nat} {fd : Int} {slot : Slot} (fp : Bool) (hfd : r.conflictFd c = some fd)
    (hslot : r.slots fd = some slot) :
    ((r.copyPoison c).issue c fp).slots fd = some (r.slotAfterIssue c slot) := by
  have hafter : (r.copyPoison c).slotAfterIssue c = r.slotAfterIssue c := by
    funext slot
    unfold slotAfterIssue
    rw [kind_copyPoison, copyPoison_handle]
  rw [issue_slots, conflictFd_copyPoison, hfd]
  simp [hslot, hafter]

end Parts

end Ring

/-- One change, with what the code has checked when it makes it. -/
inductive Change : Ring → Ring → Prop where
  | enter (r : Ring) (n : Nat) : Change r (r.enterKernel n)
  | abandon (r : Ring) (t : Nat) : r.kind t = .sendAll → Change r (r.abandonMark t)
  | opened (r : Ring) (fd : Int) : 0 ≤ fd → r.slots fd = none → Change r (r.write fd (some {}) .opened)
  | freed (r : Ring) (fd : Int) (slot : Slot) : r.slots fd = some slot → slot.abortive = false →
      slot.active = none → slot.fifo = [] → Change r (r.write fd none .freed)
  | parked (r : Ring) (c : Nat) (fd : Int) (slot : Slot) : (r.bits c).isAccepted = false →
      r.conflictFd c = some fd → r.slots fd = some slot → r.shouldEnqueueConflict c = true →
      Change r (r.park c fd slot)
  | filled (r : Ring) (c : Nat) : (r.bits c).isAccepted = false → constructedKindReady (r.handle c) = true →
      r.shouldEnqueueConflict c = false →
      (r.kind c = .sendAll → (r.slots (r.handle c).fd).isSome = true) →
      Change r ((r.copyPoison c).issue c false)
  | copied (r : Ring) (fd : Int) (slot : Slot) (c : Nat) (rest : List Nat) : r.slots fd = some slot →
      slot.fifo = c :: rest → (slot.active = none ∨ r.isCancelOfActive c slot = true) →
      Change r (((r.copyPoison c).issue c true).popParked fd)
  | poisoned (r : Ring) (fd : Int) (slot : Slot) (c : Nat) (rest : List Nat) : r.slots fd = some slot →
      slot.fifo = c :: rest → Change r (r.copyPoison c)
  | posted (r : Ring) (kind : Kind) (fd sqeFd : Int) (after : Option Slot) :
      r.nowaitFdOpMustPark fd = false →
      (kind = .close ∧ sqeFd = fd ∧ after = (r.slots fd).map (fun slot => { slot with abortive := false }) ∨
        kind = .shutdown ∧ sqeFd = (if r.idleAbortive fd then -1 else fd) ∧ after = r.slots fd) →
      Change r (r.post kind fd sqeFd after)
  | tagged (r : Ring) (kind : Kind) : kind = .cancel ∨ kind = .pollRemove →
      Change r (r.push { data := .nowait kind (-1) })
  | stranded (r : Ring) (e : Err) : Change r { r with drainErrors := r.drainErrors ++ [e] }

/-- A sequence of changes. -/
abbrev Changes : Ring → Ring → Prop :=
  Relation.ReflTransGen Change

end Pytealet.Uring
