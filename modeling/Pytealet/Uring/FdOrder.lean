import Pytealet.Uring.Abortive

/-!
# FdOrder — conflicting operations of a descriptor keep their order

Operations on one descriptor that conflict get their SQEs in the order in which they were accepted,
none of them beside an active `send_all`, and none is left on a FIFO without one, unless the drain
of a FIFO failed.
-/

namespace Pytealet.Uring

open Lib.Transition Function List

/-- The conflicting operation that an entry accepts: it is parked, or it gets its SQE at once. -/
def Entry.accepts (handle : Nat → Handle) (e : Entry) : Option UserData :=
  match e.cause with
  | .park c => if completionKindConflicts (handle c).kind then some (.op c) else none
  | .issue op kind _ false => if completionKindConflicts kind then some op else none
  | _ => none

/-- The conflicting operation that an entry gives an SQE. -/
def Entry.issues (e : Entry) : Option UserData :=
  match e.cause with
  | .issue op kind _ _ => if completionKindConflicts kind then some op else none
  | _ => none

namespace Ring

variable {r r' : Ring}

def fifoOn (r : Ring) (fd : Int) : List Nat :=
  (r.slots fd).elim [] Slot.fifo

def activeOn (r : Ring) (fd : Int) : Option Nat :=
  (r.slots fd).bind Slot.active

/-- The conflicting operations on `fd` in the order of their acceptance. -/
def acceptedOn (r : Ring) (fd : Int) : List UserData :=
  (r.log.filter fun e => e.fd = fd).filterMap (Entry.accepts r.handle)

/-- The conflicting operations on `fd` in the order of their SQEs. -/
def issuedOn (r : Ring) (fd : Int) : List UserData :=
  (r.log.filter fun e => e.fd = fd).filterMap Entry.issues

/-- The conflicting operations on the FIFO of `fd`. -/
def waitingOn (r : Ring) (fd : Int) : List UserData :=
  ((r.fifoOn fd).filter fun c => completionKindConflicts (r.kind c)).map .op

/-- What was accepted has its SQE or waits, in this order. -/
def InOrder (r : Ring) : Prop :=
  ∀ fd, r.acceptedOn fd = r.issuedOn fd ++ r.waitingOn fd

/-- No conflicting operation gets an SQE while a `send_all` is active, except the legs of that
one. -/
def Exclusive (e : Entry) : Prop :=
  (e.issues ≠ none → e.before.bind Slot.active = none) ∧
    ∀ c sqeFd, e.cause = .leg c sqeFd → e.before.bind Slot.active = some c

/-- Operations wait on the FIFO of `fd`, and no `send_all` is there to drain it. -/
def Strands (r : Ring) (fd : Int) : Prop :=
  r.fifoOn fd ≠ [] ∧ r.activeOn fd = none
  deriving Decidable

/-! ## Order -/

namespace InOrder

theorem init (entries : Nat) (makeRoom : Bool) (handle : Nat → Handle) :
    (Ring.init entries makeRoom handle).InOrder := by
  intro fd
  rfl

variable {es : List Entry} {fd : Int}

theorem write (h : r.InOrder) (ht : Touches r es r') (hes : ∀ e ∈ es, e.fd = fd)
    (heq : r.waitingOn fd ++ es.filterMap (Entry.accepts r.handle) =
      es.filterMap Entry.issues ++ r'.waitingOn fd) : r'.InOrder := by
  intro fd'
  have hkind : r'.kind = r.kind := by
    unfold kind
    rw [ht.handle]
  unfold acceptedOn issuedOn
  rw [ht.log, ht.handle, filter_append, filterMap_append, filterMap_append]
  by_cases hfd : fd' = fd
  · subst hfd
    have hall : es.filter (fun e => decide (e.fd = fd')) = es := by
      rw [filter_eq_self]
      intro e he
      simpa using hes e he
    have hold := h fd'
    unfold acceptedOn issuedOn at hold
    rw [hall, hold, append_assoc, append_assoc, heq]
  · have hnone : es.filter (fun e => decide (e.fd = fd')) = [] := by
      rw [filter_eq_nil_iff]
      intro e he
      have hne : e.fd ≠ fd' := fun heq => hfd ((hes e he).symm.trans heq).symm
      simpa using hne
    have hother : r'.slots fd' = r.slots fd' := by
      rw [ht.slots]
      exact written_of_ne hes hfd
    have hold := h fd'
    unfold acceptedOn issuedOn at hold
    unfold waitingOn fifoOn at hold ⊢
    rw [hnone, hkind, hother]
    simpa using hold

theorem fifoOn_of_entry {e : Entry} (ht : Touches r [e] r') :
    r'.fifoOn e.fd = e.after.elim [] Slot.fifo := by
  unfold fifoOn
  rw [ht.slots]
  simp [written]

theorem waitingOn_of_fifo (ht : Touches r es r') {fifo : List Nat} (h : r'.fifoOn fd = fifo) :
    r'.waitingOn fd = (fifo.filter fun c => completionKindConflicts (r.kind c)).map .op := by
  unfold waitingOn kind
  rw [ht.handle, h]

theorem write_same (h : r.InOrder) {e : Entry} (ht : Touches r [e] r')
    (hfifo : e.after.elim [] Slot.fifo = r.fifoOn e.fd) (haccepts : e.accepts r.handle = none)
    (hissues : e.issues = none) : r'.InOrder := by
  refine h.write ht (fun e' he' => congrArg Entry.fd (mem_singleton.1 he')) ?_
  rw [waitingOn_of_fifo ht ((fifoOn_of_entry ht).trans hfifo)]
  simp [haccepts, hissues, waitingOn]

theorem write_issue (h : r.InOrder) {e : Entry} (ht : Touches r [e] r') {op : UserData}
    {kind : Kind} {sqeFd : Int}
    (hcause : e.cause = .issue op kind sqeFd false) (hfifo : e.after.elim [] Slot.fifo = r.fifoOn e.fd)
    (hempty : completionKindConflicts kind = true → r.fifoOn e.fd = []) : r'.InOrder := by
  cases hkind : completionKindConflicts kind with
  | false =>
    exact h.write_same ht hfifo (by simp [Entry.accepts, hcause, hkind])
      (by simp [Entry.issues, hcause, hkind])
  | true =>
    refine h.write ht (fun e' he' => congrArg Entry.fd (mem_singleton.1 he')) ?_
    have hnone := hempty hkind
    rw [waitingOn_of_fifo ht ((fifoOn_of_entry ht).trans (hfifo.trans hnone))]
    simp [waitingOn, hnone, Entry.accepts, Entry.issues, hcause, hkind]

theorem touch (h : r.InOrder) (ht : Touches r es r') : r'.InOrder := by
  have htouch := ht.touch
  cases htouch with
  | none =>
    have hnil : ∀ e ∈ ([] : List Entry), e.fd = 0 := by simp
    refine h.write ht hnil ?_
    have hsame : r'.fifoOn 0 = r.fifoOn 0 := by
      unfold fifoOn
      rw [ht.slots]
      rfl
    rw [waitingOn_of_fifo ht hsame]
    simp [waitingOn]
  | opened fd _ hslot => exact h.write_same ht (by simp [fifoOn, hslot]) rfl rfl
  | freed fd slot hslot _ _ hfifo => exact h.write_same ht (by simp [fifoOn, hslot, hfifo]) rfl rfl
  | parked c fd slot _ hslot _ =>
    refine h.write ht (fun e' he' => congrArg Entry.fd (mem_singleton.1 he')) ?_
    rw [waitingOn_of_fifo ht (fifoOn_of_entry ht)]
    by_cases hkind : completionKindConflicts (r.handle c).kind = true <;>
      simp [waitingOn, fifoOn, hslot, Entry.accepts, Entry.issues, kind, hkind]
  | issued c fd hfd hpark _ =>
    refine h.write_issue ht rfl ?_ ?_
    · cases hslot : r.slots fd <;> simp [fifoOn, hslot]
    · intro hkind
      cases hslot : r.slots fd with
      | none => simp [fifoOn, hslot]
      | some slot => simp [fifoOn, hslot, (idle_of_shouldEnqueueConflict hpark hfd hslot hkind).2]
  | copied c fd slot rest _ hslot hfifo _ =>
    -- the head of the FIFO gets its SQE and is popped
    have hrest : r'.fifoOn fd = rest := by
      unfold fifoOn
      rw [ht.slots]
      simp [written]
    refine h.write ht (fun e he => ?_) (?_ : _ ++ _ = _ ++ r'.waitingOn fd)
    · simp only [mem_cons, not_mem_nil, or_false] at he
      rcases he with rfl | rfl <;> rfl
    rw [waitingOn_of_fifo ht hrest]
    by_cases hkind : completionKindConflicts (r.kind c) = true <;>
      simp [waitingOn, fifoOn, hslot, hfifo, filterMap_cons, Entry.accepts, Entry.issues, hkind]
  | posted kind fd sqeFd after hpark hafter =>
    have hempty : r.fifoOn fd = [] := by
      cases hslot : r.slots fd with
      | none => simp [fifoOn, hslot]
      | some slot =>
        simp only [nowaitFdOpMustPark, hslot, Bool.or_eq_false_iff, decide_eq_false_iff_not, ne_eq,
          not_not] at hpark
        simp [fifoOn, hslot, hpark.2]
    refine h.write_issue ht rfl ?_ fun _ => hempty
    rcases hafter with ⟨-, -, rfl⟩ | ⟨-, -, rfl⟩
    · cases hslot : r.slots fd <;> simp [fifoOn, hslot]
    · rfl
  | aborted c fd slot hslot _ => exact h.write_same ht (by simp [fifoOn, hslot, abortedSlot]) rfl rfl
  | leg c _ _ => exact h.write_same ht rfl rfl rfl
  | released c slot _ hslot _ _ _ => exact h.write_same ht (by simp [fifoOn, hslot, releasedSlot]) rfl rfl

end InOrder

/-! ## Exclusion -/

theorem Exclusive.touch (hp : r.Pipeline) {es : List Entry} (ht : Touch r es) : ∀ e ∈ es, Exclusive e := by
  intro e he
  refine ⟨?_, ?_⟩
  · cases ht with
    | none => cases he
    | issued c fd hfd hpark _ =>
      rw [mem_singleton.1 he]
      intro hissues
      have hkind : completionKindConflicts (r.kind c) = true := by
        by_contra hkind
        simp [Entry.issues, hkind] at hissues
      cases hslot : r.slots fd with
      | none => rfl
      | some slot => exact (idle_of_shouldEnqueueConflict hpark hfd hslot hkind).1
    | copied c fd slot rest _ hslot _ hturn =>
      rcases mem_cons.1 he with rfl | he
      · intro hissues
        have hkind : completionKindConflicts (r.kind c) = true := by
          by_contra hkind
          simp [Entry.issues, hkind] at hissues
        simpa [hslot] using idle_of_turn hturn hkind
      · rw [mem_singleton.1 he]
        intro hissues
        exact absurd rfl hissues
    | posted kind fd sqeFd after hpark _ =>
      rw [mem_singleton.1 he]
      intro _
      cases hslot : r.slots fd with
      | none => rfl
      | some slot =>
        simp only [nowaitFdOpMustPark, hslot, Bool.or_eq_false_iff, decide_eq_false_iff_not, ne_eq,
          not_not] at hpark
        exact hpark.1
    | _ =>
      rw [mem_singleton.1 he]
      intro hissues
      exact absurd rfl hissues
  · intro c sqeFd hcause
    rcases (MarkRules.touch hp ht e he).leg c sqeFd hcause with ⟨slot, hbefore, hactive, -⟩
    rw [hbefore]
    exact hactive

/-! ## Nothing is stranded -/

/-- Without a failed drain up to `r'`, what is stranded in `r'` was stranded in `r`. -/
def Quiet (r r' : Ring) : Prop :=
  r'.drainErrors = [] → r.drainErrors = [] ∧ ∀ fd, r'.Strands fd → r.Strands fd

namespace Quiet

theorem refl (r : Ring) : Quiet r r :=
  fun h => ⟨h, fun _ => id⟩

theorem trans {r₁ : Ring} (h : Quiet r r₁) (h' : Quiet r₁ r') : Quiet r r' := by
  intro hnone
  rcases h' hnone with ⟨hmid, hstrands⟩
  exact ⟨(h hmid).1, fun fd hfd => (h hmid).2 fd (hstrands fd hfd)⟩

theorem of_slots (hslots : r'.slots = r.slots) (herrors : r'.drainErrors = r.drainErrors) : Quiet r r' := by
  intro hnone
  refine ⟨herrors ▸ hnone, ?_⟩
  intro fd
  unfold Strands fifoOn activeOn
  rw [hslots]
  exact id

theorem of_update {fd : Int} {after : Option Slot} (hslots : r'.slots = update r.slots fd after)
    (herrors : r'.drainErrors = r.drainErrors)
    (hafter : ∀ slot', after = some slot' → slot'.fifo ≠ [] → slot'.active = none →
      ∃ slot, r.slots fd = some slot ∧ slot.fifo ≠ [] ∧ slot.active = none) : Quiet r r' := by
  intro hnone
  refine ⟨herrors ▸ hnone, ?_⟩
  intro fd'
  unfold Strands fifoOn activeOn
  rw [hslots]
  by_cases hfd : fd' = fd
  · subst hfd
    rw [update_self]
    cases after with
    | none => simp
    | some slot' =>
      rintro ⟨hfifo, hactive⟩
      rcases hafter slot' rfl hfifo hactive with ⟨slot, hslot, hfifo', hactive'⟩
      simp [hslot, hfifo', hactive']
  · rw [update_of_ne hfd]
    exact id

theorem active_of_slotAfterIssue {c : Nat} {slot : Slot} (h : (r.slotAfterIssue c slot).active = none) :
    slot.active = none := by
  by_cases hsend : r.kind c = .sendAll
  · rw [slotAfterIssue_sendAll hsend] at h
    cases h
  · rw [(slotAfterIssue_other hsend slot).1] at h
    exact h

theorem issue (c : Nat) : Quiet r ((r.copyPoison c).issue c false) := by
  have herrors : ((r.copyPoison c).issue c false).drainErrors = r.drainErrors :=
    (issue_drainErrors _ c false).trans (copyPoison_other r c Ring.drainErrors fun _ _ _ => rfl)
  have hslots := issue_slots (r.copyPoison c) c false
  rw [conflictFd_copyPoison, copyPoison_slots] at hslots
  cases hfd : r.conflictFd c with
  | none =>
    rw [hfd] at hslots
    exact of_slots hslots herrors
  | some fd =>
    rw [hfd] at hslots
    refine of_update hslots herrors ?_
    intro slot' hslot' hfifo hactive
    rcases Option.map_eq_some_iff.1 hslot' with ⟨slot, hslot, rfl⟩
    rw [slotAfterIssue_fifo] at hfifo
    exact ⟨slot, hslot, hfifo, active_of_slotAfterIssue hactive⟩

theorem off_fifo_slots {fd : Int} {slot : Slot} {c : Nat} {rest : List Nat} (hp : r.Parked)
    (hslot : r.slots fd = some slot) (hfifo : slot.fifo = c :: rest) :
    (((r.copyPoison c).issue c true).popParked fd).slots =
      update r.slots fd (some { r.slotAfterIssue c slot with fifo := rest }) := by
  have hfd : r.conflictFd c = some fd := hp.fd fd slot hslot c (by simp [hfifo])
  have hslots := issue_slots (r.copyPoison c) c true
  rw [conflictFd_copyPoison, copyPoison_slots, hfd] at hslots
  rw [popParked_eq (issue_slot true hfd hslot) (by simpa using hfifo), setBits_slots, write_slots, hslots]
  exact update_idem _ _ _

theorem off_fifo {fd : Int} {slot : Slot} {c : Nat} {rest : List Nat} (hp : r.Parked)
    (hslot : r.slots fd = some slot) (hfifo : slot.fifo = c :: rest) :
    Quiet r (((r.copyPoison c).issue c true).popParked fd) := by
  have hfd : r.conflictFd c = some fd := hp.fd fd slot hslot c (by simp [hfifo])
  refine of_update (off_fifo_slots hp hslot hfifo) ?_ ?_
  · rw [popParked_eq (issue_slot true hfd hslot) (by simpa using hfifo), setBits_drainErrors,
      write_drainErrors, issue_drainErrors]
    exact copyPoison_other r c Ring.drainErrors fun _ _ _ => rfl
  · intro slot' hslot' _ hactive
    cases hslot'
    exact ⟨slot, hslot, by simp [hfifo], active_of_slotAfterIssue hactive⟩

theorem change (hp : r.Parked) (hc : Change r r') : Quiet r r' := by
  cases hc with
  | enter n => exact of_slots rfl rfl
  | abandon t _ => exact of_slots rfl rfl
  | opened fd _ _ =>
    refine of_update rfl rfl ?_
    intro slot' hslot' hfifo
    cases hslot'
    exact absurd rfl hfifo
  | freed fd slot _ _ _ _ => exact of_update rfl rfl (by simp)
  | parked c fd slot _ hfd hslot hpark =>
    have hslots := congrArg Ring.slots (park_eq r c fd slot)
    have herrors := congrArg Ring.drainErrors (park_eq r c fd slot)
    refine of_update hslots herrors ?_
    intro slot' hslot' _ hactive
    cases hslot'
    have hactive' : slot.active = none := hactive
    rcases shouldEnqueueConflict_eq_true hpark with ⟨fd', slot', hfd', hslot', hbusy⟩
    rw [hfd] at hfd'
    cases hfd'
    rw [hslot] at hslot'
    cases hslot'
    exact ⟨slot, hslot, hbusy.resolve_left (by simp [hactive']), hactive'⟩
  | filled c _ _ _ _ => exact issue c
  | copied fd slot c rest hslot hfifo _ => exact off_fifo hp hslot hfifo
  | poisoned fd slot c rest _ _ =>
    exact of_slots (copyPoison_slots r c) (copyPoison_other r c Ring.drainErrors fun _ _ _ => rfl)
  | posted kind fd sqeFd after _ hafter =>
    refine of_update rfl rfl ?_
    intro slot' hslot' hfifo hactive
    rcases hafter with ⟨-, -, rfl⟩ | ⟨-, -, rfl⟩
    · rcases Option.map_eq_some_iff.1 hslot' with ⟨slot, hslot, rfl⟩
      exact ⟨slot, hslot, hfifo, hactive⟩
    · exact ⟨slot', hslot', hfifo, hactive⟩
  | tagged kind _ => exact of_slots rfl rfl
  | stranded e =>
    intro hnone
    simp at hnone

theorem changes (hp : r.Parked) (hc : Changes r r') : Quiet r r' := by
  have hboth : Quiet r r' ∧ r'.Parked := by
    induction hc with
    | refl => exact ⟨refl r, hp⟩
    | tail _ hc ih => exact ⟨ih.1.trans (change ih.2 hc), ih.2.change hc⟩
  exact hboth.1

theorem tryFree_not_strands {fd : Int} (h : r.fifoOn fd = [] ∨ r.activeOn fd ≠ none) :
    ¬ (r.fdTableTryFree fd).Strands fd := by
  rcases fdTableTryFree_cases r fd with heq | ⟨slot, -, -, -, -, heq⟩
  · rw [heq]
    rintro ⟨hfifo, hactive⟩
    exact h.elim hfifo fun hbusy => hbusy hactive
  · rw [heq]
    rintro ⟨hfifo, -⟩
    simp [fifoOn] at hfifo

theorem drainFdSlot_empties (fd : Int) (n : Nat) (hp : r.Parked) (hn : (r.fifoOn fd).length ≤ n)
    (fates : List Fate) :
    (drainFdSlot fd n r fates).1.drainErrors = [] → ¬ (drainFdSlot fd n r fates).1.Strands fd := by
  induction n generalizing r fates with
  | zero =>
    intro _
    exact tryFree_not_strands (.inl (length_eq_zero_iff.1 (Nat.le_zero.1 hn)))
  | succ n ih =>
    -- the induction is on the passes that are left, as many as the FIFO is long
    unfold drainFdSlot
    split
    · rename_i hslot
      intro _
      simp [Strands, fifoOn, hslot]
    · rename_i slot hslot
      split
      · rename_i hfifo
        intro _
        exact tryFree_not_strands (.inl (by simp [fifoOn, hslot, hfifo]))
      · rename_i c rest hfifo
        split
        · rename_i hbusy
          intro _
          exact tryFree_not_strands (.inr (by simpa [activeOn, hslot] using hbusy.1))
        · rename_i hturn
          have hfd : r.conflictFd c = some fd := hp.fd fd slot hslot c (by simp [hfifo])
          have hturn' : slot.active = none ∨ r.isCancelOfActive c slot = true := by
            by_contra hbusy
            simp only [not_or, Bool.not_eq_true] at hbusy
            exact hturn hbusy
          rcases prepareParked_cases hfd hslot (by simp [hfifo]) (fates.headD {}) with
            ⟨k, heq⟩ | ⟨e, r', heq, -⟩
          · rw [heq]
            have hp' : (r.enterKernel k).Parked := hp.change (.enter r k)
            have hslots := off_fifo_slots (r := r.enterKernel k) hp' hslot hfifo
            refine ih (hp'.change (.copied _ fd slot c rest hslot hfifo hturn')) ?_ _
            simp only [fifoOn, hslots, update_self]
            simp only [fifoOn, hslot, Option.elim_some, hfifo, length_cons] at hn
            exact Nat.le_of_succ_le_succ hn
          · rw [heq]
            intro hnone
            simp at hnone

theorem sendAllReleaseActive (c : Nat) (hp : r.Parked) (fates : List Fate) :
    Quiet r (r.sendAllReleaseActive c fates).1 := by
  unfold Ring.sendAllReleaseActive
  dsimp only
  split
  · exact refl r
  · rename_i slot hslot
    split
    · -- what is stranded on another descriptor was so; on this one the drain has taken it
      have hother : ∀ {r₁ : Ring}, Changes (r.release c slot) r₁ →
          (r₁.drainErrors = [] → ¬ r₁.Strands (r.handle c).fd) → Quiet r r₁ := by
        intro r₁ hc hfd hnone
        rcases changes (release_parked hp hslot) hc hnone with ⟨hmid, hstrands⟩
        refine ⟨hmid, fun fd' hfd' => ?_⟩
        have hne : fd' ≠ (r.handle c).fd := by
          rintro rfl
          exact hfd hnone hfd'
        have hrelease := hstrands fd' hfd'
        simpa only [Strands, fifoOn, activeOn, release, write_slots, update_of_ne hne] using hrelease
      split
      · rename_i hfifo
        refine hother (fdTableTryFree_changes (r.release c slot) _) fun _ => tryFree_not_strands (.inl ?_)
        simp [fifoOn, hfifo]
      · refine hother (drainFdSlot_changes _ _ (release_parked hp hslot) fates) ?_
        refine drainFdSlot_empties _ _ (release_parked hp hslot) (Nat.le_of_eq ?_) fates
        simp [fifoOn, release, releasedSlot]
    · exact refl r

theorem packaged (ho : r.Orderly) {i : Nat} {s : Staged} (hs : r.staged[i]? = some s) (fate : BuildFate) :
    Quiet r ((r.took i s.c).buildCompletionResult s fate).1 := by
  unfold buildCompletionResult
  dsimp only
  split
  · exact of_slots rfl rfl
  · split
    · rename_i hkind
      rcases sendAllOnCqe_cases (r.took i s.c) s.c s.res fate with
        ⟨n, heq, -, -, -⟩ | ⟨decref, ⟨n, res, fates, heq⟩, hdecref⟩
      · rw [heq]
        rcases nextLeg_eq (((r.took i s.c).advanced s.c s.res).enterKernel n) s.c with ⟨entry, hleg⟩
        have hslots := congrArg Ring.slots hleg
        have herrors := congrArg Ring.drainErrors hleg
        exact of_slots hslots herrors
      · rw [heq]
        have hmoves : Moves r ((((r.took i s.c).advanced s.c s.res).enterKernel n).ended s.c decref res) :=
          .tail (.single (.ended r i s decref res hs hkind hdecref)) (.change (.enter _ n))
        have hended : Quiet r ((((r.took i s.c).advanced s.c s.res).enterKernel n).ended s.c decref res) :=
          of_slots rfl rfl
        exact hended.trans (sendAllReleaseActive s.c (ho.moves hmoves).parked fates)
    · split
      · exact of_slots rfl rfl
      · exact of_slots rfl rfl

theorem consumes {a : Act} (hc : Consumes r a r') : Quiet r r' := by
  rcases hc with ⟨i, res, more, notif, sqe, -, -, -, rfl⟩
  refine of_slots (Orderly.consumeCqe_frame r i sqe res more notif).1 ?_
  rcases answered_eq r i more with ⟨kernel, heq⟩
  rw [heq]
  unfold consumeCqe
  split
  · rfl
  · rfl
  · rw [completionPrepInFlightRef_eq]
    split <;> rfl

theorem step {a : Act} (ho : r.Orderly) (hs : step r a = some r') : Quiet r r' := by
  cases step_part ho hs with
  | consumed _ hc => exact consumes hc
  | changed _ hc => exact changes ho.parked hc
  | aborted c fd slot hslot _ =>
    refine of_update rfl rfl ?_
    intro slot' hslot' hfifo hactive
    cases hslot'
    exact ⟨slot, hslot, hfifo, hactive⟩
  | packaged i s fate hi => exact packaged ho hi fate
  | plain _ _ hslots herrors => exact of_slots hslots herrors

end Quiet

/-! ## Whole runs -/

/-- The history keeps the order and the exclusion. -/
structure Ranked (r : Ring) : Prop where
  order : r.InOrder
  exclusive : ∀ e ∈ r.log, Exclusive e

namespace Ranked

theorem touch (h : r.Ranked) (hp : r.Pipeline) {es : List Entry} (ht : Touches r es r') : r'.Ranked := by
  refine ⟨h.order.touch ht, ?_⟩
  intro e he
  rw [ht.log] at he
  rcases mem_append.1 he with hold | hnew
  · exact h.exclusive e hold
  · exact Exclusive.touch hp ht.touch e hnew

theorem moves (h : r.Ranked) (hr : r.Recorded) (hm : Moves r r') : r'.Ranked := by
  induction hm with
  | refl => exact h
  | tail hrest hm ih =>
    have hmid := hr.moves hrest
    rcases Touches.move hmid.orderly hm with ⟨es, ht⟩
    exact ih.touch hmid.pipeline ht

theorem step {a : Act} (h : r.Ranked) (hr : r.Recorded) (hs : step r a = some r') : r'.Ranked := by
  rcases step_cases hr.orderly hs with hc | hm
  · rcases Touches.consumes hr.orderly hc with ⟨es, ht⟩
    exact h.touch hr.pipeline ht
  · exact h.moves hr hm

end Ranked

/-- Order and exclusion, and no operation is stranded before a drain has failed. -/
structure FdOrdered (r : Ring) : Prop extends Ranked r where
  drained : r.drainErrors = [] → ∀ fd, ¬ r.Strands fd

theorem FdOrdered.init (entries : Nat) (makeRoom : Bool) (handle : Nat → Handle) :
    (Ring.init entries makeRoom handle).FdOrdered := by
  refine ⟨⟨.init entries makeRoom handle, ?_⟩, ?_⟩
  · intro e he
    simp [Ring.init] at he
  · rintro _ fd ⟨hfifo, -⟩
    simp [Ring.init, fifoOn] at hfifo

/-- The operations of a descriptor are issued as they were prepared, and none is stranded. -/
theorem FdOrdered.step {a : Act} (h : r.FdOrdered) (hr : r.Recorded) (hs : step r a = some r') :
    r'.FdOrdered := by
  refine ⟨h.toRanked.step hr hs, ?_⟩
  intro hnone fd hstrands
  rcases Quiet.step hr.orderly hs hnone with ⟨hbefore, hquiet⟩
  exact h.drained hbefore fd (hquiet fd hstrands)

end Ring

/-- In every state of every run the conflicting operations of a descriptor have their SQEs in the
order of their acceptance, none beside an active `send_all`, and until a drain fails a FIFO has an
active `send_all`. -/
theorem conflicting_operations_in_order (entries : Nat) (makeRoom : Bool) (handle : Nat → Handle)
    (as : List Act) : Always step Ring.FdOrdered (Ring.init entries makeRoom handle) as := by
  have hstep : ∀ r a r', (Ring.Recorded r ∧ r.FdOrdered) → step r a = some r' →
      (Ring.Recorded r' ∧ r'.FdOrdered) := by
    rintro r a r' ⟨hr, h⟩ hs
    exact ⟨hr.step hs, h.step hr hs⟩
  exact always_of_invariant (fun _ h => h.2) hstep as _
    ⟨.init entries makeRoom handle, .init entries makeRoom handle⟩

/-- The timer of a shutdown behind a `send_all` finds no memory when the FIFO is drained. -/
def timerWithoutMemory : List Act :=
  [.setTimeout 1 true, .prepare [(some 0, {}), (some 1, {})], .submit 4, .cqe 0 10 false false,
    .build 0 { drain := [{ timer := false }] }, .finish 0]

/-- No enter of a drain has failed, and the shutdown waits with nothing to drain it. -/
theorem shutdown_stranded :
    let r := Ring.init 4 true fun c => if c = 0 then { kind := .sendAll, fd := 3, length := 10 }
      else { kind := .shutdown, fd := 3 }
    (exec step r timerWithoutMemory).map (fun r => (r.slots 3, r.drainErrors)) =
        some (some { fifo := [1] }, [.noMemory]) ∧
      ¬ Always step (fun r => Err.enter ∉ r.drainErrors → ¬ r.Strands 3) r timerWithoutMemory := by
  decide

end Pytealet.Uring
