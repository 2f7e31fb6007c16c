import Pytealet.Uring.Moves

/-!
# Orderly — what holds of every ring, and every step as a sequence of moves

`Ring.Orderly` holds of every reachable ring: the FIFOs and the queued bits agree, every SQE and CQE
of a completion is in one place, and an SQE says how many CQEs its completion may have.  Given it,
`step_cases` takes a step apart.
-/

namespace Pytealet.Uring

open List Bool

/-! ## How many CQEs a request may have -/

namespace Ring

variable {r r' : Ring}

theorem fillSqe_multi (r : Ring) (c : Nat) : (r.fillSqe c).multi = (r.life c).repeats := by
  have hmulti := (r.handle c).multishot_kind
  unfold fillSqe kind
  cases hk : (r.handle c).kind <;>
    simp_all [Kind.mayRepeat, sendAllFillSqe, Life.repeats, life, Life.of, isZeroCopySendKind]
  split <;> rfl

variable {sqe : Sqe} {r r' : Ring}

theorem flight_pos {c : Nat} (hm : sqe ∈ r.sq ++ r.kernel) (hdata : sqe.data = .op c) :
    0 < (r.life c).flight :=
  countP_pos_iff.2 ⟨sqe, hm, by simp [isOp, hdata]⟩

/-- The SQE says how many CQEs it may have. -/
def Tells (r : Ring) (sqe : Sqe) : Prop :=
  match sqe.data with
  | .op c => sqe.multi = (r.life c).repeats
  | .linkTimeout => sqe.multi = false
  | .nowait _ _ => True

theorem Tells.op {c : Nat} (h : r.Tells sqe) (hdata : sqe.data = .op c) :
    sqe.multi = (r.life c).repeats := by
  simpa [Tells, hdata] using h

theorem Tells.timer (h : r.Tells sqe) (hdata : sqe.data = .linkTimeout) : sqe.multi = false := by
  simpa [Tells, hdata] using h

def Multi (r : Ring) : Prop :=
  ∀ sqe ∈ r.sq ++ r.kernel, r.Tells sqe

theorem Multi.of (h : r.Multi) (hplaced : ∀ c, (r.life c).Placed)
    (hlife : ∀ c, (r.life c).Move (r'.life c))
    (hsqes : ∀ sqe ∈ r'.sq ++ r'.kernel, sqe ∈ r.sq ++ r.kernel ∨ r'.Tells sqe) : r'.Multi := by
  intro sqe hm
  rcases hsqes sqe hm with hold | hnew
  · have htells := h sqe hold
    unfold Tells at htells ⊢
    split at htells
    · rename_i c hdata
      rw [htells]
      exact ((hlife c).repeats_eq (hplaced c) (flight_pos hold hdata)).symm
    · exact htells
    · trivial
  · exact hnew

theorem newSqes_tells {c : Nat} (h : sqe ∈ r.newSqes c) (fp : Bool) : (r.issue c fp).Tells sqe := by
  unfold newSqes at h
  rcases mem_cons.1 h with rfl | htimer
  · by_cases hcounts : r.completionCountsPending c = true
    · have hstamp : r.stampSqe c = r.fillSqe c := by simp [stampSqe, hcounts]
      have hfill : (r.fillSqe c).data = .op c := by
        unfold fillSqe sendAllFillSqe
        split
        · split <;> rfl
        all_goals rfl
      rw [hstamp, Tells, hfill]
      dsimp only
      rw [fillSqe_multi, life_issue_self]
      rfl
    · simp [Tells, stampSqe, hcounts]
  · split at htimer
    · rw [mem_singleton.1 htimer]
      rfl
    · cases htimer

theorem mem_enterKernel {n : Nat} (h : sqe ∈ (r.enterKernel n).sq ++ (r.enterKernel n).kernel) :
    sqe ∈ r.sq ++ r.kernel := by
  simp only [enterKernel_sq, enterKernel_kernel, mem_append] at h ⊢
  rcases h with h | h | h
  · exact .inl (mem_of_mem_drop h)
  · exact .inr h
  · exact .inl (mem_of_mem_take h)

theorem mem_issue {c : Nat} {fp : Bool} (h : sqe ∈ (r.issue c fp).sq ++ (r.issue c fp).kernel) :
    sqe ∈ r.sq ++ r.kernel ∨ sqe ∈ r.newSqes c := by
  simp only [issue_sq, issue_kernel, mem_append] at h ⊢
  tauto

theorem mem_copyPoison {c : Nat} (h : sqe ∈ (r.copyPoison c).sq ++ (r.copyPoison c).kernel) :
    sqe ∈ r.sq ++ r.kernel := by
  rw [copyPoison_other r c Ring.sq fun _ _ _ => rfl, copyPoison_other r c Ring.kernel fun _ _ _ => rfl] at h
  exact h

end Ring

open Uring.Ring in
theorem Change.sqes {r r' : Ring} (hparked : r.Parked) (h : Change r r') (sqe : Sqe)
    (hm : sqe ∈ r'.sq ++ r'.kernel) :
    sqe ∈ r.sq ++ r.kernel ∨ r'.Tells sqe := by
  cases h with
  | enter n => exact .inl (mem_enterKernel hm)
  | abandon t _ => exact .inl hm
  | opened fd _ _ => exact .inl hm
  | freed fd slot _ _ _ _ => exact .inl hm
  | parked c fd slot _ _ _ _ =>
    rw [park_eq] at hm
    exact .inl hm
  | filled c _ _ _ _ =>
    rcases mem_issue hm with hold | hnew
    · exact .inl (mem_copyPoison hold)
    · exact .inr (newSqes_tells hnew false)
  | copied fd slot c rest hslot hfifo _ =>
    have hfd : r.conflictFd c = some fd := hparked.fd fd slot hslot c (by simp [hfifo])
    have hslot' := issue_slot true hfd hslot
    have hfifo' : (r.slotAfterIssue c slot).fifo = c :: rest := by simpa using hfifo
    have hlife : ∀ d, ((((r.copyPoison c).issue c true).popParked fd).life d).repeats =
        (((r.copyPoison c).issue c true).life d).repeats := by
      intro d
      rw [life_popParked hslot' hfifo']
      split <;> rfl
    rw [popParked_eq hslot' hfifo'] at hm
    rcases mem_issue hm with hold | hnew
    · exact .inl (mem_copyPoison hold)
    · have htells := newSqes_tells hnew true
      unfold Tells at htells ⊢
      refine .inr ?_
      split at htells
      · rw [hlife]
        exact htells
      · exact htells
      · trivial
  | poisoned fd slot c rest _ _ => exact .inl (mem_copyPoison hm)
  | posted kind fd sqeFd after _ _ =>
    simp only [post, write_sq, write_kernel, push_sq, push_kernel, mem_append, mem_singleton] at hm ⊢
    rcases hm with (hm | rfl) | hm
    · exact .inl (.inl hm)
    · exact .inr trivial
    · exact .inl (.inr hm)
  | tagged kind _ =>
    simp only [push_sq, push_kernel, mem_append, mem_singleton] at hm ⊢
    rcases hm with (hm | rfl) | hm
    · exact .inl (.inl hm)
    · exact .inr trivial
    · exact .inl (.inr hm)
  | stranded e => exact .inl hm

open Uring.Ring in
theorem Move.sqes {r r' : Ring} (hparked : r.Parked) (h : Move r r') (sqe : Sqe)
    (hm : sqe ∈ r'.sq ++ r'.kernel) :
    sqe ∈ r.sq ++ r.kernel ∨ r'.Tells sqe := by
  cases h with
  | change hc => exact hc.sqes hparked sqe hm
  | flags c success all _ => exact .inl hm
  | options c timeout multi => exact .inl hm
  | aborted c fd slot _ _ => exact .inl hm
  | silent i s hi _ =>
    simp only [mem_append] at hm ⊢
    exact .inl (hm.imp_right mem_of_mem_eraseIdx)
  | noted i s res _ _ => exact .inl hm
  | leg i s n hs hkind _ _ _ =>
    have hrep :
        ((((((r.took i s.c).advanced s.c s.res).enterKernel n).nextLeg s.c).life s.c)).repeats =
          false :=
      Life.repeats_of_sendAll (by
        rcases nextLeg_eq (((r.took i s.c).advanced s.c s.res).enterKernel n) s.c with ⟨entry, heq⟩
        rw [heq]
        exact hkind)
    rcases nextLeg_eq (((r.took i s.c).advanced s.c s.res).enterKernel n) s.c with ⟨entry, heq⟩
    have hm' : sqe ∈ (((r.took i s.c).advanced s.c s.res).enterKernel n).sq ++
        (((r.took i s.c).advanced s.c s.res).enterKernel n).kernel ∨
        sqe = (((r.took i s.c).advanced s.c s.res).enterKernel n).sendAllFillSqe s.c true ∨
        sqe = { data := .linkTimeout } := by
      rw [heq] at hm
      simp only [mem_append, mem_cons] at hm ⊢
      rcases hm with (hm | hm | hm) | hm
      · exact .inl (.inl hm)
      · exact .inr (.inl hm)
      · split at hm
        · exact .inr (.inr (mem_singleton.1 hm))
        · cases hm
      · exact .inl (.inr hm)
    rcases hm' with hold | rfl | rfl
    · exact .inl (mem_enterKernel hold)
    · exact .inr hrep.symm
    · exact .inr rfl
  | ended i s decref res _ _ _ => exact .inl hm
  | released c slot _ _ _ _ _ => exact .inl hm
  | finish i c _ =>
    rw [finishPackage_other _ c Ring.sq (fun _ _ _ => rfl) fun _ => rfl,
      finishPackage_other _ c Ring.kernel (fun _ _ _ => rfl) fun _ => rfl] at hm
    exact .inl hm

/-! ## The FIFOs in a move -/

open Uring.Ring in
theorem Ring.Parked.move {r r' : Ring} (h : r.Parked) (hm : Move r r') : r'.Parked := by
  have hcongr : ∀ {r₁ : Ring}, r₁.slots = r.slots → r₁.handle = r.handle →
      (∀ d, (r₁.life d).parked = (r.life d).parked) → r₁.Parked :=
    fun hslots hhandle hqueued => h.congr hslots hhandle hqueued
  cases hm with
  | change hc => exact h.change hc
  | flags c success all _ =>
    refine hcongr rfl rfl fun d => ?_
    rcases life_flags r c success all d with ⟨counts, heq⟩
    rw [heq]
    split <;> rfl
  | options c timeout multi =>
    refine hcongr rfl rfl fun d => ?_
    rw [life_options]
  | aborted c fd slot hslot _ =>
    refine h.write _ ?_
    intro slot' hslot'
    cases hslot'
    exact .inr ⟨slot, hslot, rfl⟩
  | silent i sqe _ _ => exact hcongr rfl rfl fun _ => rfl
  | noted i s res hs _ =>
    refine hcongr rfl rfl fun d => ?_
    rw [life_setRes, life_took hs]
    split <;> rfl
  | leg i s n hs _ _ _ _ =>
    rcases nextLeg_eq (((r.took i s.c).advanced s.c s.res).enterKernel n) s.c with ⟨entry, heq⟩
    have hslots := congrArg Ring.slots heq
    have hhandle := congrArg Ring.handle heq
    refine hcongr hslots hhandle fun d => ?_
    rw [life_nextLeg, life_enterKernel, life_advanced, life_took hs]
    split <;> rfl
  | ended i s decref res hs _ _ =>
    refine hcongr rfl rfl fun d => ?_
    rw [life_ended, life_advanced, life_took hs]
    split <;> rfl
  | released c slot _ hslot _ _ _ => exact release_parked h hslot
  | finish i c hc =>
    refine hcongr (finishPackage_other _ c Ring.slots (fun _ _ _ => rfl) fun _ => rfl)
      (finishPackage_other _ c Ring.handle (fun _ _ _ => rfl) fun _ => rfl) fun d => ?_
    rw [life_finishPackage hc]
    split
    · unfold Life.finished
      dsimp only
      split_ifs <;> rfl
    · rfl

/-! ## What every step relies on -/

structure Ring.Orderly (r : Ring) : Prop where
  parked : r.Parked
  placed : ∀ c, (r.life c).Placed
  multi : r.Multi

namespace Ring.Orderly

variable {r r' : Ring}

theorem init (entries : Nat) (makeRoom : Bool) (handle : Nat → Handle) :
    (Ring.init entries makeRoom handle).Orderly := by
  refine ⟨.init entries makeRoom handle, ?_, ?_⟩
  · intro c
    constructor <;> simp [Ring.init, Ring.life, Life.of, Ring.flight, Bits.isAccepted]
  · intro sqe hm
    simp [Ring.init] at hm

theorem unpoisoned (h : r.Orderly) (c : Nat) (hnew : (r.bits c).isAccepted = false) :
    (r.bits c).poison = false :=
  ((h.placed c).fresh hnew).2.1

theorem move (h : r.Orderly) (hm : Move r r') : r'.Orderly :=
  ⟨h.parked.move hm, fun c => (h.placed c).move (hm.life h.parked c),
    h.multi.of h.placed (hm.life h.parked) (hm.sqes h.parked)⟩

theorem moves (h : r.Orderly) (hm : Moves r r') : r'.Orderly := by
  induction hm with
  | refl => exact h
  | tail _ hm ih => exact ih.move hm

theorem prepare_changes (h : r.Orderly) (items : List (Option Nat × Fate)) :
    Changes r (r.prepare items).1 := by
  unfold Ring.prepare
  split
  · exact .refl
  · exact Ring.prepareConstructed_changes (fun r' hr' c => (h.moves hr'.moves).unpoisoned c) items

/-! ## A CQE is consumed -/

theorem life_cqe (h : r.Orderly) {i c : Nat} {sqe : Sqe} (hi : r.kernel[i]? = some sqe)
    (hdata : sqe.data = .op c) {res : Int} {more notif : Bool}
    (hanswer : kernelAnswers sqe res more notif = true) :
    (r.life c).Move ((r.life c).consumed more (r.isLast c res more notif)) := by
  have hmem : sqe ∈ r.sq ++ r.kernel := mem_append_right _ (mem_of_getElem? hi)
  simp only [kernelAnswers, and_eq_true, or_eq_true, not_eq_true'] at hanswer
  rcases hanswer with ⟨⟨hmore, hnotif⟩, -⟩
  have hmore' : more = true → (r.life c).repeats = true := by
    intro hm
    rw [← (h.multi sqe hmem).op hdata]
    exact hmore.resolve_left (by simp [hm])
  refine .cqe more _ (flight_pos hmem hdata) hmore' ?_ ?_ ?_
  · -- a last CQE has no `IORING_CQE_F_MORE`
    intro hlast
    by_contra hm
    have hrep := hmore' (by simpa using hm)
    unfold isLast at hlast
    cases hmulti : (r.handle c).multishot with
    | true => simp [hmulti, hm] at hlast
    | false =>
      have hzc : isZeroCopySendKind (r.kind c) = true ∧ (r.bits c).poison = false := by
        simpa [Life.repeats, Ring.life, Life.of, kind, hmulti] using hrep
      simp only [hmulti, Bool.false_eq_true, if_false, hzc.1, hzc.2, if_true, Bool.false_or] at hlast
      rcases hnotif with hn | hn
      · rw [hn] at hlast
        cases hlast
      · exact hm hn
  · intro hmulti
    have hmulti' : (r.handle c).multishot = true := hmulti
    simp [isLast, hmulti']
  · intro hzc hpoison
    have hzc' : isZeroCopySendKind (r.kind c) = true := hzc
    have hpoison' : (r.bits c).poison = true := hpoison
    have hmulti : (r.handle c).multishot = false := by
      cases hm : (r.handle c).multishot with
      | false => rfl
      | true =>
        have hrepeat := (r.handle c).multishot_kind hm
        unfold kind at hzc'
        cases hk : (r.handle c).kind <;> simp_all [Kind.mayRepeat, isZeroCopySendKind]
    simp [isLast, hmulti, hzc', hpoison']

theorem life_consumes (h : r.Orderly) {a : Act} (hc : Consumes r a r') (d : Nat) :
    (r.life d).Move (r'.life d) := by
  rcases hc with ⟨i, res, more, notif, sqe, -, hi, hanswer, rfl⟩
  cases hdata : sqe.data with
  | op c =>
    rw [life_consumeCqe_op hi hdata]
    split
    · rename_i hd
      subst hd
      exact h.life_cqe hi hdata hanswer
    · exact .change .keep
  | nowait kind fd =>
    rw [life_consumeCqe_other hi (by simp [hdata])]
    exact .change .keep
  | linkTimeout =>
    rw [life_consumeCqe_other hi (by simp [hdata])]
    exact .change .keep

theorem consumeCqe_frame (r : Ring) (i : Nat) (sqe : Sqe) (res : Int) (more notif : Bool) :
    ((r.answered i more).consumeCqe sqe res more notif).slots = r.slots ∧
      ((r.answered i more).consumeCqe sqe res more notif).handle = r.handle ∧
      ((r.answered i more).consumeCqe sqe res more notif).sq = r.sq ∧
      ((r.answered i more).consumeCqe sqe res more notif).kernel = (r.answered i more).kernel ∧
      ∀ d, (((r.answered i more).consumeCqe sqe res more notif).bits d).conflictQueued =
        (r.bits d).conflictQueued := by
  rcases answered_eq r i more with ⟨kernel, heq⟩
  rw [heq]
  unfold consumeCqe
  split
  · exact ⟨rfl, rfl, rfl, rfl, fun _ => rfl⟩
  · exact ⟨rfl, rfl, rfl, rfl, fun _ => rfl⟩
  · rename_i c _
    rw [completionPrepInFlightRef_eq]
    split
    · refine ⟨rfl, rfl, rfl, rfl, ?_⟩
      intro d
      by_cases hd : d = c
      · subst hd
        simp [completionAuxStageCqe]
      · simp [completionAuxStageCqe, hd]
    · exact ⟨rfl, rfl, rfl, rfl, fun _ => rfl⟩

theorem consumes (h : r.Orderly) {a : Act} (hc : Consumes r a r') : r'.Orderly := by
  have hlife := h.life_consumes hc
  rcases hc with ⟨i, res, more, notif, sqe, -, hi, hanswer, rfl⟩
  rcases consumeCqe_frame r i sqe res more notif with ⟨hslots, hhandle, hsq, hkernel, hbits⟩
  refine ⟨h.parked.congr hslots hhandle hbits, fun c => (h.placed c).move (hlife c),
    h.multi.of h.placed hlife ?_⟩
  intro sqe' hm
  rw [hsq, hkernel] at hm
  refine .inl ?_
  unfold answered at hm
  split at hm
  · exact hm
  · simp only [mem_append] at hm ⊢
    exact hm.imp_right mem_of_mem_eraseIdx

end Ring.Orderly

/-! ## Every step -/

open Uring.Ring in
theorem Ring.Ends.moves {r r' : Ring} (h : r.Orderly) {i : Nat} {s : Staged} (hs : r.staged[i]? = some s)
    (hkind : r.kind s.c = .sendAll) {decref : Bool}
    (hdecref : decref = false → s.res < 0 ∨ (r.advanced s.c s.res).sendAllRemaining s.c = 0 ∨
      s.res ≤ 0 ∧ (r.bits s.c).abandon = true)
    (hends : ((r.took i s.c).advanced s.c s.res).Ends s.c decref r') : Moves r r' := by
  rcases hends with ⟨n, res, fates, rfl⟩
  have hended : Move r (((r.took i s.c).advanced s.c s.res).ended s.c decref res) :=
    .ended r i s decref res hs hkind hdecref
  have henter : Moves r ((((r.took i s.c).advanced s.c s.res).enterKernel n).ended s.c decref res) :=
    .tail (.single hended) (.change (.enter _ n))
  have horderly := h.moves henter
  rcases sendAllReleaseActive_cases s.c horderly.parked fates with heq | ⟨slot, hslot, hactive, hdrain⟩
  · rw [heq]
    exact henter
  · -- the leg that is packaged was all that the `send_all` had
    have hone := (h.placed s.c).sendAll hkind
    have hpos : 0 < (r.life s.c).staged := countP_pos_iff.2 ⟨s, mem_of_getElem? hs, by simp⟩
    have hlife : ((((r.took i s.c).advanced s.c s.res).enterKernel n).ended s.c decref res).life s.c =
        { (r.life s.c).took with auxDecref := (r.life s.c).auxDecref || decref } := by
      rw [life_ended, life_enterKernel, life_advanced, life_took hs, if_pos rfl, if_pos rfl]
      rfl
    refine (henter.tail (.released _ s.c slot hkind hslot hactive ?_ ?_)).trans hdrain.moves
    · rw [hlife]
      simp only [Life.took]
      omega
    · rw [hlife]
      simp only [Life.took]
      omega

open Uring.Ring in
theorem build_moves {r : Ring} (h : r.Orderly) {i : Nat} {s : Staged} (hs : r.staged[i]? = some s)
    (fate : BuildFate) : Moves r ((r.took i s.c).buildCompletionResult s fate).1 := by
  have hkeep : r.kind s.c ≠ .sendAll → Moves r (r.took i s.c) := by
    intro hkind
    have hmove := Move.noted r i s (r.bits s.c).res hs hkind
    have hres : (r.took i s.c).setRes s.c (r.bits s.c).res = r.took i s.c := setBits_eq_self rfl
    rw [hres] at hmove
    exact .single hmove
  have hmulti : (r.handle s.c).multishot = true → r.kind s.c ≠ .sendAll := by
    intro hm hkind
    have hrepeat := (r.handle s.c).multishot_kind hm
    unfold kind at hkind
    simp [hkind, Kind.mayRepeat] at hrepeat
  unfold buildCompletionResult
  dsimp only
  split
  · rename_i hshell
    simp only [took_handle, and_eq_true] at hshell
    exact hkeep (hmulti hshell.1)
  · split
    · rename_i hkind
      have hkind' : r.kind s.c = .sendAll := hkind
      rcases sendAllOnCqe_cases (r.took i s.c) s.c s.res fate with
        ⟨n, heq, hres, hrest, habandon⟩ | ⟨decref, hends, hdecref⟩
      · rw [heq]
        exact .single (.leg r i s n hs hkind' hres hrest habandon)
      · exact hends.moves h hs hkind' hdecref
    · rename_i hkind
      have hkind' : r.kind s.c ≠ .sendAll := hkind
      split
      · exact hkeep hkind'
      · exact .single (.noted r i s s.res hs hkind')

/-- What one step is: a CQE is consumed, an operation is prepared or posted, a mark is set, a CQE is
packaged, or something changes that is not in the fd table. -/
inductive Part (r : Ring) (a : Act) : Ring → Prop where
  | consumed (r' : Ring) : Consumes r a r' → Part r a r'
  | changed (r' : Ring) : Changes r r' → Part r a r'
  | aborted (c : Nat) (fd : Int) (slot : Slot) : r.slots fd = some slot →
    c ∈ slot.fifo ∨ slot.active = some c →
      Part r a (r.write fd (some (Ring.abortedSlot slot)) (.abort c))
  | packaged (i : Nat) (s : Staged) (fate : BuildFate) : r.staged[i]? = some s →
      Part r a ((r.took i s.c).buildCompletionResult s fate).1
  | plain (r' : Ring) : Move r r' → r'.slots = r.slots → r'.drainErrors = r.drainErrors → Part r a r'

theorem abortPipeline_part (r : Ring) (a : Act) (c : Nat) (fd : Int) : Part r a (r.abortPipeline c fd) := by
  unfold Ring.abortPipeline
  split
  · exact .changed r .refl
  · rename_i slot hslot
    split
    · rename_i hmem
      exact .aborted c fd slot hslot hmem
    · exact .changed r .refl

open Uring.Ring in
theorem step_part {r r' : Ring} {a : Act} (h : r.Orderly) (hs : step r a = some r') : Part r a r' := by
  cases a with
  | setSkipSuccess c on =>
    simp only [step] at hs
    split at hs
    · rename_i hok
      cases hs
      exact .plain _ (.flags r c on (on && (r.bits c).skipAll) hok.1) rfl rfl
    · cases hs
  | setSkipAll c on =>
    simp only [step] at hs
    split at hs
    · rename_i hok
      cases hs
      exact .plain _ (.flags r c (on || (r.bits c).skipSuccess) on hok.1) rfl rfl
    · cases hs
  | setTimeout c on =>
    simp only [step] at hs
    split at hs
    · cases hs
      exact .plain _ (.options r c on (r.bits c).noDeliverMulti) rfl rfl
    · cases hs
  | setNoDeliverMulti c on =>
    simp only [step] at hs
    cases hs
    exact .plain _ (.options r c (r.bits c).timeout on) rfl rfl
  | prepare items =>
    simp only [step] at hs
    cases hs
    exact .changed _ (h.prepare_changes items)
  | directClose fd enter =>
    simp only [step] at hs
    cases hs
    exact .changed _ (tryDirectCloseNowait_changes r fd enter)
  | directShutdown fd enter =>
    simp only [step] at hs
    cases hs
    exact .changed _ (tryDirectShutdownNowait_changes r fd enter)
  | directCancel target enter =>
    simp only [step] at hs
    cases hs
    exact .changed _ (tryDirectCancelNowait_changes r target enter)
  | directPollRemove enter =>
    simp only [step] at hs
    cases hs
    exact .changed _ (tryDirectPollRemoveNowait_changes r enter)
  | submit taken =>
    simp only [step] at hs
    cases hs
    exact .changed _ (.single (.enter r taken))
  | abortQueue c fd =>
    simp only [step] at hs
    cases hs
    exact abortPipeline_part r _ c fd
  | cqe i res more notif =>
    simp only [step] at hs
    split at hs
    · cases hs
    · rename_i sqe hi
      split at hs
      · rename_i hanswer
        cases hs
        exact .consumed _ ⟨i, res, more, notif, sqe, rfl, hi, hanswer, rfl⟩
      · cases hs
  | silent i =>
    simp only [step] at hs
    split at hs
    · cases hs
    · rename_i sqe hi
      split at hs
      · rename_i hnowait
        cases hs
        exact .plain _ (.silent r i sqe hi hnowait) rfl rfl
      · cases hs
  | build i fate =>
    simp only [step] at hs
    split at hs
    · cases hs
    · rename_i s hi
      cases hs
      exact .packaged i s fate hi
  | finish i =>
    simp only [step] at hs
    split at hs
    · cases hs
    · rename_i c hi
      cases hs
      exact .plain _ (.finish r i c hi) (finishPackage_other _ c Ring.slots (fun _ _ _ => rfl) fun _ => rfl)
        (finishPackage_other _ c Ring.drainErrors (fun _ _ _ => rfl) fun _ => rfl)

theorem step_cases {r r' : Ring} {a : Act} (h : r.Orderly) (hs : step r a = some r') :
    Consumes r a r' ∨ Moves r r' := by
  cases step_part h hs with
  | consumed _ hc => exact .inl hc
  | changed _ hc => exact .inr hc.moves
  | aborted c fd slot hslot hmem => exact .inr (.single (.aborted r c fd slot hslot hmem))
  | packaged i s fate hi => exact .inr (build_moves h hi fate)
  | plain _ hm _ _ => exact .inr (.single hm)

theorem Ring.Orderly.step {r r' : Ring} {a : Act} (h : r.Orderly) (hs : step r a = some r') :
    r'.Orderly := by
  rcases step_cases h hs with hc | hm
  · exact h.consumes hc
  · exact h.moves hm

end Pytealet.Uring
