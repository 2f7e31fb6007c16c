import Mathlib.Algebra.BigOperators.Group.List.Basic
import Mathlib.Algebra.Order.Ring.Int
import Pytealet.Uring.Orderly

/-!
# Ledger — what the pending count is made of

`pending_count` is the sum of the in-flight references of the accepted completions and the number of
link timeouts that owe a CQE.  This holds of every ring, whatever the kernel answers; whether a
completion holds one reference, none, or a wrong number is the subject of `InFlight`.
-/

namespace Pytealet.Uring

open List Bool

namespace Ring

variable {r r' : Ring}

def isTimer (sqe : Sqe) : Bool :=
  sqe.data = .linkTimeout

/-- The link-timeout SQEs whose CQE has not been consumed. -/
def timers (r : Ring) : Nat :=
  (r.sq ++ r.kernel).countP isTimer

theorem timers_enterKernel (r : Ring) (n : Nat) : (r.enterKernel n).timers = r.timers := by
  have hsplit : (r.sq.take n).countP isTimer + (r.sq.drop n).countP isTimer = r.sq.countP isTimer := by
    rw [← countP_append, take_append_drop]
  simp only [timers, enterKernel_sq, enterKernel_kernel, countP_append]
  omega

theorem countP_isTimer_timer (t : Bool) :
    (if t then [({ data := .linkTimeout } : Sqe)] else []).countP isTimer = if t then 1 else 0 := by
  cases t <;> rfl

theorem timers_issue (r : Ring) (c : Nat) (fp : Bool) :
    (r.issue c fp).timers = r.timers + if (r.bits c).timeout then 1 else 0 := by
  have hdata : (r.fillSqe c).data = .op c := by
    unfold fillSqe sendAllFillSqe
    split
    · split <;> rfl
    all_goals rfl
  have hstamp : isTimer (r.stampSqe c) = false := by
    unfold stampSqe isTimer
    split
    · simp [hdata]
    · simp
  simp only [timers, issue_sq, issue_kernel, countP_append, newSqes, countP_cons,
    countP_isTimer_timer, hstamp, false_eq_true, if_false]
  omega

theorem timers_push_nowait (r : Ring) (kind : Kind) (fd sqeFd : Int) :
    (r.push { data := .nowait kind fd, fd := sqeFd }).timers = r.timers := by
  simp [timers, countP_append, isTimer]

theorem timers_nextLeg (r : Ring) (c : Nat) :
    (r.nextLeg c).timers = r.timers + if (r.bits c).timeout then 1 else 0 := by
  rcases nextLeg_eq r c with ⟨entry, heq⟩
  have hleg : isTimer (r.sendAllFillSqe c true) = false := by simp [isTimer, sendAllFillSqe]
  rw [heq]
  simp only [timers, countP_append, countP_cons, countP_isTimer_timer, hleg, false_eq_true,
    if_false]
  omega

theorem timers_silent {i : Nat} {sqe : Sqe} (h : r.kernel[i]? = some sqe) :
    { r with kernel := r.kernel.eraseIdx i }.timers + (if isTimer sqe then 1 else 0) = r.timers := by
  have hcount := countP_eraseIdx h isTimer
  simp only [timers, countP_append]
  omega

theorem copyPoison_frame (r : Ring) (c : Nat) :
    (r.copyPoison c).accepted = r.accepted ∧ (r.copyPoison c).pendingCount = r.pendingCount ∧
      (r.copyPoison c).timers = r.timers :=
  ⟨copyPoison_other r c Ring.accepted fun _ _ _ => rfl,
    copyPoison_other r c Ring.pendingCount fun _ _ _ => rfl,
    copyPoison_other r c Ring.timers fun _ _ _ => rfl⟩

/-! ## The ledger -/

/-- The in-flight references of the accepted completions. -/
def references (r : Ring) : Int :=
  (r.accepted.map fun c => (r.life c).inFlight).sum

/-- The pending count is of the references of accepted operations, and of the timers. -/
structure Ledger (r : Ring) : Prop where
  nodup : r.accepted.Nodup
  mem : ∀ c, c ∈ r.accepted ↔ (r.life c).accepted = true
  total : r.pendingCount = r.references + r.timers

theorem references_eq {l : List Nat} {f g : Nat → Int} (h : ∀ c ∈ l, g c = f c) :
    (l.map g).sum = (l.map f).sum := by
  rw [map_congr_left h]

theorem sum_map_of_ne {l : List Nat} {f g : Nat → Int} {c : Nat} (hnodup : l.Nodup) (hc : c ∈ l)
    (hne : ∀ d, d ≠ c → g d = f d) : (l.map g).sum = (l.map f).sum + (g c - f c) := by
  induction l with
  | nil => cases hc
  | cons d l ih =>
    rcases nodup_cons.1 hnodup with ⟨hd, hnodup'⟩
    simp only [map_cons, sum_cons]
    rcases mem_cons.1 hc with rfl | hc'
    · have hrest : (l.map g).sum = (l.map f).sum := by
        apply references_eq
        intro e he
        exact hne e fun h => hd (h ▸ he)
      omega
    · have hrest := ih hnodup' hc'
      have hdc : d ≠ c := fun h => hd (h ▸ hc')
      have hd' := hne d hdc
      omega

namespace Ledger

theorem init (entries : Nat) (makeRoom : Bool) (handle : Nat → Handle) :
    (Ring.init entries makeRoom handle).Ledger := by
  refine ⟨by simp [Ring.init], ?_, by simp [Ring.init, references, timers]⟩
  intro c
  simp [Ring.init, life, Life.of, Bits.isAccepted]

theorem congr (h : r.Ledger) (haccepted : r'.accepted = r.accepted)
    (hlife : ∀ c, (r'.life c).accepted = (r.life c).accepted ∧ (r'.life c).inFlight = (r.life c).inFlight)
    (hpending : r'.pendingCount - r'.timers = r.pendingCount - r.timers) : r'.Ledger := by
  refine ⟨haccepted ▸ h.nodup, ?_, ?_⟩
  · intro c
    rw [haccepted, (hlife c).1]
    exact h.mem c
  · have hrefs : r'.references = r.references := by
      unfold references
      rw [haccepted]
      exact references_eq fun c _ => (hlife c).2
    have htotal := h.total
    omega

theorem accept (h : r.Ledger) {c : Nat} (hnew : (r.life c).accepted = false)
    (haccepted : r'.accepted = r.accepted ++ [c]) (hc : (r'.life c).accepted = true)
    (hlife : ∀ d, d ≠ c → r'.life d = r.life d)
    (hpending : r'.pendingCount - r'.timers - (r'.life c).inFlight = r.pendingCount - r.timers) :
    r'.Ledger := by
  have hnot : c ∉ r.accepted := by
    intro hmem
    rw [(h.mem c).1 hmem] at hnew
    cases hnew
  have hne : ∀ d ∈ r.accepted, d ≠ c := fun d hd heq => hnot (heq ▸ hd)
  refine ⟨?_, ?_, ?_⟩
  · rw [haccepted]
    exact List.Nodup.append h.nodup (nodup_singleton c) (by simpa using hnot)
  · intro d
    rw [haccepted, mem_append, mem_singleton, h.mem]
    by_cases hd : d = c
    · subst hd
      simp [hc]
    · simp [hd, hlife d hd]
  · have hrefs : r'.references = r.references + (r'.life c).inFlight := by
      unfold references
      rw [haccepted, map_append, sum_append]
      simp only [map_cons, map_nil, sum_cons, sum_nil, Int.add_zero]
      rw [references_eq fun d hd => by rw [hlife d (hne d hd)]]
    have htotal := h.total
    omega

theorem change (h : r.Ledger) (ho : r.Orderly) (hc : Change r r') : r'.Ledger := by
  have hkeep : ∀ {r₁ : Ring}, r₁.accepted = r.accepted → (∀ c, r₁.life c = r.life c) →
      r₁.pendingCount = r.pendingCount → r₁.timers = r.timers → r₁.Ledger := by
    intro r₁ haccepted hlife hpending htimers
    refine h.congr haccepted (fun c => ?_) (by omega)
    rw [hlife c]
    exact ⟨rfl, rfl⟩
  have hnone : ∀ {c : Nat}, (r.bits c).isAccepted = false → (r.life c).inFlight = 0 := by
    intro c hnew
    rcases (ho.placed c).fresh hnew with ⟨-, -, -, -, -, -, -, hzero, -⟩
    exact hzero
  cases hc with
  | enter n => exact hkeep rfl (life_enterKernel r n) rfl (timers_enterKernel r n)
  | abandon t _ =>
    refine hkeep rfl (fun c => life_congr rfl ?_ rfl rfl rfl) rfl rfl
    by_cases hd : c = t
    · subst hd
      exact ⟨true, by simp [abandonMark]⟩
    · exact ⟨(r.bits c).abandon, by simp [abandonMark, hd]⟩
  | opened fd _ _ => exact hkeep rfl (fun _ => rfl) rfl rfl
  | freed fd slot _ _ _ _ => exact hkeep rfl (fun _ => rfl) rfl rfl
  | parked c fd slot hnew _ _ _ =>
    have hin := hnone hnew
    have htimers : (r.park c fd slot).timers = r.timers := by
      rw [park_eq]
      rfl
    have hpending : (r.park c fd slot).pendingCount = r.pendingCount + (r.life c).ref := by
      rw [park_eq, newRef_eq_ref]
    refine h.accept hnew (by rw [park_eq]) ?_ ?_ ?_
    · rw [life_park, if_pos rfl]
    · intro d hd
      rw [life_park, if_neg hd]
    · rw [life_park, if_pos rfl]
      dsimp only
      omega
  | filled c hnew _ _ _ =>
    have hin := hnone hnew
    have hp := life_copyPoison_self r c
    rcases copyPoison_frame r c with ⟨haccepted, hpending, htimers⟩
    have htimers' := timers_issue (r.copyPoison c) c false
    have hpending' := issue_pendingCount (r.copyPoison c) c false
    refine h.accept hnew ?_ ?_ ?_ ?_
    · rw [issue_accepted, haccepted]
      rfl
    · rw [life_issue_self]
    · intro d hd
      rw [life_issue_ne _ hd, life_copyPoison_ne r hd]
    · rw [life_issue_self, hp]
      dsimp only
      split_ifs at htimers' hpending' <;> omega
  | copied fd slot c rest hslot hfifo _ =>
    have hfd : r.conflictFd c = some fd := ho.parked.fd fd slot hslot c (by simp [hfifo])
    have hslot' := issue_slot true hfd hslot
    have hfifo' : (r.slotAfterIssue c slot).fifo = c :: rest := by simpa using hfifo
    have hqueued : (r.life c).parked = true := ho.parked.queued fd slot hslot c (by simp [hfifo])
    have hp := life_copyPoison_self r c
    rcases copyPoison_frame r c with ⟨haccepted, hpending, htimers⟩
    have htimers' := timers_issue (r.copyPoison c) c true
    have hpending' := issue_pendingCount (r.copyPoison c) c true
    have href : (r.copyPoison c).newRef c true = 0 := by simp [newRef]
    have hpop := popParked_eq hslot' hfifo'
    have hpop₁ := congrArg Ring.accepted hpop
    have hpop₂ := congrArg Ring.pendingCount hpop
    have hpop₃ := congrArg Ring.timers hpop
    refine h.congr (hpop₁.trans ?_) ?_ ?_
    · rw [setBits_accepted, write_accepted, issue_accepted]
      exact haccepted
    · intro d
      rw [life_popParked hslot' hfifo']
      by_cases hd : d = c
      · subst hd
        rcases issue_bits_self (r.copyPoison d) d true with ⟨a, ha⟩
        rw [if_pos rfl, life_issue_self, hp, href, ha, (ho.placed d).accepted_of_pos (.inl hqueued)]
        exact ⟨rfl, Int.add_zero _⟩
      · rw [if_neg hd, life_issue_ne _ hd, life_copyPoison_ne r hd]
        exact ⟨rfl, rfl⟩
    · have h₂ : (((r.copyPoison c).issue c true).popParked fd).pendingCount =
          ((r.copyPoison c).issue c true).pendingCount := hpop₂
      have h₃ : (((r.copyPoison c).issue c true).popParked fd).timers =
          ((r.copyPoison c).issue c true).timers := hpop₃
      split_ifs at htimers' hpending' <;> omega
  | poisoned fd slot c rest _ _ =>
    rcases copyPoison_frame r c with ⟨haccepted, hpending, htimers⟩
    refine h.congr haccepted (fun d => ?_) (by omega)
    by_cases hd : d = c
    · subst hd
      rw [life_copyPoison_self]
      exact ⟨rfl, rfl⟩
    · rw [life_copyPoison_ne r hd]
      exact ⟨rfl, rfl⟩
  | posted kind fd sqeFd after _ _ =>
    refine hkeep rfl (fun c => life_congr rfl ⟨_, rfl⟩ ?_ rfl rfl) rfl
      (timers_push_nowait r kind fd sqeFd)
    exact flight_push_nowait r kind fd sqeFd c
  | tagged kind _ =>
    refine hkeep rfl (fun c => life_congr rfl ⟨_, rfl⟩ ?_ rfl rfl) rfl
      (timers_push_nowait r kind (-1) (-1))
    exact flight_push_nowait r kind (-1) (-1) c
  | stranded e => exact hkeep rfl (fun _ => rfl) rfl rfl

theorem finish (h : r.Ledger) (ho : r.Orderly) {i c : Nat} (hc : r.built[i]? = some c) :
    ({ r with built := r.built.eraseIdx i }.finishPackage c).Ledger := by
  have hbuilt : 0 < (r.life c).built := count_pos_iff.2 (mem_of_getElem? hc)
  have hmem : c ∈ r.accepted := (h.mem c).2 ((ho.placed c).accepted_of_pos (.inr (by omega)))
  have hlife := life_finishPackage hc
  have haccepted : ({ r with built := r.built.eraseIdx i }.finishPackage c).accepted = r.accepted :=
    finishPackage_other _ c Ring.accepted (fun _ _ _ => rfl) fun _ => rfl
  have htimers : ({ r with built := r.built.eraseIdx i }.finishPackage c).timers = r.timers :=
    finishPackage_other _ c Ring.timers (fun _ _ _ => rfl) fun _ => rfl
  have hacc : (r.life c).finished.accepted = (r.life c).accepted := by
    unfold Life.finished
    dsimp only
    split_ifs <;> rfl
  have hpending : ({ r with built := r.built.eraseIdx i }.finishPackage c).pendingCount =
      r.pendingCount + ((r.life c).finished.inFlight - (r.life c).inFlight) := by
    have hself := congrArg Life.inFlight (hlife c)
    rw [if_pos rfl] at hself
    rw [← hself]
    rcases finishPackage_cases { r with built := r.built.eraseIdx i } c with
      ⟨-, -, -, heq⟩ | ⟨-, -, heq⟩ | ⟨-, heq⟩
    · rw [heq]
      simp [life, Life.of]
      omega
    · rw [heq]
      simp [life, Life.of]
    · rw [heq]
      simp [life, Life.of]
      omega
  refine ⟨?_, ?_, ?_⟩
  · rw [haccepted]
    exact h.nodup
  · intro d
    rw [haccepted, hlife, h.mem]
    split
    · rename_i hd
      subst hd
      rw [hacc]
    · rfl
  · have hrefs : ({ r with built := r.built.eraseIdx i }.finishPackage c).references =
        r.references + ((r.life c).finished.inFlight - (r.life c).inFlight) := by
      unfold references
      rw [haccepted]
      have hself := congrArg Life.inFlight (hlife c)
      rw [if_pos rfl] at hself
      rw [← hself]
      refine sum_map_of_ne h.nodup hmem ?_
      intro d hd
      rw [hlife, if_neg hd]
    have htotal := h.total
    omega

theorem move (h : r.Ledger) (ho : r.Orderly) (hm : Move r r') : r'.Ledger := by
  cases hm with
  | change hc => exact h.change ho hc
  | flags c success all _ =>
    refine h.congr rfl (fun d => ?_) rfl
    rcases life_flags r c success all d with ⟨counts, heq⟩
    rw [heq]
    split <;> exact ⟨rfl, rfl⟩
  | options c timeout multi =>
    refine h.congr rfl (fun d => ?_) rfl
    rw [life_options]
    exact ⟨rfl, rfl⟩
  | aborted c fd slot _ _ => exact h.congr rfl (fun _ => ⟨rfl, rfl⟩) rfl
  | silent i sqe hi hnowait =>
    have htimers := timers_silent hi
    have htimer : isTimer sqe = false := by
      unfold isNowait at hnowait
      split at hnowait
      · rename_i hdata
        simp [isTimer, hdata]
      · cases hnowait
    simp only [htimer, false_eq_true, if_false, Nat.add_zero] at htimers
    refine h.congr rfl (fun d => ?_) ?_
    · rw [life_silent hi hnowait]
      exact ⟨rfl, rfl⟩
    · rw [htimers]
  | noted i s res hs _ =>
    refine h.congr rfl (fun d => ?_) rfl
    rw [life_setRes, life_took hs]
    split <;> exact ⟨rfl, rfl⟩
  | leg i s n hs _ _ _ _ =>
    rcases nextLeg_eq (((r.took i s.c).advanced s.c s.res).enterKernel n) s.c with ⟨entry, heq⟩
    have haccepted := congrArg Ring.accepted heq
    have hpending := congrArg Ring.pendingCount heq
    have htimers := timers_nextLeg (((r.took i s.c).advanced s.c s.res).enterKernel n) s.c
    have htimers' := timers_enterKernel ((r.took i s.c).advanced s.c s.res) n
    have hsame : ((r.took i s.c).advanced s.c s.res).timers = r.timers := rfl
    have hsame' : (((r.took i s.c).advanced s.c s.res).enterKernel n).pendingCount = r.pendingCount := rfl
    refine h.congr haccepted (fun d => ?_) ?_
    · rw [life_nextLeg, life_enterKernel, life_advanced, life_took hs]
      split <;> exact ⟨rfl, rfl⟩
    · rw [htimers, htimers', hsame, hpending]
      dsimp only
      rw [hsame']
      split_ifs <;> omega
  | ended i s decref res hs _ _ =>
    refine h.congr rfl (fun d => ?_) rfl
    rw [life_ended, life_advanced, life_took hs]
    split <;> exact ⟨rfl, rfl⟩
  | released c slot _ _ _ _ _ => exact h.congr rfl (fun _ => ⟨rfl, rfl⟩) rfl
  | finish i c hc => exact h.finish ho hc

theorem consumes (h : r.Ledger) (ho : r.Orderly) {a : Act} (hc : Consumes r a r') : r'.Ledger := by
  rcases hc with ⟨i, res, more, notif, sqe, -, hi, hanswer, rfl⟩
  have hmem : sqe ∈ r.sq ++ r.kernel := mem_append_right _ (mem_of_getElem? hi)
  have htimers : ((r.answered i more).timers : Int) + (if !more && isTimer sqe then 1 else 0) =
      r.timers := by
    unfold answered
    cases more with
    | true => simp
    | false =>
      have hsilent := timers_silent hi
      simp only [Bool.false_eq_true, if_false, Bool.not_false, Bool.true_and]
      split_ifs at hsilent ⊢ <;> omega
  rcases answered_eq r i more with ⟨kernel, heq⟩
  cases hdata : sqe.data with
  | op c =>
    have htimer : isTimer sqe = false := by simp [isTimer, hdata]
    simp only [htimer, Bool.and_false, Bool.false_eq_true, if_false, Int.add_zero] at htimers
    have hframe : ((r.answered i more).consumeCqe sqe res more notif).accepted = r.accepted ∧
        ((r.answered i more).consumeCqe sqe res more notif).pendingCount = r.pendingCount ∧
        ((r.answered i more).consumeCqe sqe res more notif).timers = (r.answered i more).timers := by
      unfold consumeCqe
      rw [hdata]
      dsimp only
      rw [completionPrepInFlightRef_eq, heq]
      split
      · exact ⟨rfl, rfl, rfl⟩
      · exact ⟨rfl, rfl, rfl⟩
    refine h.congr hframe.1 (fun d => ?_) ?_
    · rw [life_consumeCqe_op hi hdata]
      split <;> exact ⟨rfl, rfl⟩
    · rw [hframe.2.1, hframe.2.2, htimers]
  | nowait kind fd =>
    have htimer : isTimer sqe = false := by simp [isTimer, hdata]
    simp only [htimer, Bool.and_false, Bool.false_eq_true, if_false, Int.add_zero] at htimers
    have hsame : (r.answered i more).consumeCqe sqe res more notif = r.answered i more := by
      simp [consumeCqe, hdata]
    refine h.congr ?_ (fun d => ?_) ?_
    · rw [hsame, heq]
    · rw [life_consumeCqe_other hi (by simp [hdata])]
      exact ⟨rfl, rfl⟩
    · rw [hsame, htimers, heq]
  | linkTimeout =>
    have htimer : isTimer sqe = true := by simp [isTimer, hdata]
    -- a timer has one CQE
    have hmore : more = false := by
      have hmulti := (ho.multi sqe hmem).timer hdata
      simp only [kernelAnswers, hmulti, and_eq_true, or_eq_true] at hanswer
      simpa using hanswer.1.1
    simp only [htimer, hmore, Bool.not_false, Bool.and_true, if_true] at htimers
    have hsame : (r.answered i more).consumeCqe sqe res more notif = (r.answered i more).pendingDec := by
      simp [consumeCqe, hdata]
    refine h.congr ?_ (fun d => ?_) ?_
    · rw [hsame, heq]
      rfl
    · rw [life_consumeCqe_other hi (by simp [hdata])]
      exact ⟨rfl, rfl⟩
    · have hpending : (r.answered i more).pendingCount = r.pendingCount := by rw [heq]
      have htimers' : ((r.answered i more).pendingDec).timers = (r.answered i more).timers := rfl
      rw [hsame, htimers', pendingDec_pendingCount, hpending]
      rw [← hmore] at htimers
      omega

theorem moves (h : r.Ledger) (ho : r.Orderly) (hm : Moves r r') : r'.Ledger := by
  induction hm with
  | refl => exact h
  | tail hms hm ih => exact ih.move (ho.moves hms) hm

/-- Each move changes the count by what it changes in the references. -/
theorem step {a : Act} (h : r.Ledger) (ho : r.Orderly) (hs : step r a = some r') : r'.Ledger := by
  rcases step_cases ho hs with hc | hm
  · exact h.consumes ho hc
  · exact h.moves ho hm

end Ledger

end Ring

end Pytealet.Uring
