import Pytealet.Uring.InFlight

/-!
# PendingCount — the pending count and the in-flight references over whole runs

Two answers of the kernel break the bookkeeping.  A `send_all` leg whose length field is zero
although bytes are left (their number is a multiple of 2^32) is answered with zero bytes: its CQE is
staged as the last one and the next leg is filled all the same (`emptyLeg`).  A zero-copy send that
fails at once has one CQE without a notification, and only a notification is taken for the last
(`unnotified`).
-/

namespace Pytealet.Uring

open Lib.Transition List Bool

/-- A CQE of zero bytes for a `send_all` that has bytes left and is not abandoned. -/
def emptyLeg (r : Ring) : Act → Bool
  | .cqe i res _ _ =>
    (r.kernel[i]?).any fun sqe =>
      match sqe.data with
      | .op c =>
        r.kind c = .sendAll && r.sendAllRemaining c ≠ 0 && !(r.bits c).abandon && res = 0
      | _ => false
  | _ => false

/-- The last CQE of a zero-copy request that is no notification. -/
def unnotified (r : Ring) : Act → Bool
  | .cqe i _ more notif =>
    (r.kernel[i]?).any fun sqe =>
      match sqe.data with
      | .op c => isZeroCopySendKind (r.kind c) && !(r.bits c).poison && !more && !notif
      | _ => false
  | _ => false

/-- The accepted completions that count and hold their in-flight reference. -/
def Ring.outstanding (r : Ring) : Nat :=
  (r.accepted.filter fun c => r.completionCountsPending c && (r.bits c).released = 0).length

namespace Ring

variable {r r' : Ring}

theorem LegMarks.consumes (h : r.LegMarks) (ho : r.Orderly) (hcounted : ∀ c, (r.life c).Counted) {a : Act}
    (hc : Consumes r a r') (hfull : emptyLeg r a = false) : r'.LegMarks := by
  rcases hc with ⟨i, res, more, notif, sqe, rfl, hi, hanswer, rfl⟩
  have hmem : sqe ∈ r.sq ++ r.kernel := mem_append_right _ (mem_of_getElem? hi)
  rcases answered_eq r i more with ⟨kernel, heq⟩
  cases hdata : sqe.data with
  | nowait kind fd =>
    have hsame : (r.answered i more).consumeCqe sqe res more notif = r.answered i more := by
      simp [consumeCqe, hdata]
    rw [hsame, heq]
    exact h.same ⟨rfl, rfl, fun _ => ⟨rfl, rfl, id⟩⟩
  | linkTimeout =>
    have hsame : (r.answered i more).consumeCqe sqe res more notif = (r.answered i more).pendingDec := by
      simp [consumeCqe, hdata]
    rw [hsame, heq]
    exact h.same ⟨rfl, rfl, fun _ => ⟨rfl, rfl, id⟩⟩
  | op c =>
    have hflight := flight_pos hmem hdata
    have hlast : (r.bits c).auxDecref = false := (hcounted c).auxDecref_eq_false (.inr hflight)
    rcases consumeCqe_op r i hdata res more notif with ⟨hhandle, hstaged, hbits⟩
    intro s hs hkind
    have hkind' : r.kind s.c = .sendAll := by
      unfold kind at hkind ⊢
      rw [← hhandle]
      exact hkind
    have hrest : ((r.answered i more).consumeCqe sqe res more notif).sendAllRemaining s.c =
        r.sendAllRemaining s.c := by
      unfold sendAllRemaining
      rw [hhandle, hbits]
      split <;> rfl
    rw [hstaged] at hs
    rw [hrest, hbits]
    rcases mem_append.1 hs with hold | hnew
    · -- a `send_all` with a request in flight has nothing staged
      have hne : s.c ≠ c := by
        rintro rfl
        have hpos : 0 < (r.life s.c).staged := countP_pos_iff.2 ⟨s, hold, by simp⟩
        have hone := (ho.placed s.c).sendAll hkind'
        omega
      rw [if_neg (fun h => hne h.1)]
      exact h s hold hkind'
    · rw [mem_singleton.1 hnew] at hkind' ⊢
      dsimp only at hkind' ⊢
      have hcqes : (r.life c).countsCqes = true := by
        have hk : (r.handle c).kind = .sendAll := hkind'
        simp [Life.countsCqes, life, Life.of, hk]
      have hterminal : r.isLast c res more notif = r.sendAllCqeIsTerminal c res := by
        have hmulti := Life.repeats_of_sendAll (l := r.life c) hkind'
        simp only [Life.repeats, or_eq_false_iff] at hmulti
        have hmulti' : (r.handle c).multishot = false := hmulti.1
        simp [isLast, hmulti', hkind', isZeroCopySendKind]
      have hfull' : ¬ (r.sendAllRemaining c ≠ 0 ∧ (r.bits c).abandon = false ∧ res = 0) := by
        rintro ⟨hleft, hab, hzero⟩
        simp [emptyLeg, hi, hdata, hkind', hleft, hab, hzero] at hfull
      rw [if_pos ⟨rfl, hcqes⟩, hterminal]
      simp only [hlast, Bool.false_or, sendAllCqeIsTerminal, Bool.or_eq_true, decide_eq_true_eq]
      have hleft : r.sendAllRemaining c = (r.handle c).length - (r.bits c).offset := rfl
      refine ⟨?_, ?_⟩
      · rintro (hle | hall)
        · exact .inl (.inl (.inr hle))
        · exact .inr hall
      · rintro (((hab | hle) | hoff) | hall)
        · exact .inr (.inr hab)
        · by_cases hab : (r.bits c).abandon = true
          · exact .inr (.inr hab)
          · have hab' : (r.bits c).abandon = false := by simpa using hab
            by_cases hzero : res = 0
            · have hnone : r.sendAllRemaining c = 0 := by
                by_contra hne
                exact hfull' ⟨hne, hab', hzero⟩
              omega
            · omega
        · omega
        · exact .inr (.inl hall)

theorem staged_le_of_consumes {a : Act} (hc : Consumes r a r') (d : Nat) :
    (r.life d).staged ≤ (r'.life d).staged := by
  rcases hc with ⟨i, res, more, notif, sqe, -, hi, -, rfl⟩
  cases hdata : sqe.data with
  | op c =>
    rw [life_consumeCqe_op hi hdata]
    split
    · exact Nat.le_succ _
    · exact Nat.le_refl _
  | nowait kind fd =>
    rw [life_consumeCqe_other hi (by simp [hdata])]
  | linkTimeout =>
    rw [life_consumeCqe_other hi (by simp [hdata])]

/-! ## Runs without an empty leg -/

structure Accounted (r : Ring) : Prop where
  orderly : r.Orderly
  ledger : r.Ledger
  counted : ∀ c, (r.life c).Counted
  marks : r.LegMarks

namespace Accounted

theorem init (entries : Nat) (makeRoom : Bool) (handle : Nat → Handle) :
    (Ring.init entries makeRoom handle).Accounted := by
  refine ⟨.init entries makeRoom handle, .init entries makeRoom handle, ?_, ?_⟩
  · intro c
    constructor <;> simp [Ring.init, life, Life.of, flight, Bits.isAccepted]
  · intro s hs
    simp [Ring.init] at hs

theorem move (h : r.Accounted) (hm : Move r r') : r'.Accounted := by
  refine ⟨h.orderly.move hm, h.ledger.move h.orderly hm, ?_, h.marks.move h.orderly h.counted hm⟩
  intro c
  exact (h.counted c).move (h.orderly.placed c) (hm.life h.orderly.parked c)
    fun hkind hflight hstaged => (hm.legs h.marks c hkind hstaged).1 hflight

theorem moves (h : r.Accounted) (hm : Moves r r') : r'.Accounted := by
  induction hm with
  | refl => exact h
  | tail _ hm ih => exact ih.move hm

theorem consumes (h : r.Accounted) {a : Act} (hc : Consumes r a r') (hfull : emptyLeg r a = false) :
    r'.Accounted := by
  refine ⟨h.orderly.consumes hc, h.ledger.consumes h.orderly hc, ?_,
    h.marks.consumes h.orderly h.counted hc hfull⟩
  intro c
  refine (h.counted c).move (h.orderly.placed c) (h.orderly.life_consumes hc c) ?_
  intro _ _ hstaged
  exact absurd (staged_le_of_consumes hc c) (by omega)

theorem step {a : Act} (h : r.Accounted) (hfull : emptyLeg r a = false) (hs : step r a = some r') :
    r'.Accounted := by
  rcases step_cases h.orderly hs with hc | hm
  · exact h.consumes hc hfull
  · exact h.moves hm

theorem inFlight_eq (h : r.Accounted) {c : Nat} (hc : c ∈ r.accepted) :
    (r.life c).inFlight =
      if r.completionCountsPending c && decide ((r.bits c).released = 0) then 1 else 0 := by
  have hacc := (h.ledger.mem c).1 hc
  cases hcounts : r.completionCountsPending c with
  | false =>
    have hzero := ((h.orderly.placed c).uncounted hcounts).2.2.2
    simp [hzero]
  | true =>
    have hheld := (h.counted c).held hacc hcounts
    have honce := (h.counted c).once
    have hrel : (r.life c).released = (r.bits c).released := rfl
    rw [hrel] at hheld honce
    rw [hheld]
    by_cases hz : (r.bits c).released = 0
    · simp [hz]
    · have hone : (r.bits c).released = 1 := by omega
      simp [hone]

theorem references_eq_outstanding (h : r.Accounted) : r.references = r.outstanding := by
  have hsum : ∀ l : List Nat, (∀ c ∈ l, c ∈ r.accepted) →
      (l.map fun c => (r.life c).inFlight).sum =
        ((l.filter fun c => r.completionCountsPending c && (r.bits c).released = 0).length : Int) := by
    intro l hl
    induction l with
    | nil => rfl
    | cons c l ih =>
      have hrest := ih fun d hd => hl d (mem_cons_of_mem c hd)
      rw [map_cons, sum_cons, hrest, h.inFlight_eq (hl c mem_cons_self)]
      rw [filter_cons]
      split
      · rw [length_cons]
        omega
      · omega
  exact hsum r.accepted fun _ hc => hc

theorem pendingCount_eq (h : r.Accounted) : r.pendingCount = (r.outstanding + r.timers : Nat) := by
  rw [h.ledger.total, h.references_eq_outstanding]
  omega

end Accounted

end Ring

/-- The pending count is the number of accepted counting completions that hold their in-flight
reference and of link timeouts that owe a CQE. -/
def Ring.PendingExact (r : Ring) : Prop :=
  r.pendingCount = (r.outstanding + r.timers : Nat)

instance : DecidablePred Ring.PendingExact :=
  fun r => inferInstanceAs (Decidable (r.pendingCount = (r.outstanding + r.timers : Nat)))

/-- The pending count is exact throughout a run in which no empty leg is answered. -/
theorem pendingCount_exact (entries : Nat) (makeRoom : Bool) (handle : Nat → Handle) (as : List Act)
    (hfull : Along step (fun r a => emptyLeg r a = false) (Ring.init entries makeRoom handle) as) :
    Always step Ring.PendingExact (Ring.init entries makeRoom handle) as :=
  always_of_along (fun _ h => Ring.Accounted.pendingCount_eq h)
    (fun _ _ _ h hfull hs => Ring.Accounted.step h hfull hs) as _ (.init entries makeRoom handle) hfull

/-- A `send_all` in two legs, with a link timeout on each of them. -/
def twoLegs : List Act :=
  [.setTimeout 0 true, .prepare [(some 0, {})], .submit 4, .cqe 0 6 false false, .build 0 {}, .finish 0,
    .cqe 0 0 false false, .submit 4, .cqe 0 4 false false, .build 0 {}, .finish 0, .cqe 0 0 false false]

theorem pendingCount_exact_twoLegs :
    let r := Ring.init 4 true fun _ => { kind := .sendAll, fd := 3, length := 10 }
    Along step (fun r a => emptyLeg r a = false) r twoLegs ∧ Always step Ring.PendingExact r twoLegs :=
  ⟨by decide, pendingCount_exact 4 true (fun _ => { kind := .sendAll, fd := 3, length := 10 }) twoLegs (by decide)⟩

/-- Twice a leg of 2^32 bytes is answered with none. -/
def twoEmptyLegs : List Act :=
  [.prepare [(some 0, {})], .submit 4, .cqe 0 0 false false, .build 0 {}, .finish 0, .submit 4,
    .cqe 0 0 false false, .build 0 {}, .finish 0]

/-- The length field of the leg is zero; two references are dropped and the count is below zero. -/
theorem pendingCount_negative :
    let r := Ring.init 4 true fun _ => { kind := .sendAll, fd := 3, length := 2 ^ 32 }
    (exec step r twoEmptyLegs).map Ring.pendingCount = some (-1) ∧
      ¬ Always step Ring.PendingExact r twoEmptyLegs := by
  decide

/-! ## Runs whose zero-copy sends end with a notification -/

namespace Ring

variable {r r' : Ring}

structure Settled (r : Ring) : Prop where
  accounted : r.Accounted
  owed : ∀ c, (r.life c).Owed

namespace Settled

theorem init (entries : Nat) (makeRoom : Bool) (handle : Nat → Handle) :
    (Ring.init entries makeRoom handle).Settled := by
  refine ⟨.init entries makeRoom handle, ?_⟩
  intro c
  constructor <;> simp [Ring.init, life, Life.of, Bits.isAccepted]

theorem move (h : r.Settled) (hm : Move r r') : r'.Settled := by
  have hparked := h.accounted.orderly.parked
  refine ⟨h.accounted.move hm, ?_⟩
  intro c
  refine (h.owed c).move (h.accounted.orderly.placed c) (h.accounted.counted c) (hm.life hparked c) ?_ ?_
  · intro _ hless
    exact absurd (hm.flight_le hparked c) (by omega)
  · intro hkind hflight hstaged
    exact (hm.legs h.accounted.marks c hkind hstaged).2 hflight

theorem moves (h : r.Settled) (hm : Moves r r') : r'.Settled := by
  induction hm with
  | refl => exact h
  | tail _ hm ih => exact ih.move hm

theorem consumes (h : r.Settled) {a : Act} (hc : Consumes r a r') (hfull : emptyLeg r a = false)
    (hnotif : unnotified r a = false) : r'.Settled := by
  refine ⟨h.accounted.consumes hc hfull, ?_⟩
  intro d
  refine (h.owed d).move (h.accounted.orderly.placed d) (h.accounted.counted d)
    (h.accounted.orderly.life_consumes hc d) ?_ ?_
  · -- the CQE that takes the request from the kernel is a notification, or the send was poisoned
    intro hzc hless
    rcases hc with ⟨i, res, more, notif, sqe, rfl, hi, hanswer, rfl⟩
    cases hdata : sqe.data with
    | op c =>
      rw [life_consumeCqe_op hi hdata] at hless ⊢
      by_cases hd : d = c
      · subst hd
        rw [if_pos rfl] at hless ⊢
        have hzc' : isZeroCopySendKind (r.kind d) = true := hzc
        have hcqes : (r.life d).countsCqes = true := by
          simp only [Life.countsCqes, hzc, Bool.or_true, Bool.true_or]
        have hmore : more = false := by
          cases more with
          | false => rfl
          | true => simp [Life.consumed] at hless
        have hmulti : (r.handle d).multishot = false := by
          cases hm : (r.handle d).multishot with
          | false => rfl
          | true =>
            have hrepeat := (r.handle d).multishot_kind hm
            unfold kind at hzc'
            cases hk : (r.handle d).kind <;> simp_all [Kind.mayRepeat, isZeroCopySendKind]
        have hlast : r.isLast d res more notif = true := by
          have hmark : (r.bits d).poison = true ∨ notif = true := by
            simpa [unnotified, hi, hdata, hzc', hmore, or_iff_not_imp_left] using hnotif
          simpa [isLast, hmulti, hzc'] using hmark
        simp [Life.consumed, hcqes, hlast]
      · rw [if_neg hd] at hless
        exact absurd hless (Nat.lt_irrefl _)
    | nowait kind fd =>
      rw [life_consumeCqe_other hi (by simp [hdata])] at hless
      exact absurd hless (Nat.lt_irrefl _)
    | linkTimeout =>
      rw [life_consumeCqe_other hi (by simp [hdata])] at hless
      exact absurd hless (Nat.lt_irrefl _)
  · intro _ _ hstaged
    exact absurd (staged_le_of_consumes hc d) (by omega)

theorem step {a : Act} (h : r.Settled) (hfull : emptyLeg r a = false) (hnotif : unnotified r a = false)
    (hs : step r a = some r') : r'.Settled := by
  rcases step_cases h.accounted.orderly hs with hc | hm
  · exact h.consumes hc hfull hnotif
  · exact h.moves hm

end Settled

/-- Every accepted completion that counts has dropped its in-flight reference at most once, and has
dropped it exactly when nothing of it is parked, in flight, staged or being packaged; the pending
count is exact. -/
def DropsOnce (r : Ring) : Prop :=
  r.PendingExact ∧ ∀ c ∈ r.accepted, r.completionCountsPending c = true →
    (r.bits c).released ≤ 1 ∧ ((r.bits c).released = 1 ↔ (r.life c).Idle)

instance : DecidablePred DropsOnce :=
  fun r => inferInstanceAs (Decidable (r.PendingExact ∧ ∀ c ∈ r.accepted, _ → _ ∧ (_ ↔ _)))

theorem Settled.dropsOnce (h : r.Settled) : r.DropsOnce := by
  refine ⟨h.accounted.pendingCount_eq, ?_⟩
  intro c hc hcounts
  exact (h.accounted.counted c).idle (h.owed c) ((h.accounted.ledger.mem c).1 hc) hcounts

end Ring

/-- In a run in which no empty leg is answered and the last CQE of every zero-copy request that is
not poisoned is its notification, every in-flight reference is dropped exactly once, with the last
CQE. -/
theorem inFlight_dropped_once (entries : Nat) (makeRoom : Bool) (handle : Nat → Handle) (as : List Act)
    (hanswers : Along step (fun r a => emptyLeg r a = false ∧ unnotified r a = false)
      (Ring.init entries makeRoom handle) as) :
    Always step Ring.DropsOnce (Ring.init entries makeRoom handle) as :=
  always_of_along (fun _ h => Ring.Settled.dropsOnce h)
    (fun _ _ _ h hcond hs => Ring.Settled.step h hcond.1 hcond.2 hs) as _
      (.init entries makeRoom handle) hanswers

/-- A zero-copy send with its data CQE and its notification, packaged in the other order. -/
def notifiedFirst : List Act :=
  [.prepare [(some 0, {})], .submit 4, .cqe 0 8 true false, .cqe 0 0 false true, .build 1 {}, .finish 0,
    .build 0 {}, .finish 0]

theorem inFlight_dropped_once_notified :
    let r := Ring.init 4 true fun _ => { kind := .sendZc, fd := 3, length := 8 }
    Along step (fun r a => emptyLeg r a = false ∧ unnotified r a = false) r notifiedFirst ∧
      Always step Ring.DropsOnce r notifiedFirst :=
  ⟨by decide, inFlight_dropped_once 4 true (fun _ => { kind := .sendZc, fd := 3, length := 8 }) notifiedFirst (by decide)⟩

/-- A zero-copy send that the kernel refuses with EPIPE. -/
def refusedZeroCopy : List Act :=
  [.prepare [(some 0, {})], .submit 4, .cqe 0 (-32) false false, .build 0 {}, .finish 0]

/-- Its one CQE is packaged and the in-flight reference is never dropped. -/
theorem inFlight_leaks :
    let r := Ring.init 4 true fun _ => { kind := .sendZc, fd := 3, length := 8 }
    (exec step r refusedZeroCopy).map (fun r =>
      ((r.bits 0).released, r.pendingCount, decide (r.life 0).Idle)) =
      some (0, 1, true) ∧ ¬ Always step Ring.DropsOnce r refusedZeroCopy := by
  decide

end Pytealet.Uring
