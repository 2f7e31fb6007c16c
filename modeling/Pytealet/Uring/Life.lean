import Pytealet.Uring.Parked

/-!
# Life — one completion's view of the ring

`Ring.life` is what concerns one completion: its marks, its references, and how many of its SQEs and
CQEs are where.  A change of the ring leaves it alone or is one of a few `Life.Step`s, so an
invariant about references is a fact about `Life`.
-/

namespace Pytealet.Uring

open List Bool

structure Life where
  kind : Kind
  multishot : Bool
  /-- `completion_counts_pending` -/
  counts : Bool
  accepted : Bool
  /-- On a conflict FIFO. -/
  parked : Bool
  poison : Bool
  /-- SQEs in the queue or with the kernel. -/
  flight : Nat
  /-- CQEs that are consumed and not packaged. -/
  staged : Nat
  /-- CQEs whose in-flight bookkeeping is still to come. -/
  built : Nat
  auxRefcount : Int
  auxDecref : Bool
  inFlight : Int
  released : Nat
  multishot_kind : multishot = true → kind.mayRepeat = true

namespace Life

def of (h : Handle) (b : Bits) (flight staged built : Nat) : Life :=
  { kind := h.kind
    multishot := h.multishot
    counts := if h.kind = .sendAll then true else !b.skipAll
    accepted := b.isAccepted
    parked := b.conflictQueued
    poison := b.poison
    flight := flight
    staged := staged
    built := built
    auxRefcount := b.auxRefcount
    auxDecref := b.auxDecref
    inFlight := b.inFlight
    released := b.released
    multishot_kind := h.multishot_kind }

/-- The SQEs and in-flight references that an acceptance brings. -/
def ref (l : Life) : Nat :=
  if l.counts then 1 else 0

/-- What a change of the ring does to one completion. -/
inductive Step (l : Life) : Life → Prop where
  | keep : Step l l
  | park : l.accepted = false →
      Step l { l with accepted := true, parked := true, inFlight := l.inFlight + l.ref }
  | fill (p : Bool) : l.accepted = false →
      Step l { l with
        accepted := true, poison := p, flight := l.flight + l.ref, inFlight := l.inFlight + l.ref }
  | copy (p : Bool) : l.parked = true → (l.poison = true → p = true) →
      Step l { l with accepted := true, parked := false, poison := p, flight := l.flight + l.ref }
  | poison (p : Bool) : l.parked = true → (l.poison = true → p = true) → Step l { l with poison := p }

/-- The kinds whose CQEs are counted in `aux_refcount`. -/
def countsCqes (l : Life) : Bool :=
  l.multishot || isZeroCopySendKind l.kind || l.kind = .sendAll

/-- More than one CQE may come for one SQE. -/
def repeats (l : Life) : Bool :=
  l.multishot || (isZeroCopySendKind l.kind && !l.poison)

/-- A CQE is consumed: `decref` is what `completion_prep_in_flight_ref` finds. -/
def consumed (l : Life) (more decref : Bool) : Life :=
  { l with
    flight := if more then l.flight else l.flight - 1
    staged := l.staged + 1
    auxRefcount := if l.countsCqes then l.auxRefcount + 1 else l.auxRefcount
    auxDecref := if l.countsCqes then l.auxDecref || decref else l.auxDecref }

/-- A CQE is taken to be packaged. -/
def took (l : Life) : Life :=
  { l with staged := l.staged - 1, built := l.built + 1 }

/-- The in-flight reference and the pending count that it holds are dropped. -/
def drop (l : Life) : Life :=
  { l with inFlight := l.inFlight - 1, released := l.released + 1 }

/-- `completion_finish_in_flight_ref` after the CQE was packaged. -/
def finished (l : Life) : Life :=
  if l.countsCqes then
    let l := { l with built := l.built - 1, auxRefcount := l.auxRefcount - 1 }
    if l.auxRefcount = 0 ∧ l.auxDecref = true then { l with auxDecref := false }.drop else l
  else
    { l with built := l.built - 1 }.drop

/-- What a move of the ring does to one completion. -/
inductive Move (l : Life) : Life → Prop where
  | change {l' : Life} : Step l l' → Move l l'
  | flags (counts : Bool) : l.accepted = false → Move l { l with counts := counts }
  | cqe (more decref : Bool) : 0 < l.flight → (more = true → l.repeats = true) →
      (decref = true → more = false) → (l.multishot = true → decref = !more) →
      (isZeroCopySendKind l.kind = true → l.poison = true → decref = true) →
      Move l (l.consumed more decref)
  | build : l.kind ≠ .sendAll → 0 < l.staged → Move l l.took
  | leg : l.kind = .sendAll → 0 < l.staged → Move l { l.took with flight := l.flight + 1 }
  | ended (decref : Bool) : l.kind = .sendAll → 0 < l.staged →
      Move l { l.took with auxDecref := l.auxDecref || decref }
  | finish : 0 < l.built → Move l l.finished

/-- Holds of every completion of every ring: each SQE and CQE is in one place. -/
structure Placed (l : Life) : Prop where
  fresh : l.accepted = false →
    l.parked = false ∧ l.poison = false ∧ l.flight = 0 ∧ l.staged = 0 ∧ l.built = 0 ∧ l.auxRefcount = 0 ∧
      l.auxDecref = false ∧ l.inFlight = 0 ∧ l.released = 0
  uncounted : l.counts = false → l.flight = 0 ∧ l.staged = 0 ∧ l.built = 0 ∧ l.inFlight = 0
  one : l.parked.toNat + l.flight ≤ 1
  sendAll : l.kind = .sendAll → l.parked.toNat + l.flight + l.staged ≤ 1
  oneShot : l.countsCqes = false → l.parked.toNat + l.flight + l.staged + l.built ≤ 1

variable {l l' : Life}

theorem ref_of_uncounted (h : l.counts = false) : l.ref = 0 := by
  simp [ref, h]

theorem ref_le_one (l : Life) : l.ref ≤ 1 := by
  unfold ref
  split <;> omega

theorem repeats_of_sendAll (h : l.kind = .sendAll) : l.repeats = false := by
  have hmulti : l.multishot = false := by
    cases hm : l.multishot with
    | false => rfl
    | true =>
      have hrepeat := l.multishot_kind hm
      simp [h, Kind.mayRepeat] at hrepeat
  simp [repeats, hmulti, h, isZeroCopySendKind]

theorem repeats_of_oneShot (h : l.countsCqes = false) : l.repeats = false := by
  simp only [countsCqes, or_eq_false_iff] at h
  simp [repeats, h.1.1, h.1.2]

namespace Placed

theorem accepted_of_pos (h : l.Placed) (hpos : l.parked = true ∨ 0 < l.flight + l.staged + l.built) :
    l.accepted = true := by
  cases hacc : l.accepted with
  | false =>
    rcases h.fresh hacc with ⟨hparked, -, hflight, hstaged, hbuilt, -⟩
    rcases hpos with hpos | hpos
    · rw [hparked] at hpos
      cases hpos
    · omega
  | true => rfl

theorem counts_of_pos (h : l.Placed) (hpos : 0 < l.flight + l.staged + l.built) : l.counts = true := by
  cases hcounts : l.counts with
  | false =>
    rcases h.uncounted hcounts with ⟨hflight, hstaged, hbuilt, -⟩
    omega
  | true => rfl

theorem step (h : l.Placed) (hs : l.Step l') : l'.Placed := by
  have href := ref_le_one l
  have hone := h.one
  cases hs with
  | keep => exact h
  | park hnew =>
    rcases h.fresh hnew with ⟨-, -, hflight, hstaged, hbuilt, -, -, hin, -⟩
    refine ⟨by simp, ?_, by simp [hflight], by simp [hflight, hstaged], by simp [hflight, hstaged, hbuilt]⟩
    intro hcounts
    simp [hflight, hstaged, hbuilt, hin, ref_of_uncounted (l := l) hcounts]
  | fill p hnew =>
    rcases h.fresh hnew with ⟨hparked, -, hflight, hstaged, hbuilt, -, -, hin, -⟩
    refine ⟨by simp, ?_, ?_, fun _ => ?_, fun _ => ?_⟩
    · intro hcounts
      simp [hflight, hstaged, hbuilt, hin, ref_of_uncounted (l := l) hcounts]
    · simpa [hparked, hflight] using href
    · simpa [hparked, hflight, hstaged] using href
    · simpa [hparked, hflight, hstaged, hbuilt] using href
  | copy p hparked _ =>
    simp only [hparked, toNat_true] at hone
    refine ⟨by simp, ?_, ?_, ?_, ?_⟩
    · intro hcounts
      simpa [ref_of_uncounted (l := l) hcounts] using h.uncounted hcounts
    · simp only [toNat_false]
      omega
    · intro hkind
      have hsend := h.sendAll hkind
      simp only [hparked, toNat_true, toNat_false] at hsend ⊢
      omega
    · intro hkind
      have hshot := h.oneShot hkind
      simp only [hparked, toNat_true, toNat_false] at hshot ⊢
      omega
  | poison p hparked _ =>
    have hacc := h.accepted_of_pos (.inl hparked)
    exact ⟨by simp [hacc], h.uncounted, h.one, h.sendAll, h.oneShot⟩

theorem cqe (h : l.Placed) {more : Bool} (hflight : 0 < l.flight)
    (hmore : more = true → l.repeats = true) (decref : Bool) : (l.consumed more decref).Placed := by
  have hone := h.one
  have hlast : l.repeats = false → more = false := by
    intro hrep
    cases more with
    | false => rfl
    | true =>
      rw [hmore rfl] at hrep
      cases hrep
  refine ⟨?_, ?_, ?_, ?_, ?_⟩
  · simp [consumed, h.accepted_of_pos (.inr (by omega))]
  · simp [consumed, h.counts_of_pos (by omega)]
  · simp only [consumed]
    split <;> omega
  · intro hkind
    have hsend := h.sendAll hkind
    simp only [consumed, hlast (repeats_of_sendAll hkind), false_eq_true, if_false]
    omega
  · intro hkind
    have hshot := h.oneShot hkind
    simp only [consumed, hlast (repeats_of_oneShot hkind), false_eq_true, if_false]
    omega

theorem took (h : l.Placed) (hkind : l.kind ≠ .sendAll) (hstaged : 0 < l.staged) : l.took.Placed := by
  refine ⟨?_, ?_, h.one, fun hsend => absurd hsend hkind, ?_⟩
  · simp [Life.took, h.accepted_of_pos (.inr (by omega))]
  · simp [Life.took, h.counts_of_pos (by omega)]
  · intro hshot
    have hone := h.oneShot hshot
    simp only [Life.took]
    omega

theorem leg (h : l.Placed) (hkind : l.kind = .sendAll) (hstaged : 0 < l.staged) {flight : Nat}
    (hflight : flight ≤ 1) (decref : Bool) :
    { l.took with flight := flight, auxDecref := decref }.Placed := by
  have hsend := h.sendAll hkind
  refine ⟨?_, ?_, ?_, fun _ => ?_, ?_⟩
  · simp [Life.took, h.accepted_of_pos (.inr (by omega))]
  · simp [Life.took, h.counts_of_pos (by omega)]
  · simp only [Life.took]
    omega
  · simp only [Life.took]
    omega
  · simp [countsCqes, Life.took, hkind]

theorem finished (h : l.Placed) (hbuilt : 0 < l.built) : l.finished.Placed := by
  have hacc := h.accepted_of_pos (.inr (by omega))
  have hcounts := h.counts_of_pos (by omega)
  unfold Life.finished
  dsimp only
  split
  · rename_i hkind
    have hshot : ∀ {p : Prop}, l.countsCqes = false → p := by
      intro p hnot
      rw [hkind] at hnot
      cases hnot
    split
    · exact ⟨by simp [drop, hacc], by simp [drop, hcounts], h.one, h.sendAll, hshot⟩
    · exact ⟨by simp [hacc], by simp [hcounts], h.one, h.sendAll, hshot⟩
  · refine ⟨by simp [drop, hacc], by simp [drop, hcounts], h.one, h.sendAll, ?_⟩
    intro hkind
    have hshot := h.oneShot hkind
    simp only [drop]
    omega

theorem move (h : l.Placed) (hm : l.Move l') : l'.Placed := by
  cases hm with
  | change hs => exact h.step hs
  | flags counts hnew =>
    rcases h.fresh hnew with ⟨-, -, hflight, hstaged, hbuilt, -, -, hin, -⟩
    exact ⟨h.fresh, fun _ => ⟨hflight, hstaged, hbuilt, hin⟩, h.one, h.sendAll, h.oneShot⟩
  | cqe more decref hflight hmore _ _ _ => exact h.cqe hflight hmore decref
  | build hkind hstaged => exact h.took hkind hstaged
  | leg hkind hstaged =>
    have hsend := h.sendAll hkind
    exact h.leg hkind hstaged (by omega) l.auxDecref
  | ended decref hkind hstaged =>
    have hsend := h.sendAll hkind
    have hflight : l.took.flight ≤ 1 := by
      simp only [Life.took]
      omega
    exact h.leg hkind hstaged hflight (l.auxDecref || decref)
  | finish hbuilt => exact h.finished hbuilt

end Placed

theorem Step.poison_mono (hs : l.Step l') (h : l.Placed) (hpoison : l.poison = true) :
    l'.poison = true := by
  cases hs with
  | keep => exact hpoison
  | park _ => exact hpoison
  | fill p hnew =>
    rw [(h.fresh hnew).2.1] at hpoison
    cases hpoison
  | copy p _ hp => exact hp hpoison
  | poison p _ hp => exact hp hpoison

theorem Move.poison_mono (hm : l.Move l') (h : l.Placed) (hpoison : l.poison = true) :
    l'.poison = true := by
  cases hm with
  | change hs => exact hs.poison_mono h hpoison
  | flags counts _ => exact hpoison
  | cqe more decref _ _ _ _ _ => exact hpoison
  | build _ _ => exact hpoison
  | leg _ _ => exact hpoison
  | ended decref _ _ => exact hpoison
  | finish _ =>
    unfold finished
    dsimp only
    split_ifs <;> exact hpoison

theorem Step.repeats_eq (hs : l.Step l') (h : l.Placed) (hflight : 0 < l.flight) :
    l'.repeats = l.repeats := by
  have hone := h.one
  cases hs with
  | keep => rfl
  | park _ => rfl
  | fill p hnew =>
    have hzero := (h.fresh hnew).2.2.1
    omega
  | copy p hparked _ =>
    simp only [hparked, toNat_true] at hone
    omega
  | poison p hparked _ =>
    simp only [hparked, toNat_true] at hone
    omega

theorem Move.repeats_eq (hm : l.Move l') (h : l.Placed) (hflight : 0 < l.flight) :
    l'.repeats = l.repeats := by
  cases hm with
  | change hs => exact hs.repeats_eq h hflight
  | flags counts _ => rfl
  | cqe more decref _ _ _ _ _ => rfl
  | build _ _ => rfl
  | leg _ _ => rfl
  | ended decref _ _ => rfl
  | finish _ =>
    unfold finished
    dsimp only
    split_ifs <;> rfl

end Life

namespace Ring

variable {r r' : Ring}

def isOp (c : Nat) (sqe : Sqe) : Bool :=
  sqe.data = .op c

/-- The SQEs of `c` that are in the queue or with the kernel. -/
def flight (r : Ring) (c : Nat) : Nat :=
  (r.sq ++ r.kernel).countP (isOp c)

def life (r : Ring) (c : Nat) : Life :=
  .of (r.handle c) (r.bits c) (r.flight c) (r.staged.countP fun s => s.c = c) (r.built.count c)

/-! ## Where the SQEs are -/

theorem flight_enterKernel (r : Ring) (n c : Nat) : (r.enterKernel n).flight c = r.flight c := by
  have hsplit : (r.sq.take n).countP (isOp c) + (r.sq.drop n).countP (isOp c) = r.sq.countP (isOp c) := by
    rw [← countP_append, take_append_drop]
  simp only [flight, enterKernel_sq, enterKernel_kernel, countP_append]
  omega

theorem countP_newSqes (r : Ring) (c d : Nat) :
    (r.newSqes c).countP (isOp d) = if d = c then
      (if r.completionCountsPending c then 1 else 0) else 0 := by
  have hdata : (r.fillSqe c).data = .op c := by
    unfold fillSqe sendAllFillSqe
    split
    · split <;> rfl
    all_goals rfl
  have htimer : (if (r.bits c).timeout then [({ data := .linkTimeout } : Sqe)] else []).countP (isOp d) =
      0 := by
    split <;> rfl
  have hstamp : isOp d (r.stampSqe c) = (r.completionCountsPending c && decide (d = c)) := by
    unfold stampSqe isOp
    split
    · rename_i hcounts
      rw [hdata, hcounts]
      simp [eq_comm]
    · rename_i hcounts
      simp [hcounts]
  rw [newSqes, countP_cons, htimer, hstamp]
  by_cases hd : d = c
  · simp [hd]
  · simp [hd]

theorem flight_issue (r : Ring) (c d : Nat) (fp : Bool) :
    (r.issue c fp).flight d =
      r.flight d + if d = c then (if r.completionCountsPending c then 1 else 0) else 0 := by
  simp only [flight, issue_sq, issue_kernel, countP_append, countP_newSqes]
  omega

theorem flight_push_nowait (r : Ring) (kind : Kind) (fd sqeFd : Int) (c : Nat) :
    (r.push { data := .nowait kind fd, fd := sqeFd }).flight c = r.flight c := by
  simp [flight, countP_append, isOp]

/-! ## A change and one completion -/

theorem newRef_eq_ref (r : Ring) (c : Nat) : r.newRef c false = (r.life c).ref := by
  have hcounts : (r.life c).counts = r.completionCountsPending c := rfl
  unfold newRef Life.ref
  rw [hcounts]
  cases r.completionCountsPending c <;> rfl

theorem life_congr {c : Nat} (hhandle : r'.handle = r.handle)
    (hbits : ∃ a, r'.bits c = { r.bits c with abandon := a }) (hflight : r'.flight c = r.flight c)
    (hstaged : r'.staged = r.staged) (hbuilt : r'.built = r.built) : r'.life c = r.life c := by
  rcases hbits with ⟨a, ha⟩
  simp only [life, Life.of, hhandle, ha, hflight, hstaged, hbuilt, Bits.isAccepted]

theorem flight_copyPoison (r : Ring) (c d : Nat) : (r.copyPoison c).flight d = r.flight d :=
  copyPoison_other r c (fun r => r.flight d) fun _ _ _ => rfl

theorem staged_copyPoison (r : Ring) (c : Nat) : (r.copyPoison c).staged = r.staged :=
  copyPoison_other r c Ring.staged fun _ _ _ => rfl

theorem built_copyPoison (r : Ring) (c : Nat) : (r.copyPoison c).built = r.built :=
  copyPoison_other r c Ring.built fun _ _ _ => rfl

theorem life_copyPoison_ne (r : Ring) {c d : Nat} (hd : d ≠ c) : (r.copyPoison c).life d = r.life d :=
  life_congr (copyPoison_handle r c) ⟨(r.bits d).abandon, by rw [copyPoison_bits_ne r hd]⟩
    (flight_copyPoison r c d) (staged_copyPoison r c) (built_copyPoison r c)

theorem copyPoison_mono {c d : Nat} (h : (r.bits d).poison = true) :
    ((r.copyPoison c).bits d).poison = true := by
  rcases stageACopyAbortive_cases r c with heq | heq
  · rw [copyPoison, heq]
    exact h
  · rw [copyPoison, heq]
    by_cases hd : d = c
    · subst hd
      simp
    · simpa [hd] using h

theorem life_copyPoison_self (r : Ring) (c : Nat) :
    (r.copyPoison c).life c = { r.life c with poison := ((r.copyPoison c).bits c).poison } := by
  rcases copyPoison_bits_self r c with ⟨p, hp⟩
  simp only [life, Life.of, copyPoison_handle, flight_copyPoison, staged_copyPoison, built_copyPoison, hp,
    Bits.isAccepted]

theorem life_issue_ne (r : Ring) {c d : Nat} (hd : d ≠ c) (fp : Bool) :
    (r.issue c fp).life d = r.life d := by
  refine life_congr (issue_handle r c fp) (issue_bits_ne r c fp hd) ?_ (issue_staged r c fp)
    (issue_built r c fp)
  rw [flight_issue]
  simp [hd]

theorem life_issue_self (r : Ring) (c : Nat) (fp : Bool) :
    (r.issue c fp).life c =
      { r.life c with
        accepted := true
        flight := (r.life c).flight + (r.life c).ref
        inFlight := (r.life c).inFlight + r.newRef c fp } := by
  rcases issue_bits_self r c fp with ⟨a, ha⟩
  have hflight : (r.issue c fp).flight c = r.flight c + (r.life c).ref := by
    rw [flight_issue, if_pos rfl]
    rfl
  simp only [life, hflight, issue_handle, issue_staged, issue_built, ha]
  simp [Life.of, Bits.isAccepted]

theorem life_popParked {fd : Int} {slot : Slot} {c : Nat} {rest : List Nat} (hslot : r.slots fd = some slot)
    (hfifo : slot.fifo = c :: rest) (d : Nat) :
    (r.popParked fd).life d =
      if d = c then { r.life d with parked := false, accepted := (r.bits d).prepared } else r.life d := by
  rw [popParked_eq hslot hfifo]
  by_cases hd : d = c
  · subst hd
    simp [life, Life.of, flight, Bits.isAccepted]
  · rw [if_neg hd]
    exact life_congr rfl ⟨(r.bits d).abandon, by simp [hd]⟩ rfl rfl rfl

theorem life_park (r : Ring) (c d : Nat) (fd : Int) (slot : Slot) :
    (r.park c fd slot).life d =
      if d = c then
        { r.life d with
          accepted := true, parked := true, inFlight := (r.life d).inFlight + (r.life d).ref }
      else r.life d := by
  rw [park_eq]
  by_cases hd : d = c
  · subst hd
    rw [if_pos rfl]
    simp only [life, newRef_eq_ref, Function.update_self]
    simp [Life.of, flight, Bits.isAccepted]
  · rw [if_neg hd]
    refine life_congr rfl ⟨(r.bits d).abandon, ?_⟩ rfl rfl rfl
    simp [hd]

end Ring

open Uring.Ring in
theorem Change.life {r r' : Ring} (hparked : r.Parked) (h : Change r r') (d : Nat) :
    Life.Step (r.life d) (r'.life d) := by
  have hkeep : ∀ {r₁ : Ring}, r₁.life d = r.life d → Life.Step (r.life d) (r₁.life d) := by
    intro r₁ heq
    rw [heq]
    exact .keep
  cases h with
  | enter n => exact hkeep (life_congr rfl ⟨_, rfl⟩ (flight_enterKernel r n d) rfl rfl)
  | abandon t _ =>
    refine hkeep (life_congr rfl ?_ rfl rfl rfl)
    by_cases hd : d = t
    · subst hd
      exact ⟨true, by simp [abandonMark]⟩
    · exact ⟨(r.bits d).abandon, by simp [abandonMark, hd]⟩
  | opened fd _ _ => exact hkeep rfl
  | freed fd slot _ _ _ _ => exact hkeep rfl
  | parked c fd slot hnew _ _ _ =>
    rw [life_park]
    split
    · rename_i hd
      subst hd
      exact .park hnew
    · exact .keep
  | filled c hnew _ _ _ =>
    by_cases hd : d = c
    · subst hd
      rw [life_issue_self, newRef_eq_ref, life_copyPoison_self]
      exact .fill _ hnew
    · rw [life_issue_ne _ hd, life_copyPoison_ne r hd]
      exact .keep
  | copied fd slot c rest hslot hfifo _ =>
    have hfd : r.conflictFd c = some fd := hparked.fd fd slot hslot c (by simp [hfifo])
    rw [life_popParked (issue_slot true hfd hslot) (by simpa using hfifo)]
    by_cases hd : d = c
    · subst hd
      rcases issue_bits_self (r.copyPoison d) d true with ⟨a, ha⟩
      have href : (r.copyPoison d).newRef d true = 0 := by simp [newRef]
      rw [if_pos rfl, life_issue_self, life_copyPoison_self, href, ha, Int.add_zero]
      exact .copy _ (hparked.queued fd slot hslot d (by simp [hfifo])) copyPoison_mono
    · rw [if_neg hd, life_issue_ne _ hd, life_copyPoison_ne r hd]
      exact .keep
  | poisoned fd slot c rest hslot hfifo =>
    by_cases hd : d = c
    · subst hd
      rw [life_copyPoison_self]
      exact .poison _ (hparked.queued fd slot hslot d (by simp [hfifo])) copyPoison_mono
    · rw [life_copyPoison_ne r hd]
      exact .keep
  | posted kind fd sqeFd after _ _ =>
    refine hkeep (life_congr rfl ⟨_, rfl⟩ ?_ rfl rfl)
    exact flight_push_nowait r kind fd sqeFd d
  | tagged kind _ => exact hkeep (life_congr rfl ⟨_, rfl⟩ (flight_push_nowait r kind (-1) (-1) d) rfl rfl)
  | stranded e => exact hkeep rfl

end Pytealet.Uring
