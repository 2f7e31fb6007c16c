import Mathlib.Data.List.Nodup
import Pytealet.Uring.Effects

/-!
# Parked — what is on a conflict FIFO

An operation on a FIFO has the FIFO's descriptor and carries the queued bit, and no FIFO has one
twice.  An operation that is not accepted is not poisoned.
-/

namespace Pytealet.Uring

open Function List

def Ring.FifoFd (r : Ring) : Prop :=
  ∀ fd slot, r.slots fd = some slot → ∀ c ∈ slot.fifo, r.conflictFd c = some fd

namespace Ring.FifoFd

variable {r r' : Ring}

theorem congr (h : r.FifoFd) (hslots : r'.slots = r.slots) (hhandle : r'.handle = r.handle) :
    r'.FifoFd := by
  unfold FifoFd conflictFd
  rw [hslots, hhandle]
  exact h

theorem write (h : r.FifoFd) {fd : Int} {after : Option Slot} (cause : Cause)
    (hafter : ∀ slot, after = some slot → ∀ c ∈ slot.fifo, r.conflictFd c = some fd) :
    (r.write fd after cause).FifoFd := by
  intro fd' slot hslot
  rw [conflictFd_write]
  by_cases hfd : fd' = fd
  · subst hfd
    apply hafter slot
    simpa using hslot
  · apply h fd' slot
    simpa [hfd] using hslot

theorem issue (h : r.FifoFd) (c : Nat) (fp : Bool) : (r.issue c fp).FifoFd := by
  intro fd slot hslot
  rw [conflictFd_issue]
  rw [issue_slots] at hslot
  split at hslot
  · exact h fd slot hslot
  · rename_i fd' hfd'
    by_cases hfd : fd = fd'
    · subst hfd
      rw [update_self] at hslot
      rcases Option.map_eq_some_iff.1 hslot with ⟨slot', hslot', rfl⟩
      rw [slotAfterIssue_fifo]
      exact h fd slot' hslot'
    · rw [update_of_ne hfd] at hslot
      exact h fd slot hslot

end Ring.FifoFd

/-! ## The queued bit -/

/-- Every FIFO is a list without repetitions of operations that carry the queued bit. -/
structure Ring.Parked (r : Ring) : Prop where
  fd : r.FifoFd
  queued : ∀ fd slot, r.slots fd = some slot → ∀ c ∈ slot.fifo, (r.bits c).conflictQueued = true
  nodup : ∀ fd slot, r.slots fd = some slot → slot.fifo.Nodup

namespace Ring.Parked

variable {r r' : Ring}

theorem init (entries : Nat) (makeRoom : Bool) (handle : Nat → Handle) :
    (Ring.init entries makeRoom handle).Parked := by
  refine ⟨?_, ?_, ?_⟩ <;> intro fd slot hslot <;> simp [Ring.init] at hslot

theorem sub (h : r.Parked) (hfd : r'.FifoFd)
    (hbits : ∀ c, (r'.bits c).conflictQueued = (r.bits c).conflictQueued)
    (hslots : ∀ fd slot', r'.slots fd = some slot' → slot'.fifo = [] ∨
      ∃ slot, r.slots fd = some slot ∧ slot'.fifo = slot.fifo) : r'.Parked := by
  refine ⟨hfd, ?_, ?_⟩
  · intro fd slot' hslot' c hc
    rw [hbits]
    rcases hslots fd slot' hslot' with hnil | ⟨slot, hslot, hfifo⟩
    · simp [hnil] at hc
    · rw [hfifo] at hc
      exact h.queued fd slot hslot c hc
  · intro fd slot' hslot'
    rcases hslots fd slot' hslot' with hnil | ⟨slot, hslot, hfifo⟩
    · simp [hnil]
    · rw [hfifo]
      exact h.nodup fd slot hslot

theorem congr (h : r.Parked) (hslots : r'.slots = r.slots) (hhandle : r'.handle = r.handle)
    (hbits : ∀ c, (r'.bits c).conflictQueued = (r.bits c).conflictQueued) : r'.Parked := by
  refine h.sub (h.fd.congr hslots hhandle) hbits ?_
  intro fd slot hslot
  rw [hslots] at hslot
  exact .inr ⟨slot, hslot, rfl⟩

theorem write (h : r.Parked) {fd : Int} {after : Option Slot} (cause : Cause)
    (hafter : ∀ slot', after = some slot' → slot'.fifo = [] ∨
      ∃ slot, r.slots fd = some slot ∧ slot'.fifo = slot.fifo) : (r.write fd after cause).Parked := by
  refine h.sub (h.fd.write cause ?_) (fun _ => rfl) ?_
  · intro slot' hslot' c hc
    rcases hafter slot' hslot' with hnil | ⟨slot, hslot, hfifo⟩
    · simp [hnil] at hc
    · rw [hfifo] at hc
      exact h.fd fd slot hslot c hc
  · intro fd' slot' hslot'
    by_cases hfd : fd' = fd
    · subst hfd
      exact hafter slot' (by simpa using hslot')
    · exact .inr ⟨slot', by simpa [hfd] using hslot', rfl⟩

theorem issue (h : r.Parked) (c : Nat) (fp : Bool) : (r.issue c fp).Parked := by
  refine h.sub (h.fd.issue c fp) ?_ ?_
  · intro d
    by_cases hd : d = c
    · subst hd
      rcases issue_bits_self r d fp with ⟨a, ha⟩
      rw [ha]
    · rcases issue_bits_ne r c fp hd with ⟨a, ha⟩
      rw [ha]
  · intro fd slot' hslot'
    rw [issue_slots] at hslot'
    split at hslot'
    · exact .inr ⟨slot', hslot', rfl⟩
    · rename_i fd' _
      by_cases hfd : fd = fd'
      · subst hfd
        rw [update_self] at hslot'
        rcases Option.map_eq_some_iff.1 hslot' with ⟨slot, hslot, rfl⟩
        exact .inr ⟨slot, hslot, slotAfterIssue_fifo r c slot⟩
      · rw [update_of_ne hfd] at hslot'
        exact .inr ⟨slot', hslot', rfl⟩

theorem copyPoison (h : r.Parked) (c : Nat) : (r.copyPoison c).Parked := by
  refine h.congr (copyPoison_slots r c) (copyPoison_handle r c) ?_
  intro d
  by_cases hd : d = c
  · subst hd
    rcases copyPoison_bits_self r d with ⟨p, hp⟩
    rw [hp]
  · rw [copyPoison_bits_ne r hd]

theorem not_mem (h : r.Parked) {c : Nat} (hnew : (r.bits c).conflictQueued = false) {fd : Int} {slot : Slot}
    (hslot : r.slots fd = some slot) : c ∉ slot.fifo := by
  intro hc
  rw [h.queued fd slot hslot c hc] at hnew
  cases hnew

theorem park (h : r.Parked) {c : Nat} {fd : Int} {slot : Slot} (hnew : (r.bits c).isAccepted = false)
    (hfd : r.conflictFd c = some fd) (hslot : r.slots fd = some slot) : (r.park c fd slot).Parked := by
  have hqueued : (r.bits c).conflictQueued = false := by
    simp only [Bits.isAccepted, Bool.or_eq_false_iff] at hnew
    exact hnew.2
  have hslots : ∀ fd' slot', (r.park c fd slot).slots fd' = some slot' →
      (fd' = fd ∧ slot'.fifo = slot.fifo ++ [c]) ∨ r.slots fd' = some slot' := by
    intro fd' slot' hslot'
    rw [park_eq] at hslot'
    dsimp only at hslot'
    by_cases hfd' : fd' = fd
    · subst hfd'
      rw [update_self] at hslot'
      cases hslot'
      exact .inl ⟨rfl, rfl⟩
    · rw [update_of_ne hfd'] at hslot'
      exact .inr hslot'
  refine ⟨?_, ?_, ?_⟩
  · intro fd' slot' hslot' d hd
    have hconflict : (r.park c fd slot).conflictFd = r.conflictFd := by rw [park_eq]; rfl
    rw [hconflict]
    rcases hslots fd' slot' hslot' with ⟨rfl, hfifo⟩ | hold
    · rw [hfifo] at hd
      rcases mem_append.1 hd with hd | hd
      · exact h.fd fd' slot hslot d hd
      · rw [mem_singleton.1 hd]
        exact hfd
    · exact h.fd fd' slot' hold d hd
  · intro fd' slot' hslot' d hd
    rw [park_eq]
    dsimp only
    by_cases hdc : d = c
    · subst hdc
      simp
    · rw [update_of_ne hdc]
      rcases hslots fd' slot' hslot' with ⟨rfl, hfifo⟩ | hold
      · rw [hfifo] at hd
        rcases mem_append.1 hd with hd | hd
        · exact h.queued fd' slot hslot d hd
        · exact absurd (mem_singleton.1 hd) hdc
      · exact h.queued fd' slot' hold d hd
  · intro fd' slot' hslot'
    rcases hslots fd' slot' hslot' with ⟨rfl, hfifo⟩ | hold
    · rw [hfifo]
      exact List.Nodup.append (h.nodup fd' slot hslot) (nodup_singleton c)
        (by simpa using h.not_mem hqueued hslot)
    · exact h.nodup fd' slot' hold

theorem popParked (h : r.Parked) (fd : Int) : (r.popParked fd).Parked := by
  cases hslot : r.slots fd with
  | none =>
    have heq : r.popParked fd = r := by simp [Ring.popParked, hslot]
    rw [heq]
    exact h
  | some slot =>
    cases hfifo : slot.fifo with
    | nil =>
      have heq : r.popParked fd = r := by simp [Ring.popParked, hslot, hfifo]
      rw [heq]
      exact h
    | cons c rest =>
      have hnodup : (c :: rest).Nodup := hfifo ▸ h.nodup fd slot hslot
      rw [popParked_eq hslot hfifo]
      -- what is left on the FIFO, and every other FIFO, does not have `c`
      have hslots : ∀ fd' slot', (r.write fd (some { slot with fifo := rest }) (.pop c)).slots fd' =
          some slot' → c ∉ slot'.fifo ∧ slot'.fifo.Nodup ∧
            ∃ slot'', r.slots fd' = some slot'' ∧ ∀ d ∈ slot'.fifo, d ∈ slot''.fifo := by
        intro fd' slot' hslot'
        by_cases hfd : fd' = fd
        · subst hfd
          rw [write_slots, update_self] at hslot'
          cases hslot'
          refine ⟨(nodup_cons.1 hnodup).1, (nodup_cons.1 hnodup).2, slot, hslot, ?_⟩
          intro d hd
          rw [hfifo]
          exact mem_cons_of_mem c hd
        · rw [write_slots, update_of_ne hfd] at hslot'
          refine ⟨?_, h.nodup fd' slot' hslot', slot', hslot', fun d hd => hd⟩
          intro hc
          have hfd' := h.fd fd' slot' hslot' c hc
          rw [h.fd fd slot hslot c (by simp [hfifo])] at hfd'
          exact hfd (Option.some.inj hfd').symm
      refine ⟨?_, ?_, ?_⟩
      · intro fd' slot' hslot' d hd
        rcases hslots fd' slot' hslot' with ⟨-, -, slot'', hslot'', hsub⟩
        exact h.fd fd' slot'' hslot'' d (hsub d hd)
      · intro fd' slot' hslot' d hd
        rcases hslots fd' slot' hslot' with ⟨hc, -, slot'', hslot'', hsub⟩
        have hdc : d ≠ c := by
          rintro rfl
          exact hc hd
        rw [setBits_bits, update_of_ne hdc]
        exact h.queued fd' slot'' hslot'' d (hsub d hd)
      · intro fd' slot' hslot'
        exact (hslots fd' slot' hslot').2.1

theorem change (h : r.Parked) (hc : Change r r') : r'.Parked := by
  cases hc with
  | enter n => exact h.congr rfl rfl fun _ => rfl
  | abandon t _ =>
    refine h.congr rfl rfl ?_
    intro d
    by_cases hd : d = t
    · subst hd
      simp [abandonMark]
    · simp [abandonMark, hd]
  | opened fd _ _ => exact h.write _ (by simp)
  | freed fd slot _ _ _ _ => exact h.write _ (by simp)
  | parked c fd slot hnew hfd hslot _ => exact h.park hnew hfd hslot
  | filled c _ _ _ _ => exact (h.copyPoison c).issue c false
  | copied fd slot c rest _ _ _ => exact ((h.copyPoison c).issue c true).popParked fd
  | poisoned fd slot c rest _ _ => exact h.copyPoison c
  | posted kind fd sqeFd after _ hafter =>
    unfold post
    refine Parked.write (r := r.push _) (h.congr rfl rfl fun _ => rfl) _ ?_
    intro slot' hslot'
    rcases hafter with ⟨-, -, hafter⟩ | ⟨-, -, hafter⟩
    · rw [hafter] at hslot'
      rcases Option.map_eq_some_iff.1 hslot' with ⟨slot, hslot, rfl⟩
      exact .inr ⟨slot, hslot, rfl⟩
    · rw [hafter] at hslot'
      exact .inr ⟨slot', hslot', rfl⟩
  | tagged kind _ => exact h.congr rfl rfl fun _ => rfl
  | stranded e => exact h.congr rfl rfl fun _ => rfl

end Ring.Parked

end Pytealet.Uring
