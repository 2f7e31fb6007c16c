import Pytealet.Uring.Pipeline

/-!
# Abortive — the mark that refuses a descriptor's pipeline

The protocol of the abortive mark, as rules for the entries of the history: what sets the mark, what
clears it, what it does to the SQEs that are given while it is set, and when a slot is freed.
-/

namespace Pytealet.Uring

open Lib.Transition List Option

def isMarked (slot : Option Slot) : Bool :=
  slot.any fun slot => slot.abortive

/-- A close was given its SQE. -/
def Entry.Closes (e : Entry) : Prop :=
  ∃ op sqeFd parked, e.cause = .issue op .close sqeFd parked

/-- The rules that every write of the fd table keeps. -/
structure MarkRules (r : Ring) (e : Entry) : Prop where
  /-- An SQE is for an operation on this descriptor. -/
  names : ∀ op kind sqeFd parked, e.cause = .issue op kind sqeFd parked →
    (∃ c, op = .op c ∧ r.kind c = kind ∧ r.conflictFd c = some e.fd) ∨ op = .nowait kind e.fd
  sets : isMarked e.before = false → isMarked e.after = true →
    (∃ c res, e.cause = .release c res true ∧ res < 0 ∧ r.kind c = .sendAll ∧ (r.handle c).fd = e.fd) ∨
    ∃ c slot, e.cause = .abort c ∧ e.before = some slot ∧ (c ∈ slot.fifo ∨ slot.active = some c)
  clears : isMarked e.before = true → isMarked e.after = false → e.Closes
  closes : e.Closes → isMarked e.after = false
  refuses : ∀ op kind sqeFd parked, e.cause = .issue op kind sqeFd parked →
    completionKindConflicts kind = true → kind ≠ .close → isMarked e.before = true → sqeFd = -1
  leg : ∀ c sqeFd, e.cause = .leg c sqeFd → ∃ slot, e.before = some slot ∧ slot.active = some c ∧
    (slot.abortive = true → sqeFd = -1 ∨ slot.markedUnder = some c)
  /-- `markedUnder` is the `send_all` that was active when the mark was set. -/
  under : ∀ slot slot', e.before = some slot → e.after = some slot' → slot'.abortive = true →
    (slot.abortive = true → slot'.markedUnder = slot.markedUnder) ∧
    (slot.abortive = false → slot'.markedUnder = slot.active ∨ slot'.markedUnder = none)
  frees : e.before ≠ none → e.after = none →
    ∃ slot, e.before = some slot ∧ slot.abortive = false ∧ slot.active = none ∧ slot.fifo = []

namespace Ring

variable {r r' : Ring}

theorem fillSqe_fd_of_poison {c : Nat} (hpoison : (r.bits c).poison = true)
    (hkind : completionKindConflicts (r.kind c) = true) (hclose : r.kind c ≠ .close) :
    (r.fillSqe c).fd = -1 := by
  unfold fillSqe
  cases hk : r.kind c <;>
    simp_all [completionKindConflicts, sendAllFillSqe, completionSqeFd]
  split <;> rfl

theorem slotAfterIssue_abortive {c : Nat} (hclose : r.kind c ≠ .close) (slot : Slot) :
    (r.slotAfterIssue c slot).abortive = slot.abortive := by
  unfold slotAfterIssue
  split
  · rfl
  · rename_i h
    exact absurd h hclose
  · rfl

theorem slotAfterIssue_markedUnder (c : Nat) (slot : Slot) :
    (r.slotAfterIssue c slot).markedUnder = slot.markedUnder := by
  unfold slotAfterIssue
  split
  · rfl
  · split <;> rfl
  · rfl

theorem slotAfterIssue_close {c : Nat} {fd : Int} {slot : Slot} (hkind : r.kind c = .close)
    (hfd : r.conflictFd c = some fd) (hnonneg : 0 ≤ fd) (hactive : slot.active = none) :
    (r.slotAfterIssue c slot).abortive = false := by
  have hfd' : (r.handle c).fd = fd := by
    unfold kind at hkind
    simpa [conflictFd, conflictFdFrom, hkind] using hfd
  unfold slotAfterIssue
  rw [hkind, hfd']
  dsimp only
  split
  · rfl
  · rename_i h
    cases hmark : slot.abortive with
    | false => rfl
    | true => exact absurd ⟨hnonneg, hmark, hactive⟩ h

end Ring

namespace MarkRules

variable {r r' : Ring}

theorem plain {e : Entry} {slot slot' : Slot} (hbefore : e.before = some slot)
    (hafter : e.after = some slot')
    (hissue : ∀ op kind sqeFd parked, e.cause ≠ .issue op kind sqeFd parked)
    (hleg : ∀ c sqeFd, e.cause ≠ .leg c sqeFd) (hkeeps : slot.abortive = true → slot'.abortive = true)
    (hsets : slot.abortive = false → slot'.abortive = true →
      (∃ c res, e.cause = .release c res true ∧ res < 0 ∧ r.kind c = .sendAll ∧ (r.handle c).fd = e.fd) ∨
      ∃ c slot, e.cause = .abort c ∧ e.before = some slot ∧ (c ∈ slot.fifo ∨ slot.active = some c))
    (hunder : slot'.abortive = true → (slot.abortive = true → slot'.markedUnder = slot.markedUnder) ∧
      (slot.abortive = false → slot'.markedUnder = slot.active ∨ slot'.markedUnder = none)) :
    MarkRules r e where
  names op kind sqeFd parked h := absurd h (hissue _ _ _ _)
  sets hb ha := by
    rw [hbefore] at hb
    rw [hafter] at ha
    exact hsets hb ha
  clears hb ha := by
    rw [hbefore] at hb
    rw [hafter] at ha
    have hmark : slot'.abortive = false := ha
    rw [hkeeps hb] at hmark
    cases hmark
  closes := by
    rintro ⟨op, sqeFd, parked, h⟩
    exact absurd h (hissue _ _ _ _)
  refuses op kind sqeFd parked h := absurd h (hissue _ _ _ _)
  leg c sqeFd h := absurd h (hleg _ _)
  under s s' hs hs' hmark := by
    rw [hbefore] at hs
    rw [hafter] at hs'
    cases hs
    cases hs'
    exact hunder hmark
  frees _ ha := by
    rw [hafter] at ha
    cases ha

theorem issue (hp : r.Pipeline) {c : Nat} {fd : Int} (hfd : r.conflictFd c = some fd)
    (hidle : ∀ slot, r.slots fd = some slot → completionKindConflicts (r.kind c) = true →
      slot.active = none)
    (parked : Bool) :
    MarkRules r ⟨fd, r.slots fd, (r.slots fd).map (r.slotAfterIssue c),
      .issue (.op c) (r.kind c) ((r.copyPoison c).fillSqe c).fd parked⟩ where
  names op kind sqeFd p h := by
    cases h
    exact .inl ⟨c, rfl, rfl, hfd⟩
  sets hb ha := by
    cases hslot : r.slots fd with
    | none => simp [isMarked, hslot] at ha
    | some slot =>
      simp only [isMarked, hslot, map_some, any_some] at hb ha
      by_cases hsend : r.kind c = .sendAll
      · rw [Ring.slotAfterIssue_abortive (by simp [hsend]), hb] at ha
        cases ha
      · rw [(Ring.slotAfterIssue_other hsend slot).2.2 ha] at hb
        cases hb
  clears hb ha := by
    cases hslot : r.slots fd with
    | none => simp [isMarked, hslot] at hb
    | some slot =>
      simp only [isMarked, hslot, map_some, any_some] at hb ha
      have hclose : r.kind c = .close := by
        by_contra hclose
        rw [Ring.slotAfterIssue_abortive hclose, hb] at ha
        cases ha
      exact ⟨.op c, _, parked, by rw [hclose]⟩
  closes := by
    rintro ⟨op, sqeFd, p, h⟩
    have hclose : r.kind c = .close := by
      cases h' : r.kind c <;> simp_all
    cases hslot : r.slots fd with
    | none => rfl
    | some slot =>
      have hactive := hidle slot hslot (by simp [hclose, completionKindConflicts])
      exact Ring.slotAfterIssue_close hclose hfd (hp.nonneg fd slot hslot) hactive
  refuses op kind sqeFd p h hkind hclose hb := by
    cases h
    cases hslot : r.slots fd with
    | none => simp [isMarked, hslot] at hb
    | some slot =>
      have hmark : slot.abortive = true := by simpa [isMarked, hslot] using hb
      have hpoison := Ring.copyPoison_poisons hfd hslot hmark hkind hclose
      apply Ring.fillSqe_fd_of_poison hpoison
      · rw [Ring.kind_copyPoison]
        exact hkind
      · rw [Ring.kind_copyPoison]
        exact hclose
  leg c' sqeFd h := by cases h
  under s s' hs hs' hmark := by
    have hs₀ : r.slots fd = some s := hs
    have hs₁ : (r.slots fd).map (r.slotAfterIssue c) = some s' := hs'
    rw [hs₀] at hs₁
    cases hs₁
    refine ⟨fun _ => Ring.slotAfterIssue_markedUnder c s, ?_⟩
    intro hb
    by_cases hsend : r.kind c = .sendAll
    · rw [Ring.slotAfterIssue_abortive (by simp [hsend]), hb] at hmark
      cases hmark
    · rw [(Ring.slotAfterIssue_other hsend s).2.2 hmark] at hb
      cases hb
  frees hb ha := by
    cases hslot : r.slots fd with
    | none => exact absurd hslot hb
    | some slot => simp [hslot] at ha

theorem posted {kind : Kind} {fd sqeFd : Int} {after : Option Slot}
    (hpark : r.nowaitFdOpMustPark fd = false)
    (hafter : kind = .close ∧ sqeFd = fd ∧
        after = (r.slots fd).map (fun slot => { slot with abortive := false }) ∨
      kind = .shutdown ∧ sqeFd = (if r.idleAbortive fd then -1 else fd) ∧ after = r.slots fd) :
    MarkRules r ⟨fd, r.slots fd, after, .issue (.nowait kind fd) kind sqeFd false⟩ := by
  rcases hafter with ⟨rfl, rfl, rfl⟩ | ⟨rfl, rfl, rfl⟩
  · have hclear : isMarked ((r.slots sqeFd).map fun slot => { slot with abortive := false }) = false := by
      cases hslot : r.slots sqeFd <;> simp [isMarked]
    refine ⟨?_, ?_, ?_, fun _ => hclear, ?_, by simp, ?_, ?_⟩
    · intro op kind sqeFd' p h
      cases h
      exact .inr rfl
    · intro _ ha
      rw [hclear] at ha
      cases ha
    · intro _ _
      exact ⟨_, _, _, rfl⟩
    · intro op kind sqeFd' p h _ hclose
      cases h
      exact absurd rfl hclose
    · intro s s' hs hs' hmark
      have hs₀ : r.slots sqeFd = some s := hs
      simp only [hs₀, map_some, Option.some.injEq] at hs'
      rw [← hs'] at hmark
      cases hmark
    · intro hb ha
      have ha' : (r.slots sqeFd).map (fun slot => { slot with abortive := false }) = none := ha
      exact absurd (map_eq_none_iff.1 ha') hb
  · refine ⟨?_, ?_, ?_, ?_, ?_, by simp, ?_, ?_⟩
    · intro op kind sqeFd' p h
      cases h
      exact .inr rfl
    · intro hb ha
      rw [hb] at ha
      cases ha
    · intro hb ha
      rw [hb] at ha
      cases ha
    · rintro ⟨op, sqeFd', p, h⟩
      cases h
    · intro op kind sqeFd' p h _ _ hb
      cases h
      have hidle : r.idleAbortive fd = true := by
        cases hslot : r.slots fd with
        | none => simp [isMarked, hslot] at hb
        | some slot =>
          have hmark : slot.abortive = true := by simpa [isMarked, hslot] using hb
          simp only [Ring.nowaitFdOpMustPark, hslot, ne_eq, Bool.or_eq_false_iff, decide_eq_false_iff_not,
            not_not] at hpark
          simp [Ring.idleAbortive, hslot, hmark, hpark]
      rw [if_pos hidle]
    · intro s s' hs hs' hmark
      have hsame : s = s' := Option.some.inj (hs.symm.trans hs')
      subst hsame
      exact ⟨fun _ => rfl, fun hb => by rw [hmark] at hb; cases hb⟩
    · intro hb ha
      exact absurd ha hb

theorem touch (hp : r.Pipeline) {es : List Entry} (ht : Touch r es) : ∀ e ∈ es, MarkRules r e := by
  cases ht with
  | none =>
    intro e he
    cases he
  | opened fd _ hslot =>
    intro e he
    rw [mem_singleton.1 he, hslot]
    refine ⟨by simp, ?_, ?_, ?_, by simp, by simp, by simp, by simp⟩
    · intro _ ha
      cases ha
    · intro hb
      cases hb
    · intro _
      rfl
  | freed fd slot hslot hmark hactive hfifo =>
    intro e he
    rw [mem_singleton.1 he, hslot]
    refine ⟨by simp, ?_, ?_, ?_, by simp, by simp, by simp, ?_⟩
    · intro _ ha
      cases ha
    · intro hb
      have hb' : slot.abortive = true := hb
      rw [hmark] at hb'
      cases hb'
    · intro _
      rfl
    · intro _ _
      exact ⟨slot, rfl, hmark, hactive, hfifo⟩
  | parked c fd slot _ hslot _ =>
    intro e he
    rw [mem_singleton.1 he]
    refine plain hslot rfl (by simp) (by simp) id ?_ ?_
    · intro hb ha
      rw [hb] at ha
      cases ha
    · intro hmark
      exact ⟨fun _ => rfl, fun hb => by rw [hb] at hmark; cases hmark⟩
  | issued c fd hfd hpark _ =>
    intro e he
    rw [mem_singleton.1 he]
    refine issue hp hfd ?_ false
    intro slot hslot hkind
    exact (Ring.idle_of_shouldEnqueueConflict hpark hfd hslot hkind).1
  | copied c fd slot rest hfd hslot _ hturn =>
    intro e he
    rcases mem_cons.1 he with rfl | he
    · have hidle : ∀ slot', r.slots fd = some slot' → completionKindConflicts (r.kind c) = true →
          slot'.active = none := by
        intro slot' hslot' hkind
        rw [hslot] at hslot'
        cases hslot'
        exact Ring.idle_of_turn hturn hkind
      have hrule := issue hp hfd hidle true
      rw [hslot] at hrule ⊢
      exact hrule
    · rw [mem_singleton.1 he]
      refine plain rfl rfl (by simp) (by simp) id ?_ ?_
      · intro hb ha
        rw [hb] at ha
        cases ha
      · intro hmark
        exact ⟨fun _ => rfl, fun hb => by rw [hb] at hmark; cases hmark⟩
  | posted kind fd sqeFd after hpark hafter =>
    intro e he
    rw [mem_singleton.1 he]
    exact posted hpark hafter
  | aborted c fd slot hslot hmem =>
    intro e he
    rw [mem_singleton.1 he]
    refine plain hslot rfl (by simp) (by simp) (fun _ => rfl) ?_ ?_
    · intro _ _
      exact .inr ⟨c, slot, rfl, hslot, hmem⟩
    · intro _
      refine ⟨fun hb => by simp [Ring.abortedSlot, hb], fun hb => .inl (by simp [Ring.abortedSlot, hb])⟩
  | leg c hkind hstaged =>
    intro e he
    rw [mem_singleton.1 he]
    rcases hp.active c hkind (Nat.lt_of_lt_of_le hstaged (Nat.le_add_left _ _)) with ⟨slot, hslot, hactive⟩
    refine ⟨by simp, ?_, ?_, ?_, by simp, ?_, ?_, ?_⟩
    · intro hb ha
      rw [hb] at ha
      cases ha
    · intro hb ha
      rw [hb] at ha
      cases ha
    · rintro ⟨op, sqeFd, p, h⟩
      cases h
    · intro c' sqeFd h
      cases h
      refine ⟨slot, hslot, hactive, ?_⟩
      intro hmark
      rcases hp.marked _ slot c hslot hmark hactive with hpoison | hunder
      · exact .inl (by simp [Ring.completionSqeFd, hpoison])
      · exact .inr hunder
    · intro s s' hs hs' hmark
      have hsame : s = s' := Option.some.inj (hs.symm.trans hs')
      subst hsame
      exact ⟨fun _ => rfl, fun hb => by rw [hmark] at hb; cases hb⟩
    · intro hb ha
      exact absurd ha hb
  | released c slot hkind hslot _ _ _ =>
    intro e he
    rw [mem_singleton.1 he]
    refine plain hslot rfl (by simp) (by simp) (fun hb => by simp [Ring.releasedSlot, hb]) ?_ ?_
    · intro hb ha
      simp only [Ring.releasedSlot, hb, Bool.false_or, Bool.and_eq_true, decide_eq_true_eq] at ha
      exact .inl ⟨c, (r.bits c).res, by rw [ha.2], ha.1, hkind, rfl⟩
    · intro _
      exact ⟨fun hb => by simp [Ring.releasedSlot, hb], fun hb => .inr (by simp [Ring.releasedSlot, hb])⟩

theorem congr (hhandle : r'.handle = r.handle) {e : Entry} (h : MarkRules r e) : MarkRules r' e := by
  have hkind : r'.kind = r.kind := by
    unfold Ring.kind
    rw [hhandle]
  have hfd : r'.conflictFd = r.conflictFd := by
    unfold Ring.conflictFd
    rw [hhandle]
  refine ⟨?_, ?_, h.clears, h.closes, h.refuses, h.leg, h.under, h.frees⟩
  · rw [hkind, hfd]
    exact h.names
  · rw [hkind, hhandle]
    exact h.sets

end MarkRules

/-! ## Whole runs -/

/-- Every entry finds the slot as the entries before it left it. -/
def Chain (slots : Int → Option Slot) : List Entry → Prop
  | [] => True
  | e :: es => e.before = slots e.fd ∧ Chain (Function.update slots e.fd e.after) es

theorem chain_append {slots : Int → Option Slot} {es es' : List Entry} :
    Chain slots (es ++ es') ↔ Chain slots es ∧ Chain (written slots es) es' := by
  induction es generalizing slots with
  | nil => simp [Chain, written]
  | cons e es ih =>
    have hwritten : written slots (e :: es) = written (Function.update slots e.fd e.after) es := rfl
    simp only [cons_append, Chain, ih, hwritten, and_assoc]

theorem Touch.chain {r : Ring} {es : List Entry} (h : Touch r es) : Chain r.slots es := by
  cases h with
  | none => trivial
  | copied c fd slot rest _ hslot _ _ => exact ⟨rfl, by simp, trivial⟩
  | _ => exact ⟨rfl, trivial⟩

/-- The table is what the history says, and the history keeps the rules of the mark. -/
structure Ring.MarkProtocol (r : Ring) : Prop where
  chain : Chain (fun _ => none) r.log
  slots : r.slots = written (fun _ => none) r.log
  rules : ∀ e ∈ r.log, MarkRules r e

namespace Ring

variable {r r' : Ring}

structure Recorded (r : Ring) : Prop where
  orderly : r.Orderly
  pipeline : r.Pipeline
  protocol : r.MarkProtocol

namespace Recorded

theorem init (entries : Nat) (makeRoom : Bool) (handle : Nat → Handle) :
    (Ring.init entries makeRoom handle).Recorded := by
  refine ⟨.init entries makeRoom handle, .init entries makeRoom handle, trivial, rfl, ?_⟩
  intro e he
  simp [Ring.init] at he

theorem touch (h : r.Recorded) {es : List Entry} (ht : Touches r es r') (ho : r'.Orderly) :
    r'.Recorded := by
  refine ⟨ho, h.pipeline.touch ht, ?_, ?_, ?_⟩
  · rw [ht.log, chain_append, ← h.protocol.slots]
    exact ⟨h.protocol.chain, ht.touch.chain⟩
  · rw [ht.log, written_append, ← h.protocol.slots, ht.slots]
  · intro e he
    rw [ht.log] at he
    rcases mem_append.1 he with hold | hnew
    · exact (h.protocol.rules e hold).congr ht.handle
    · exact (MarkRules.touch h.pipeline ht.touch e hnew).congr ht.handle

theorem moves (h : r.Recorded) (hm : Moves r r') : r'.Recorded := by
  induction hm with
  | refl => exact h
  | tail _ hm ih =>
    rcases Touches.move ih.orderly hm with ⟨es, ht⟩
    exact ih.touch ht (ih.orderly.move hm)

theorem step {a : Act} (h : r.Recorded) (hs : step r a = some r') : r'.Recorded := by
  rcases step_cases h.orderly hs with hc | hm
  · rcases Touches.consumes h.orderly hc with ⟨es, ht⟩
    exact h.touch ht (h.orderly.consumes hc)
  · exact h.moves hm

end Recorded

end Ring

/-- The abortive mark of a descriptor is set, cleared and obeyed by the rules in every state of
every run. -/
theorem abortive_mark_protocol (entries : Nat) (makeRoom : Bool) (handle : Nat → Handle) (as : List Act) :
    Always step Ring.MarkProtocol (Ring.init entries makeRoom handle) as :=
  always_of_invariant (fun _ h => Ring.Recorded.protocol h) (fun _ _ _ h hs => Ring.Recorded.step h hs) as _
    (.init entries makeRoom handle)

end Pytealet.Uring
