import Pytealet.Uring.Touches

/-!
# Pipeline — the active `send_all` of a descriptor

A `send_all` with a request in flight or a CQE staged is the active one of its descriptor.  When the
slot is marked abortive, the active `send_all` is poisoned or was already active when the mark was
set.
-/

namespace Pytealet.Uring

namespace Ring

variable {r r' : Ring}

theorem slotAfterIssue_sendAll {c : Nat} (hkind : r.kind c = .sendAll) (slot : Slot) :
    r.slotAfterIssue c slot = { slot with active := some c } := by
  simp [slotAfterIssue, hkind]

theorem slotAfterIssue_other {c : Nat} (hkind : r.kind c ≠ .sendAll) (slot : Slot) :
    (r.slotAfterIssue c slot).active = slot.active ∧
      (r.slotAfterIssue c slot).markedUnder = slot.markedUnder ∧
      ((r.slotAfterIssue c slot).abortive = true → slot.abortive = true) := by
  unfold slotAfterIssue
  split
  · rename_i h
    exact absurd h hkind
  · split
    · exact ⟨rfl, rfl, by simp⟩
    · exact ⟨rfl, rfl, id⟩
  · exact ⟨rfl, rfl, id⟩

theorem copyPoison_poisons {c : Nat} {fd : Int} {slot : Slot} (hfd : r.conflictFd c = some fd)
    (hslot : r.slots fd = some slot) (hmark : slot.abortive = true)
    (hkind : completionKindConflicts (r.kind c) = true) (hclose : r.kind c ≠ .close) :
    ((r.copyPoison c).bits c).poison = true := by
  have hcancel : r.kind c ≠ .cancel := by
    intro h
    simp [h, completionKindConflicts] at hkind
  simp [copyPoison, stageACopyAbortive, hfd, hslot, hmark, hkind, hclose, hcancel]

structure Pipeline (r : Ring) : Prop where
  nonneg : ∀ fd slot, r.slots fd = some slot → 0 ≤ fd
  active : ∀ c, r.kind c = .sendAll → 0 < (r.life c).busy →
    ∃ slot, r.slots (r.handle c).fd = some slot ∧ slot.active = some c
  marked : ∀ fd slot c, r.slots fd = some slot → slot.abortive = true → slot.active = some c →
    (r.bits c).poison = true ∨ slot.markedUnder = some c

namespace Pipeline

theorem init (entries : Nat) (makeRoom : Bool) (handle : Nat → Handle) :
    (Ring.init entries makeRoom handle).Pipeline := by
  refine ⟨by simp [Ring.init], ?_, by simp [Ring.init]⟩
  intro c _ hbusy
  simp [Ring.init, Life.busy, life, Life.of, flight] at hbusy

variable {es : List Entry}

theorem congr (h : r.Pipeline) (ht : Touches r es r') (hslots : r'.slots = r.slots)
    (hgives : ∀ c, ¬ Gives es c) : r'.Pipeline := by
  refine ⟨?_, ?_, ?_⟩
  · rw [hslots]
    exact h.nonneg
  · intro c hkind hbusy
    unfold kind at hkind
    rw [ht.handle] at hkind ⊢
    rw [hslots]
    rcases ht.started c hkind hbusy with hpos | hc
    · exact h.active c hkind hpos
    · exact absurd hc (hgives c)
  · intro fd slot c hslot hmark hactive
    rw [hslots] at hslot
    exact (h.marked fd slot c hslot hmark hactive).imp_left (ht.poison c)

theorem update (h : r.Pipeline) (ht : Touches r es r') {fd : Int} {after : Option Slot}
    (hslots : r'.slots = Function.update r.slots fd after)
    (hgives : ∀ c, Gives es c → r.conflictFd c = some fd) (hnonneg : ∀ slot, after = some slot → 0 ≤ fd)
    (hactive : ∀ c, r.kind c = .sendAll → (r.handle c).fd = fd → 0 < (r'.life c).busy →
      ∃ slot, after = some slot ∧ slot.active = some c)
    (hmarked : ∀ slot c, after = some slot → slot.abortive = true → slot.active = some c →
      (r'.bits c).poison = true ∨ slot.markedUnder = some c) : r'.Pipeline := by
  refine ⟨?_, ?_, ?_⟩
  · intro fd' slot hslot
    rw [hslots] at hslot
    by_cases hfd : fd' = fd
    · subst hfd
      rw [Function.update_self] at hslot
      exact hnonneg slot hslot
    · rw [Function.update_of_ne hfd] at hslot
      exact h.nonneg fd' slot hslot
  · intro c hkind hbusy
    unfold kind at hkind
    rw [ht.handle] at hkind ⊢
    rw [hslots]
    by_cases hfd : (r.handle c).fd = fd
    · rw [hfd, Function.update_self]
      exact hactive c hkind hfd hbusy
    · rw [Function.update_of_ne hfd]
      rcases ht.started c hkind hbusy with hpos | hc
      · exact h.active c hkind hpos
      · have hfd' := hgives c hc
        rw [conflictFd_sendAll hkind] at hfd'
        exact absurd (Option.some.inj hfd') hfd
  · intro fd' slot c hslot hmark hact
    rw [hslots] at hslot
    by_cases hfd : fd' = fd
    · subst hfd
      rw [Function.update_self] at hslot
      exact hmarked slot c hslot hmark hact
    · rw [Function.update_of_ne hfd] at hslot
      exact (h.marked fd' slot c hslot hmark hact).imp_left (ht.poison c)

theorem rewrite (h : r.Pipeline) (ht : Touches r es r') {fd : Int} {slot after : Slot}
    (hslot : r.slots fd = some slot) (hslots : r'.slots = Function.update r.slots fd (some after))
    (hgives : ∀ c, ¬ Gives es c)
    (hactive : ∀ c, slot.active = some c → 0 < (r.life c).busy → after.active = some c)
    (hmarked : ∀ c, after.abortive = true → after.active = some c →
      (r'.bits c).poison = true ∨ after.markedUnder = some c) : r'.Pipeline := by
  refine h.update ht hslots (fun c hc => absurd hc (hgives c)) (fun _ _ => h.nonneg fd slot hslot) ?_ ?_
  · intro c hkind hfd hbusy
    rcases ht.started c hkind hbusy with hpos | hc
    · rcases h.active c hkind hpos with ⟨slot', hslot', hact⟩
      rw [hfd, hslot] at hslot'
      cases hslot'
      exact ⟨after, rfl, hactive c hact hpos⟩
    · exact absurd hc (hgives c)
  · intro slot' c hslot' hmark hact
    cases hslot'
    exact hmarked c hmark hact

theorem issue (h : r.Pipeline) (ht : Touches r es r') {c : Nat} {fd : Int}
    {slot after : Slot} (hfd : r.conflictFd c = some fd) (hslot : r.slots fd = some slot)
    (hslots : r'.slots = Function.update r.slots fd (some after)) (hgives : ∀ d, Gives es d ↔ d = c)
    (hidle : r.kind c = .sendAll → slot.active = none)
    (hafter : after.active = (r.slotAfterIssue c slot).active ∧
      after.markedUnder = (r.slotAfterIssue c slot).markedUnder ∧
      after.abortive = (r.slotAfterIssue c slot).abortive) : r'.Pipeline := by
  rcases hafter with ⟨hactive, hunder, hmark⟩
  refine h.update ht hslots (fun d hd => (hgives d).1 hd ▸ hfd) (fun _ _ => h.nonneg fd slot hslot) ?_ ?_
  · intro d hkind hdfd hbusy
    refine ⟨after, rfl, ?_⟩
    rw [hactive]
    by_cases hsend : r.kind c = .sendAll
    · rw [slotAfterIssue_sendAll hsend]
      -- another busy `send_all` would be the active one of this slot
      rcases ht.started d hkind hbusy with hpos | hd
      · rcases h.active d hkind hpos with ⟨slot', hslot', hact⟩
        rw [hdfd, hslot] at hslot'
        cases hslot'
        rw [hidle hsend] at hact
        cases hact
      · rw [(hgives d).1 hd]
    · rw [(slotAfterIssue_other hsend slot).1]
      rcases ht.started d hkind hbusy with hpos | hd
      · rcases h.active d hkind hpos with ⟨slot', hslot', hact⟩
        rw [hdfd, hslot] at hslot'
        cases hslot'
        exact hact
      · rw [(hgives d).1 hd] at hkind
        exact absurd hkind hsend
  · intro slot' d hslot' hmark' hact
    cases hslot'
    rw [hunder]
    rw [hmark] at hmark'
    rw [hactive] at hact
    by_cases hsend : r.kind c = .sendAll
    · rw [slotAfterIssue_sendAll hsend] at hmark' hact
      cases hact
      refine .inl ?_
      rw [ht.copied c ((hgives c).2 rfl)]
      exact copyPoison_poisons hfd hslot hmark' (by simp [hsend, completionKindConflicts]) (by simp [hsend])
    · rcases slotAfterIssue_other hsend slot with ⟨hact', hunder', hmark''⟩
      rw [hact'] at hact
      rw [hunder']
      exact (h.marked fd slot d hslot (hmark'' hmark') hact).imp_left (ht.poison d)

theorem touch (h : r.Pipeline) (ht : Touches r es r') : r'.Pipeline := by
  have hslots := ht.slots
  have htouch := ht.touch
  cases htouch with
  | none =>
    refine h.congr ht hslots ?_
    rintro c ⟨e, he, -⟩
    cases he
  | opened fd hfd hslot =>
    refine h.update ht hslots (fun c hc => absurd hc (Touches.not_gives (by simp) c)) (fun _ _ => hfd) ?_ ?_
    · intro c hkind hcfd hbusy
      rcases ht.started c hkind hbusy with hpos | hc
      · rcases h.active c hkind hpos with ⟨slot', hslot', -⟩
        rw [hcfd, hslot] at hslot'
        cases hslot'
      · exact absurd hc (Touches.not_gives (by simp) c)
    · intro slot c hslot' hmark
      cases hslot'
      cases hmark
  | freed fd slot hslot hmark hactive hfifo =>
    refine h.update ht hslots (fun c hc => absurd hc (Touches.not_gives (by simp) c)) (by simp) ?_ (by simp)
    intro c hkind hcfd hbusy
    rcases ht.started c hkind hbusy with hpos | hc
    · rcases h.active c hkind hpos with ⟨slot', hslot', hact⟩
      rw [hcfd, hslot] at hslot'
      cases hslot'
      rw [hactive] at hact
      cases hact
    · exact absurd hc (Touches.not_gives (by simp) c)
  | parked c fd slot hfd hslot hpark =>
    refine h.rewrite ht hslot hslots (Touches.not_gives (by simp)) (fun d hact _ => hact) ?_
    intro d hmark hact
    exact (h.marked fd slot d hslot hmark hact).imp_left (ht.poison d)
  | issued c fd hfd hpark hsome =>
    have hgives : ∀ d, Gives [⟨fd, r.slots fd, (r.slots fd).map (r.slotAfterIssue c),
        .issue (.op c) (r.kind c) ((r.copyPoison c).fillSqe c).fd false⟩] d ↔ d = c :=
      Touches.gives_issue rfl (by simp)
    cases hslot : r.slots fd with
    | some slot =>
      have hslots' : r'.slots = Function.update r.slots fd (some (r.slotAfterIssue c slot)) := by
        rw [hslots]
        simp [written, hslot]
      refine h.issue ht hfd hslot hslots' hgives ?_ ⟨rfl, rfl, rfl⟩
      · intro hsend
        exact (idle_of_shouldEnqueueConflict hpark hfd hslot (by simp [hsend, completionKindConflicts])).1
    | none =>
      -- an operation on a descriptor without a slot is no `send_all`, and writes nothing
      have hsend : r.kind c ≠ .sendAll := by
        intro hsend
        have hthere := hsome hsend
        simp [hslot] at hthere
      have hslots' : r'.slots = Function.update r.slots fd none := by
        rw [hslots]
        simp [written, hslot]
      refine h.update ht hslots' (fun d hd => (hgives d).1 hd ▸ hfd) (by simp) ?_ (by simp)
      · intro d hkind hdfd hbusy
        rcases ht.started d hkind hbusy with hpos | hd
        · rcases h.active d hkind hpos with ⟨slot', hslot', -⟩
          rw [hdfd, hslot] at hslot'
          cases hslot'
        · rw [(hgives d).1 hd] at hkind
          exact absurd hkind hsend
  | copied c fd slot rest hfd hslot hfifo hturn =>
    have hslots' : r'.slots =
        Function.update r.slots fd (some { r.slotAfterIssue c slot with fifo := rest }) := by
      rw [hslots]
      simp [written]
    refine h.issue ht hfd hslot hslots' (Touches.gives_issue rfl (by simp)) ?_ ⟨rfl, rfl, rfl⟩
    · intro hsend
      exact hturn.resolve_right (by simp [isCancelOfActive, hsend])
  | posted kind fd sqeFd after hpark hafter =>
    have hnot : ∀ c, ¬ Gives [⟨fd, r.slots fd, after, .issue (.nowait kind fd) kind sqeFd false⟩] c := by
      rintro c ⟨e, he, kind, sqeFd, parked, hcause⟩
      rw [List.mem_singleton.1 he] at hcause
      cases hcause
    -- the slot stays as it is, or loses its mark
    have hsame : after = none ∧ r.slots fd = none ∨ ∃ slot slot', r.slots fd = some slot ∧
        after = some slot' ∧ slot'.active = slot.active ∧ slot'.markedUnder = slot.markedUnder ∧
        (slot'.abortive = true → slot.abortive = true) := by
      cases hslot : r.slots fd with
      | none =>
        rcases hafter with ⟨-, -, rfl⟩ | ⟨-, -, rfl⟩
        · exact .inl ⟨by simp [hslot], rfl⟩
        · exact .inl ⟨hslot, rfl⟩
      | some slot =>
        rcases hafter with ⟨-, -, rfl⟩ | ⟨-, -, rfl⟩
        · exact .inr ⟨slot, { slot with abortive := false }, rfl, by simp [hslot], rfl, rfl, by simp⟩
        · exact .inr ⟨slot, slot, rfl, hslot, rfl, rfl, id⟩
    rcases hsame with ⟨rfl, hslot⟩ | ⟨slot, slot', hslot, rfl, hact', hunder', hmark'⟩
    · refine h.congr ht ?_ hnot
      rw [hslots]
      exact Function.update_eq_self_iff.2 hslot.symm
    · refine h.rewrite ht hslot hslots hnot (fun d hact _ => hact'.trans hact) ?_
      intro d hmark hact
      rw [hact'] at hact
      rw [hunder']
      exact (h.marked fd slot d hslot (hmark' hmark) hact).imp_left (ht.poison d)
  | aborted c fd slot hslot hmem =>
    refine h.rewrite ht hslot hslots (Touches.not_gives (by simp)) (fun d hact _ => hact) ?_
    intro d _ hact
    have hact' : slot.active = some d := hact
    cases hmark : slot.abortive with
    | true =>
      simpa [abortedSlot, hmark] using (h.marked fd slot d hslot hmark hact').imp_left (ht.poison d)
    | false => exact .inr (by simp [abortedSlot, hmark, hact'])
  | leg c hkind hstaged =>
    refine h.congr ht ?_ (Touches.not_gives (by simp))
    rw [hslots]
    exact Function.update_eq_self _ _
  | released c slot _ hslot hactive hflight hstaged =>
    refine h.rewrite ht hslot hslots (Touches.not_gives (by simp)) ?_ (by simp [releasedSlot])
    intro d hact hpos
    rw [hactive] at hact
    cases hact
    simp only [Life.busy] at hpos
    omega

end Pipeline

end Ring

end Pytealet.Uring
