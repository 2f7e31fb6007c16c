import Pytealet.Uring.Orderly

/-!
# Touches — what a move writes into the fd table

`Touch` lists the entries that one move may add to the history, with what its code path has checked.
The table is what the history says it is, so a claim about the marks and queues of a descriptor is a
claim about entries, proved once for each kind of touch.
-/

namespace Pytealet.Uring

open Function List

/-- The table after some writes. -/
def written (slots : Int → Option Slot) (es : List Entry) : Int → Option Slot :=
  es.foldl (fun slots e => update slots e.fd e.after) slots

theorem written_append (slots : Int → Option Slot) (es es' : List Entry) :
    written slots (es ++ es') = written (written slots es) es' :=
  foldl_append

theorem written_of_ne {slots : Int → Option Slot} {es : List Entry} {fd fd' : Int}
    (hes : ∀ e ∈ es, e.fd = fd)
    (hfd : fd' ≠ fd) : written slots es fd' = slots fd' := by
  induction es generalizing slots with
  | nil => rfl
  | cons e es ih =>
    have hrest : written (update slots e.fd e.after) es fd' = update slots e.fd e.after fd' :=
      ih fun e' he' => hes e' (mem_cons_of_mem e he')
    have hne : fd' ≠ e.fd := by
      rw [hes e mem_cons_self]
      exact hfd
    rw [update_of_ne hne] at hrest
    exact hrest

/-- The entries that one move adds. -/
inductive Touch (r : Ring) : List Entry → Prop where
  | none : Touch r []
  | opened (fd : Int) : 0 ≤ fd → r.slots fd = none → Touch r [⟨fd, r.slots fd, some {}, .opened⟩]
  | freed (fd : Int) (slot : Slot) : r.slots fd = some slot → slot.abortive = false → slot.active = none →
      slot.fifo = [] → Touch r [⟨fd, r.slots fd, none, .freed⟩]
  | parked (c : Nat) (fd : Int) (slot : Slot) : r.conflictFd c = some fd → r.slots fd = some slot →
      r.shouldEnqueueConflict c = true →
      Touch r [⟨fd, r.slots fd, some { slot with fifo := slot.fifo ++ [c] }, .park c⟩]
  | issued (c : Nat) (fd : Int) : r.conflictFd c = some fd → r.shouldEnqueueConflict c = false →
      (r.kind c = .sendAll → (r.slots fd).isSome = true) →
      Touch r [⟨fd, r.slots fd, (r.slots fd).map (r.slotAfterIssue c),
        .issue (.op c) (r.kind c) ((r.copyPoison c).fillSqe c).fd false⟩]
  | copied (c : Nat) (fd : Int) (slot : Slot) (rest : List Nat) : r.conflictFd c = some fd →
      r.slots fd = some slot → slot.fifo = c :: rest →
      (slot.active = none ∨ r.isCancelOfActive c slot = true) →
      Touch r [⟨fd, r.slots fd, some (r.slotAfterIssue c slot),
          .issue (.op c) (r.kind c) ((r.copyPoison c).fillSqe c).fd true⟩,
        ⟨fd, some (r.slotAfterIssue c slot), some { r.slotAfterIssue c slot with fifo := rest }, .pop c⟩]
  | posted (kind : Kind) (fd sqeFd : Int) (after : Option Slot) : r.nowaitFdOpMustPark fd = false →
      (kind = .close ∧ sqeFd = fd ∧ after = (r.slots fd).map (fun slot => { slot with abortive := false }) ∨
        kind = .shutdown ∧ sqeFd = (if r.idleAbortive fd then -1 else fd) ∧ after = r.slots fd) →
      Touch r [⟨fd, r.slots fd, after, .issue (.nowait kind fd) kind sqeFd false⟩]
  | aborted (c : Nat) (fd : Int) (slot : Slot) : r.slots fd = some slot →
    c ∈ slot.fifo ∨ slot.active = some c →
      Touch r [⟨fd, r.slots fd, some (Ring.abortedSlot slot), .abort c⟩]
  | leg (c : Nat) : r.kind c = .sendAll → 0 < (r.life c).staged →
      Touch r [⟨(r.handle c).fd, r.slots (r.handle c).fd, r.slots (r.handle c).fd,
        .leg c (r.completionSqeFd c)⟩]
  | released (c : Nat) (slot : Slot) : r.kind c = .sendAll → r.slots (r.handle c).fd = some slot →
      slot.active = some c →
      (r.life c).flight = 0 → (r.life c).staged = 0 →
      Touch r [⟨(r.handle c).fd, r.slots (r.handle c).fd, some (r.releasedSlot c slot),
        .release c (r.bits c).res (r.bits c).skipAll⟩]

/-- The requests and staged CQEs of a completion. -/
def Life.busy (l : Life) : Nat :=
  l.flight + l.staged

/-- `es` gives the completion `c` an SQE. -/
def Gives (es : List Entry) (c : Nat) : Prop :=
  ∃ e ∈ es, ∃ kind sqeFd parked, e.cause = .issue (.op c) kind sqeFd parked

/-- The step adds `es` to the history, and the table changes accordingly. -/
structure Touches (r : Ring) (es : List Entry) (r' : Ring) : Prop where
  touch : Touch r es
  log : r'.log = r.log ++ es
  slots : r'.slots = written r.slots es
  handle : r'.handle = r.handle
  poison : ∀ c, (r.bits c).poison = true → (r'.bits c).poison = true
  /-- What is given an SQE has copied the abortive mark of its slot. -/
  copied : ∀ c, Gives es c → (r'.bits c).poison = ((r.copyPoison c).bits c).poison
  /-- A `send_all` becomes busy with an SQE of its own. -/
  started : ∀ c, r.kind c = .sendAll → 0 < (r'.life c).busy → 0 < (r.life c).busy ∨ Gives es c

namespace Touches

variable {r r' : Ring}

theorem none (horderly : r.Orderly) (hlife : ∀ c, (r.life c).Move (r'.life c)) (hlog : r'.log = r.log)
    (hslots : r'.slots = r.slots) (hhandle : r'.handle = r.handle)
    (hbusy : ∀ c, r.kind c = .sendAll → 0 < (r'.life c).busy → 0 < (r.life c).busy) : Touches r [] r' := by
  refine ⟨.none, by simp [hlog], hslots, hhandle, ?_, ?_, ?_⟩
  · intro c hpoison
    exact (hlife c).poison_mono (horderly.placed c) hpoison
  · rintro c ⟨e, he, -⟩
    cases he
  · intro c hkind hpos
    exact .inl (hbusy c hkind hpos)

theorem write {e : Entry} (htouch : Touch r [e]) (hcause : ∀ c, ¬ Gives [e] c)
    (hlog : r'.log = r.log ++ [e])
    (hslots : r'.slots = written r.slots [e]) (hhandle : r'.handle = r.handle)
    (hpoison : ∀ c, (r'.bits c).poison = (r.bits c).poison)
    (hbusy : ∀ c, (r'.life c).busy = (r.life c).busy) : Touches r [e] r' := by
  refine ⟨htouch, hlog, hslots, hhandle, ?_, fun c hc => absurd hc (hcause c), ?_⟩
  · intro c hc
    rw [hpoison]
    exact hc
  · intro c _ hpos
    rw [hbusy] at hpos
    exact .inl hpos

theorem not_gives {e : Entry} (h : ∀ op kind sqeFd parked, e.cause ≠ .issue op kind sqeFd parked)
    (c : Nat) :
    ¬ Gives [e] c := by
  rintro ⟨e', he', kind, sqeFd, parked, hcause⟩
  rw [mem_singleton.1 he'] at hcause
  exact h _ _ _ _ hcause

theorem gives_issue {e : Entry} {c : Nat} {kind : Kind} {sqeFd : Int} {parked : Bool} {es : List Entry}
    (he : e.cause = .issue (.op c) kind sqeFd parked)
    (hes : ∀ e' ∈ es, ∀ op kind sqeFd parked, e'.cause ≠ .issue op kind sqeFd parked) (d : Nat) :
    Gives (e :: es) d ↔ d = c := by
  refine ⟨?_, ?_⟩
  · rintro ⟨e', he', kind', sqeFd', parked', hcause⟩
    rcases mem_cons.1 he' with rfl | hmem
    · rw [he] at hcause
      cases hcause
      rfl
    · exact absurd hcause (hes e' hmem _ _ _ _)
  · rintro rfl
    exact ⟨e, mem_cons_self, _, _, _, he⟩

theorem issue (horderly : r.Orderly) {es : List Entry} {c : Nat} (htouch : Touch r es)
    (hgives : ∀ d, Gives es d ↔ d = c) (hlog : r'.log = r.log ++ es)
    (hslots : r'.slots = written r.slots es) (hhandle : r'.handle = r.handle)
    (hlife : ∀ d, (r.life d).Move (r'.life d))
    (hpoison : (r'.bits c).poison = ((r.copyPoison c).bits c).poison)
    (hother : ∀ d, d ≠ c → r'.life d = r.life d) : Touches r es r' := by
  refine ⟨htouch, hlog, hslots, hhandle, ?_, ?_, ?_⟩
  · intro d hd
    exact (hlife d).poison_mono (horderly.placed d) hd
  · intro d hd
    rw [(hgives d).1 hd]
    exact hpoison
  · intro d _ hpos
    by_cases hd : d = c
    · exact .inr ((hgives d).2 hd)
    · rw [hother d hd] at hpos
      exact .inl hpos

theorem filled (horderly : r.Orderly) {c : Nat} {fd : Int} (hfd : r.conflictFd c = some fd)
    (hpark : r.shouldEnqueueConflict c = false)
    (hsome : r.kind c = .sendAll → (r.slots (r.handle c).fd).isSome = true)
    (hc : Change r ((r.copyPoison c).issue c false)) :
    ∃ es, Touches r es ((r.copyPoison c).issue c false) := by
  have hlog := Ring.issue_log (r.copyPoison c) c false
  have hslots := Ring.issue_slots (r.copyPoison c) c false
  have hafter : (r.copyPoison c).slotAfterIssue c = r.slotAfterIssue c := by
    funext slot
    unfold Ring.slotAfterIssue
    rw [Ring.kind_copyPoison, Ring.copyPoison_handle]
  have hold : (r.copyPoison c).log = r.log := Ring.copyPoison_other r c Ring.log fun _ _ _ => rfl
  rw [Ring.conflictFd_copyPoison] at hlog hslots
  simp only [hfd, hold, Ring.copyPoison_slots, hafter, Ring.kind_copyPoison] at hlog hslots
  refine ⟨_, issue (c := c) horderly (.issued c fd hfd hpark ?_) (gives_issue rfl (by simp)) hlog hslots
    ?_ ?_ ?_ ?_⟩
  · intro hkind
    rw [Ring.conflictFd_sendAll hkind] at hfd
    cases hfd
    exact hsome hkind
  · rw [Ring.issue_handle, Ring.copyPoison_handle]
  · exact fun d => .change (hc.life horderly.parked d)
  · rcases Ring.issue_bits_self (r.copyPoison c) c false with ⟨a, ha⟩
    rw [ha]
  · intro d hd
    rw [Ring.life_issue_ne _ hd, Ring.life_copyPoison_ne r hd]

theorem off_fifo (horderly : r.Orderly) {fd : Int} {slot : Slot} {c : Nat} {rest : List Nat}
    (hslot : r.slots fd = some slot) (hfifo : slot.fifo = c :: rest)
    (hturn : slot.active = Option.none ∨ r.isCancelOfActive c slot = true)
    (hc : Change r (((r.copyPoison c).issue c true).popParked fd)) :
    ∃ es, Touches r es (((r.copyPoison c).issue c true).popParked fd) := by
  have hfd : r.conflictFd c = some fd := horderly.parked.fd fd slot hslot c (by simp [hfifo])
  have hlog := Ring.issue_log (r.copyPoison c) c true
  have hslots := Ring.issue_slots (r.copyPoison c) c true
  have hafter : (r.copyPoison c).slotAfterIssue c = r.slotAfterIssue c := by
    funext slot
    unfold Ring.slotAfterIssue
    rw [Ring.kind_copyPoison, Ring.copyPoison_handle]
  have hold : (r.copyPoison c).log = r.log := Ring.copyPoison_other r c Ring.log fun _ _ _ => rfl
  rw [Ring.conflictFd_copyPoison] at hlog hslots
  simp only [hfd, hold, Ring.copyPoison_slots, hafter, Ring.kind_copyPoison, hslot,
    Option.map_some] at hlog hslots
  have hslot' := Ring.issue_slot true hfd hslot
  have hfifo' : (r.slotAfterIssue c slot).fifo = c :: rest := by simpa using hfifo
  have hpop := Ring.popParked_eq hslot' hfifo'
  refine ⟨_, issue (c := c) horderly (.copied c fd slot rest hfd hslot hfifo hturn)
    (gives_issue rfl (by simp)) ?_ ?_ ?_ ?_ ?_ ?_⟩
  · rw [hpop, Ring.setBits_log, Ring.write_log, hlog, hslot']
    simp [hslot]
  · rw [hpop, Ring.setBits_slots, Ring.write_slots, hslots]
    rfl
  · have hhandle := congrArg Ring.handle hpop
    rw [hhandle, Ring.setBits_handle, Ring.write_handle, Ring.issue_handle, Ring.copyPoison_handle]
  · exact fun d => .change (hc.life horderly.parked d)
  · rcases Ring.issue_bits_self (r.copyPoison c) c true with ⟨a, ha⟩
    have hbits := congrArg Ring.bits hpop
    rw [hbits]
    simp [ha]
  · intro d hd
    rw [Ring.life_popParked hslot' hfifo', if_neg hd, Ring.life_issue_ne _ hd, Ring.life_copyPoison_ne r hd]

theorem change (horderly : r.Orderly) (hc : Change r r') : ∃ es, Touches r es r' := by
  have hlife : ∀ c, (r.life c).Move (r'.life c) := fun c => .change (hc.life horderly.parked c)
  have hnone : ∀ {r₁ : Ring}, (∀ c, (r.life c).Move (r₁.life c)) → r₁.log = r.log → r₁.slots = r.slots →
      r₁.handle = r.handle → (∀ c, (r₁.life c).busy = (r.life c).busy) → ∃ es, Touches r es r₁ :=
    fun hlife hlog hslots hhandle hbusy =>
      ⟨[], none horderly hlife hlog hslots hhandle fun c _ hpos => hbusy c ▸ hpos⟩
  cases hc with
  | enter n => exact hnone hlife rfl rfl rfl fun c => by rw [Ring.life_enterKernel]
  | abandon t _ => exact hnone hlife rfl rfl rfl fun _ => rfl
  | opened fd hfd hslot =>
    exact ⟨_, write (.opened fd hfd hslot) (not_gives (by simp)) rfl rfl rfl (fun _ => rfl) fun _ => rfl⟩
  | freed fd slot hslot hmark hactive hfifo =>
    exact ⟨_, write (.freed fd slot hslot hmark hactive hfifo) (not_gives (by simp)) rfl rfl rfl
      (fun _ => rfl) fun _ => rfl⟩
  | parked c fd slot _ hfd hslot hpark =>
    have hlog := congrArg Ring.log (Ring.park_eq r c fd slot)
    have hslots := congrArg Ring.slots (Ring.park_eq r c fd slot)
    have hhandle := congrArg Ring.handle (Ring.park_eq r c fd slot)
    refine ⟨_, write (.parked c fd slot hfd hslot hpark) (not_gives (by simp)) hlog hslots hhandle ?_ ?_⟩
    · intro d
      have hpoison := congrArg Life.poison (Ring.life_park r c d fd slot)
      refine hpoison.trans ?_
      split <;> rfl
    · intro d
      rw [Ring.life_park]
      split <;> rfl
  | filled c hnew hready hpark hsome =>
    cases hfd : r.conflictFd c with
    | some fd => exact filled horderly hfd hpark hsome (.filled r c hnew hready hpark hsome)
    | none =>
      -- nothing without a descriptor is a `send_all`
      have hlog := Ring.issue_log (r.copyPoison c) c false
      have hslots := Ring.issue_slots (r.copyPoison c) c false
      rw [Ring.conflictFd_copyPoison, hfd] at hlog hslots
      refine ⟨[], none horderly hlife ?_ ?_ ?_ ?_⟩
      · exact hlog.trans (Ring.copyPoison_other r c Ring.log fun _ _ _ => rfl)
      · exact hslots.trans (Ring.copyPoison_slots r c)
      · rw [Ring.issue_handle, Ring.copyPoison_handle]
      · intro d hkind
        have hd : d ≠ c := by
          rintro rfl
          rw [Ring.conflictFd_sendAll hkind] at hfd
          cases hfd
        rw [Ring.life_issue_ne _ hd, Ring.life_copyPoison_ne r hd]
        exact id
  | copied fd slot c rest hslot hfifo hturn =>
    exact off_fifo horderly hslot hfifo hturn (.copied r fd slot c rest hslot hfifo hturn)
  | poisoned fd slot c rest _ _ =>
    refine hnone hlife (Ring.copyPoison_other r c Ring.log fun _ _ _ => rfl) (Ring.copyPoison_slots r c)
      (Ring.copyPoison_handle r c) fun d => ?_
    by_cases hd : d = c
    · subst hd
      rw [Ring.life_copyPoison_self]
      rfl
    · rw [Ring.life_copyPoison_ne r hd]
  | posted kind fd sqeFd after hpark hafter =>
    refine ⟨_, write (.posted kind fd sqeFd after hpark hafter) ?_ rfl rfl rfl (fun _ => rfl) fun c => ?_⟩
    · rintro c ⟨e, he, kind, sqeFd, parked, hcause⟩
      rw [mem_singleton.1 he] at hcause
      cases hcause
    · exact congrArg (· + _) (Ring.flight_push_nowait r kind fd sqeFd c)
  | tagged kind _ =>
    exact hnone hlife rfl rfl rfl fun c =>
      congrArg (· + _) (Ring.flight_push_nowait r kind (-1) (-1) c)
  | stranded e => exact hnone hlife rfl rfl rfl fun _ => rfl

theorem move (horderly : r.Orderly) (hm : Move r r') : ∃ es, Touches r es r' := by
  have hlife := hm.life horderly.parked
  have hnone : ∀ {r₁ : Ring}, (∀ c, (r.life c).Move (r₁.life c)) → r₁.log = r.log → r₁.slots = r.slots →
      r₁.handle = r.handle → (∀ c, r.kind c = .sendAll → (r₁.life c).busy ≤ (r.life c).busy) →
      ∃ es, Touches r es r₁ :=
    fun hlife hlog hslots hhandle hbusy =>
      ⟨[], none horderly hlife hlog hslots hhandle fun c hc hpos => Nat.lt_of_lt_of_le hpos (hbusy c hc)⟩
  cases hm with
  | change hc => exact change horderly hc
  | flags c success all _ => exact hnone hlife rfl rfl rfl fun _ _ => Nat.le_refl _
  | options c timeout multi => exact hnone hlife rfl rfl rfl fun _ _ => Nat.le_refl _
  | aborted c fd slot hslot hmem =>
    exact ⟨_, write (.aborted c fd slot hslot hmem) (not_gives (by simp)) rfl rfl rfl (fun _ => rfl)
      fun _ => rfl⟩
  | silent i sqe hi hnowait => exact hnone hlife rfl rfl rfl fun c _ => by rw [Ring.life_silent hi hnowait]
  | noted i s res hs hkind =>
    refine hnone hlife rfl rfl rfl fun c hc => ?_
    rw [Ring.life_setRes, Ring.life_took hs]
    split
    · rename_i hd
      subst hd
      exact absurd hc hkind
    · exact Nat.le_refl _
  | leg i s n hs hkind _ _ _ =>
    have hpos : 0 < (r.life s.c).staged := countP_pos_iff.2 ⟨s, mem_of_getElem? hs, by simp⟩
    rcases Ring.nextLeg_writes (((r.took i s.c).advanced s.c s.res).enterKernel n) s.c with ⟨hlog, hslots⟩
    rcases Ring.nextLeg_eq (((r.took i s.c).advanced s.c s.res).enterKernel n) s.c with ⟨entry, heq⟩
    have hhandle := congrArg Ring.handle heq
    have hlife' : ∀ c, ((((r.took i s.c).advanced s.c s.res).enterKernel n).nextLeg s.c).life c =
        if c = s.c then { (r.life c).took with flight := (r.life c).flight + 1 } else r.life c := by
      intro c
      rw [Ring.life_nextLeg, Ring.life_enterKernel, Ring.life_advanced, Ring.life_took hs]
      split <;> rfl
    refine ⟨_, write (.leg s.c hkind hpos) (not_gives (by simp)) ?_ ?_ hhandle ?_ ?_⟩
    · rw [hlog]
      simp [Ring.completionSqeFd, Ring.advanced]
    · rw [hslots]
      exact (update_eq_self _ _).symm
    · intro c
      have hpoison := congrArg Life.poison (hlife' c)
      refine hpoison.trans ?_
      split <;> rfl
    · intro c
      rw [hlife']
      split
      · rename_i hd
        subst hd
        simp only [Life.busy, Life.took]
        omega
      · rfl
  | ended i s decref res hs _ _ =>
    refine hnone hlife rfl rfl rfl fun c _ => ?_
    rw [Ring.life_ended, Ring.life_advanced, Ring.life_took hs]
    split
    · simp only [Life.busy, Life.took]
      omega
    · exact Nat.le_refl _
  | released c slot hkind hslot hactive hflight hstaged =>
    exact ⟨_, write (.released c slot hkind hslot hactive hflight hstaged) (not_gives (by simp)) rfl rfl rfl
      (fun _ => rfl) fun _ => rfl⟩
  | finish i c hc =>
    refine hnone hlife (Ring.finishPackage_other _ c Ring.log (fun _ _ _ => rfl) fun _ => rfl)
      (Ring.finishPackage_other _ c Ring.slots (fun _ _ _ => rfl) fun _ => rfl)
      (Ring.finishPackage_other _ c Ring.handle (fun _ _ _ => rfl) fun _ => rfl) fun d _ => ?_
    exact Nat.le_of_eq (Ring.finishPackage_other { r with built := r.built.eraseIdx i } c
      (fun r => (r.life d).busy) (fun _ _ _ => rfl) fun _ => rfl)

theorem consumes (horderly : r.Orderly) {a : Act} (hc : Consumes r a r') : ∃ es, Touches r es r' := by
  have hlife := horderly.life_consumes hc
  rcases hc with ⟨i, res, more, notif, sqe, -, hi, -, rfl⟩
  rcases Ring.Orderly.consumeCqe_frame r i sqe res more notif with ⟨hslots, hhandle, -, -, -⟩
  refine ⟨[], none horderly hlife ?_ hslots hhandle fun d _ hpos => ?_⟩
  · rcases Ring.answered_eq r i more with ⟨kernel, heq⟩
    rw [heq]
    unfold Ring.consumeCqe
    split
    · rfl
    · rfl
    · rw [Ring.completionPrepInFlightRef_eq]
      split <;> rfl
  · cases hdata : sqe.data with
    | op c =>
      rw [Ring.life_consumeCqe_op hi hdata] at hpos
      split at hpos
      · rename_i hd
        subst hd
        have hmem : sqe ∈ r.sq ++ r.kernel := mem_append_right _ (mem_of_getElem? hi)
        exact Nat.lt_of_lt_of_le (Ring.flight_pos hmem hdata) (Nat.le_add_right _ _)
      · exact hpos
    | nowait kind fd =>
      rw [Ring.life_consumeCqe_other hi (by simp [hdata])] at hpos
      exact hpos
    | linkTimeout =>
      rw [Ring.life_consumeCqe_other hi (by simp [hdata])] at hpos
      exact hpos

end Touches

end Pytealet.Uring
