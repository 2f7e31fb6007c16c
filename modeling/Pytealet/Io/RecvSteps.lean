import Pytealet.Io.RecvOrder

/-!
# RecvSteps — every step of a receive buffer keeps the order

A buffer is orderly, or it was closed and has a terminal for the consumer.  The one step that leads
elsewhere is the arrival, at a closed buffer, of the last delivery of a leg that has ended with
data.
-/

namespace Pytealet.Io.RecvIter

open Lib Lib.Transition List

variable {β ε : Type*}

/-- No leg is under way; `recv_many` is about to start one at `base`. -/
structure Vacant (s : State β ε) (base : Int) : Prop where
  legs : s.legs = []
  flight : s.flight = []
  heap : s.buf.heap = #[]
  operation : s.buf.currentOperation = none
  closed : s.buf.closed = false
  open' : s.buf.recvEnded = false
  base_eq : base = s.buf.delivered

/-- The deliveries follow each other by index, and the next leg starts behind them. -/
structure Orderly (s : State β ε) : Prop where
  flow : ∃ queue, Flow s queue []
  ahead : Ahead s.buf
  arming : ∀ base, s.phase.base = some base → Vacant s base

/-- No leg follows. -/
def Buffer.Over (b : Buffer β ε) : Prop :=
  b.recvEnded = true ∨ b.closed = true

/-- The consumer has been given a terminal, or finds one in `_ready`. -/
def Posted (s : State β ε) : Prop :=
  (∃ d ∈ s.trace.given ++ s.buf.ready, d.terminal = true) ∧ s.buf.Over

/-- The last delivery that is on its way does not end a leg of a closed buffer with data. -/
def Uncut (s : State β ε) : Act β ε → Prop
  | .handle _ =>
    s.buf.closed = true → s.flight.length = 1 →
      ∀ d ∈ s.flight ++ s.buf.heap.toList, d.more = false → d.terminal = true
  | _ => True

/-! ## What a step can do -/

/-- The call of `recv_many` in phase `p` returns. -/
def State.leave (s : State β ε) : Phase β ε → State β ε
  | .returning _ item => s.give item
  | .resuming _ => { s with phase := .checking }
  | _ => { s with phase := .idle }

/-- A live leg emits a delivery. -/
def State.emit (s : State β ε) (k : Nat) (leg : Leg) (c : Completion β ε) : State β ε :=
  let d := recvManyCqe leg.next c
  { s with
    legs := if d.more then s.legs.set k ⟨leg.id, leg.next + 1⟩ else s.legs.eraseIdx k
    flight := s.flight ++ [d]
    trace := { s.trace with emitted := s.trace.emitted ++ [(leg.id, d)] } }

/-- A delivery leaves the flight and arrives. -/
def State.handle (s : State β ε) (k : Nat) (d : Delivery β ε) : State β ε :=
  ({ s with flight := s.flight.eraseIdx k } : State β ε).deliver d

inductive Move (s : State β ε) : Act β ε → State β ε → Prop
  | armed (base : Int) (starts : s.phase.base = some base) :
      Move s (.arm .armed) ((s.armed base).leave s.phase)
  | refused (base : Int) (starts : s.phase.base = some base) :
      Move s (.arm .refused) ((s.refused base).leave s.phase)
  | raises (base : Int) (p : Phase β ε) (starts : s.phase.base = some base)
      (after : p = .idle ∨ p = .finished) : Move s (.arm .raises) { s.raises with phase := p }
  | emit (k : Nat) (leg : Leg) (c : Completion β ε) (hk : s.legs[k]? = some leg) :
      Move s (.emit k c) (s.emit k leg c)
  | handle (k : Nat) (d : Delivery β ε) (hk : s.flight[k]? = some d) :
      Move s (.handle k) (s.handle k d)
  | resume (low : Bool) (idle : s.phase = .idle) (resumes : s.buf.resumes low = true) :
      Move s (.takeNext low) { s with phase := .resuming s.buf.nextBase }
  | look (low : Bool) (idle : s.phase = .idle) (resumes : s.buf.resumes low = false) :
      Move s (.takeNext low) (s.check low)
  | check (low : Bool) (awake : s.phase = .checking ∨ s.phase = .woken) :
      Move s (.check low) (s.check low)
  | close : Move s .close s.close

theorem refused_leave {s : State β ε} {base : Int} {p : Phase β ε} (hp : p.wake = p) :
    ({ s with phase := p } : State β ε).refused base = { s.refused base with phase := p } := by
  simp only [State.refused, State.deliver, State.setOp, hp, ite_self]

theorem step_move {s s' : State β ε} {a : Act β ε} (hs : step s a = some s') : Move s a s' := by
  cases a with
  | arm r =>
    cases hp : s.phase with
    | opening base =>
      have hbase : s.phase.base = some base := by rw [hp]; rfl
      cases r with
      | armed =>
        simp only [step, hp, Option.some.injEq] at hs
        have hmove := Move.armed base hbase
        rw [hp] at hmove
        exact hs ▸ hmove
      | refused =>
        simp only [step, hp, Option.some.injEq, refused_leave (p := .idle) rfl] at hs
        have hmove := Move.refused base hbase
        rw [hp] at hmove
        exact hs ▸ hmove
      | raises =>
        simp only [step, hp, Option.some.injEq] at hs
        exact hs ▸ Move.raises base .finished hbase (.inr rfl)
    | resuming base =>
      have hbase : s.phase.base = some base := by rw [hp]; rfl
      cases r with
      | armed =>
        simp only [step, hp, Option.some.injEq] at hs
        have hmove := Move.armed base hbase
        rw [hp] at hmove
        exact hs ▸ hmove
      | refused =>
        simp only [step, hp, Option.some.injEq, refused_leave (p := .checking) rfl] at hs
        have hmove := Move.refused base hbase
        rw [hp] at hmove
        exact hs ▸ hmove
      | raises =>
        simp only [step, hp, Option.some.injEq] at hs
        exact hs ▸ Move.raises base .idle hbase (.inl rfl)
    | returning base item =>
      have hbase : s.phase.base = some base := by rw [hp]; rfl
      cases r with
      | armed =>
        simp only [step, hp, Option.some.injEq] at hs
        have hmove := Move.armed base hbase
        rw [hp] at hmove
        exact hs ▸ hmove
      | refused =>
        simp only [step, hp, Option.some.injEq] at hs
        have hmove := Move.refused base hbase
        rw [hp] at hmove
        exact hs ▸ hmove
      | raises =>
        simp only [step, hp, Option.some.injEq] at hs
        exact hs ▸ Move.raises base .idle hbase (.inl rfl)
    | idle => simp [step, hp] at hs
    | checking => simp [step, hp] at hs
    | parked => simp [step, hp] at hs
    | woken => simp [step, hp] at hs
    | finished => simp [step, hp] at hs
  | emit k c =>
    unfold step at hs
    dsimp only at hs
    split at hs
    · rename_i leg hk
      cases hs
      exact .emit k leg c hk
    · cases hs
  | handle k =>
    unfold step at hs
    dsimp only at hs
    split at hs
    · rename_i d hk
      cases hs
      exact .handle k d hk
    · cases hs
  | takeNext low =>
    unfold step at hs
    dsimp only at hs
    split at hs
    · rename_i hp
      split at hs
      · rename_i hr
        cases hs
        exact .resume low hp hr
      · rename_i hr
        cases hs
        exact .look low hp (by simpa using hr)
    · cases hs
  | check low =>
    unfold step at hs
    dsimp only at hs
    split at hs
    · rename_i hp
      cases hs
      exact .check low (.inl hp)
    · rename_i hp
      cases hs
      exact .check low (.inr hp)
    · cases hs
  | close =>
    cases hs
    exact .close

/-- The consumer takes the pressure mark. -/
def State.relieve (s : State β ε) : State β ε :=
  s.put { s.buf with pressurePending := false }

/-- The consumer takes `d`. -/
def State.pop (s : State β ε) (d : Delivery β ε) (ready : List (Delivery β ε)) : State β ε :=
  { s with
    buf := { s.buf with ready := ready }
    trace := { s.trace with taken := s.trace.taken ++ [d] } }

theorem check_cases (s : State β ε) (low : Bool) :
    (s.buf.pressurePending = false ∧ s.buf.ready = [] ∧ s.check low = { s with phase := .parked }) ∨
      (s.buf.pressurePending = true ∧ s.check low = s.relieve.resumeWith low .pressure) ∨
        ∃ d ready, s.buf.pressurePending = false ∧ s.buf.ready = d :: ready ∧
          s.check low = (s.pop d ready).resumeWith low (.delivery d) := by
  unfold State.check Buffer.takeNextReady
  -- the mark of pressure comes before what is ready
  by_cases hp : s.buf.pressurePending = true
  · refine .inr (.inl ⟨hp, ?_⟩)
    simp only [hp, if_true]
    rfl
  · have hp' : s.buf.pressurePending = false := by simpa using hp
    cases hready : s.buf.ready with
    | nil =>
      refine .inl ⟨hp', rfl, ?_⟩
      simp [hp']
    | cons d ready =>
      refine .inr (.inr ⟨d, ready, hp', rfl, ?_⟩)
      simp [hp', State.pop]

theorem resumeWith_cases (s : State β ε) (low : Bool) (item : Item β ε) :
    (s.buf.resumes low = true ∧
        s.resumeWith low item = { s with phase := .returning s.buf.nextBase item }) ∨
      s.resumeWith low item = s.give item := by
  by_cases hr : s.buf.resumes low = true
  · cases item with
    | pressure => exact .inl ⟨hr, by simp [State.resumeWith, hr]⟩
    | delivery d =>
      by_cases he : d.exception.isSome = true
      · exact .inr (by simp [State.resumeWith, he])
      · exact .inl ⟨hr, by simp [State.resumeWith, hr, he]⟩
  · exact .inr (by simp [State.resumeWith, hr])

/-! ## The order is kept -/

theorem Orderly.init : Orderly (init : State β ε) where
  flow := ⟨[], trivial, rfl, trivial, List.Perm.nil, fun p i hp => absurd hp (Nat.not_lt_zero p), rfl,
    fun d hd => absurd hd not_mem_nil, fun _ d hd => absurd hd not_mem_nil,
    .idle rfl rfl rfl rfl rfl rfl⟩
  ahead := fun d hd => by simp [RecvIter.init, Buffer.empty] at hd
  arming := by
    intro base hbase
    cases hbase
    exact ⟨rfl, rfl, rfl, rfl, rfl, rfl, rfl⟩

section Rules

variable {s : State β ε} {d : Delivery β ε} {queue : List (Delivery β ε)}

theorem base_wake (p : Phase β ε) : p.wake.base = p.base := by
  cases p <;> rfl

variable {s' : State β ε}

theorem Flow.congr (h : Flow s queue []) (hlegs : s'.legs = s.legs)
    (hfly : s'.flight = s.flight) (hheap : s'.buf.heap = s.buf.heap)
    (hdel : s'.buf.delivered = s.buf.delivered) (hend : s'.buf.recvEnded = s.buf.recvEnded)
    (hop : s'.buf.currentOperation = s.buf.currentOperation) (hcl : s'.buf.closed = s.buf.closed)
    (hbase : s'.buf.nextBase = s.buf.nextBase) (hdone : s'.done = s.done)
    (hsent : s'.sent = s.sent) : Flow s' queue [] where
  order := hdone ▸ h.order
  delivered := by rw [hdel, hdone, h.delivered]
  numbered := hdel ▸ h.numbered
  pending := by rw [hfly, hheap]; exact h.pending
  heap := hheap ▸ h.heap
  sent := by rw [hsent, hdone, h.sent]
  sound := h.sound
  clear := by rw [hend, hdone]; exact h.clear
  stage := h.stage.congr hlegs hdel hend hop hcl hbase hdone

theorem Flow.vacant (h : Flow s queue []) (hop : s.buf.currentOperation = none)
    (hcl : s.buf.closed = false) (hend : s.buf.recvEnded = false) : Vacant s s.buf.nextBase := by
  cases h.stage with
  | live leg legs next more open' operation => simp [hop, hcl] at operation
  | draining front last legs queue_eq more last_more open' operation => simp [hop, hcl] at operation
  | idle legs queue_eq open' operation closed base =>
    -- what is on its way or in the heap is in the queue
    have hnil := queue_eq ▸ h.pending
    simp only [nil_append] at hnil
    have hempty := append_eq_nil_iff.1 (perm_nil.1 hnil)
    exact ⟨legs, hempty.1, Array.toList_eq_nil_iff.1 hempty.2, hop, hcl, hend, base⟩
  | spent legs queue_eq ended operation last =>
    rw [hend] at ended
    cases ended

theorem Vacant.queue_nil {base : Int} (h : Vacant s base) (hf : Flow s queue []) : queue = [] := by
  have hpend := hf.pending
  rw [h.flight, h.heap] at hpend
  exact perm_nil.1 hpend.symm

theorem Buffer.resumes_iff {b : Buffer β ε} {low : Bool} :
    b.resumes low = true ↔ b.closed = false ∧ b.recvEnded = false ∧ b.currentOperation = none ∧
      b.ready = [] ∧ b.heap = #[] ∧ low = true := by
  simp [Buffer.resumes, Buffer.shouldResubmit, and_assoc]

theorem Orderly.congr (h : Orderly s) (hphase : s'.phase.base = none)
    (hlegs : s'.legs = s.legs) (hfly : s'.flight = s.flight) (hheap : s'.buf.heap = s.buf.heap)
    (hdel : s'.buf.delivered = s.buf.delivered) (hend : s'.buf.recvEnded = s.buf.recvEnded)
    (hop : s'.buf.currentOperation = s.buf.currentOperation) (hcl : s'.buf.closed = s.buf.closed)
    (hbase : s'.buf.nextBase = s.buf.nextBase) (hdone : s'.done = s.done)
    (hsent : s'.sent = s.sent) : Orderly s' := by
  rcases h.flow with ⟨queue, hf⟩
  refine ⟨⟨queue, hf.congr hlegs hfly hheap hdel hend hop hcl hbase hdone hsent⟩, ?_, ?_⟩
  · unfold Ahead
    rw [hheap, hdel]
    exact h.ahead
  · intro base hb
    rw [hphase] at hb
    cases hb

theorem Orderly.resume {low : Bool} (h : Orderly s) (hr : s.buf.resumes low = true)
    {p : Phase β ε} (hp : p.base = some s.buf.nextBase) : Orderly { s with phase := p } := by
  rcases Buffer.resumes_iff.1 hr with ⟨hcl, hend, hop, -, -, -⟩
  rcases h.flow with ⟨queue, hf⟩
  -- the leg that is started finds no other under way
  have hvac := hf.vacant hop hcl hend
  refine ⟨⟨queue, hf.congr rfl rfl rfl rfl rfl rfl rfl rfl rfl rfl⟩, h.ahead, ?_⟩
  intro base hb
  have heq : base = s.buf.nextBase := by
    rw [hp] at hb
    exact (Option.some.inj hb).symm
  subst heq
  exact ⟨hvac.legs, hvac.flight, hvac.heap, hvac.operation, hvac.closed, hvac.open', hvac.base_eq⟩

theorem Orderly.give (h : Orderly s) (item : Item β ε) : Orderly (s.give item) := by
  cases item with
  | pressure => exact h.congr rfl rfl rfl rfl rfl rfl rfl rfl rfl rfl rfl
  | delivery d =>
    refine h.congr ?_ rfl rfl rfl rfl rfl rfl rfl rfl rfl rfl
    simp only [State.give]
    split <;> rfl

theorem Orderly.leave (h : Orderly { s with phase := .idle }) (p : Phase β ε) :
    Orderly (s.leave p) := by
  cases p with
  | returning base item =>
    have hg := h.give item
    cases item <;> exact hg
  | _ => exact h.congr rfl rfl rfl rfl rfl rfl rfl rfl rfl rfl rfl

theorem Orderly.resumeWith (h : Orderly s) (low : Bool) (item : Item β ε) :
    Orderly (s.resumeWith low item) := by
  rcases resumeWith_cases s low item with ⟨hr, heq⟩ | heq
  · rw [heq]
    exact h.resume hr rfl
  · rw [heq]
    exact h.give item

theorem Orderly.check (h : Orderly s) (hphase : s.phase.base = none) (low : Bool) :
    Orderly (s.check low) := by
  rcases check_cases s low with ⟨-, -, heq⟩ | ⟨-, heq⟩ | ⟨d, ready, -, hready, heq⟩
  · rw [heq]
    exact h.congr rfl rfl rfl rfl rfl rfl rfl rfl rfl rfl rfl
  · rw [heq]
    have hp : Orderly s.relieve := h.congr hphase rfl rfl rfl rfl rfl rfl rfl rfl rfl rfl
    exact hp.resumeWith low .pressure
  · rw [heq]
    -- `d` is moved from `_ready` to what was taken
    have hp : Orderly (s.pop d ready) := by
      refine h.congr hphase rfl rfl rfl rfl rfl rfl rfl rfl ?_ rfl
      simp [State.done, State.pop, hready]
    exact hp.resumeWith low (.delivery d)

/-! ## Deliveries -/

theorem Settles.orderly (s' : State β ε) {b : Buffer β ε} (h : Settles (s.put b))
    (hbuf : s'.buf = b) (hphase : s'.phase.base = none) (hlegs : s'.legs = s.legs)
    (hfly : s'.flight = s.flight) (htrace : s'.trace = s.trace) :
    Orderly s' ∨ (s'.buf.closed = true ∧ Posted s') := by
  subst hbuf
  rcases h with ⟨queue, hf, hahead⟩ | ⟨hcl, x, hx, hterm⟩
  · refine .inl ⟨⟨queue, ?_⟩, hahead, ?_⟩
    · refine hf.congr hlegs hfly rfl rfl rfl rfl rfl rfl ?_ ?_
      · simp [State.done, State.put, htrace]
      · simp [State.sent, State.put, htrace]
    · intro base hb
      rw [hphase] at hb
      cases hb
  · exact .inr ⟨hcl, ⟨x, mem_append_right _ hx, hterm⟩, .inr hcl⟩

theorem base_deliver (s : State β ε) (d : Delivery β ε) : (s.deliver d).phase.base = s.phase.base := by
  unfold State.deliver
  dsimp only
  split
  · exact base_wake s.phase
  · rfl

theorem Orderly.handle {k : Nat} (h : Orderly s) (hk : s.flight[k]? = some d)
    (hcut : Uncut s (.handle k)) :
    Orderly (s.handle k d) ∨ ((s.handle k d).buf.closed = true ∧ Posted (s.handle k d)) := by
  rcases h.flow with ⟨queue, hf⟩
  have hlt : k < s.flight.length := (List.getElem?_eq_some_iff.1 hk).1
  have hget : s.flight[k] = d := (List.getElem?_eq_some_iff.1 hk).2
  have hperm : (d :: s.flight.eraseIdx k).Perm s.flight := hget ▸ getElem_cons_eraseIdx_perm hlt
  -- inside `recv_many` nothing is on its way
  have hbase : s.phase.base = none := by
    cases hb : s.phase.base with
    | none => rfl
    | some base =>
      have hfly := (h.arming base hb).flight
      rw [hfly] at hlt
      cases hlt
  have hflow : Flow ({ s with flight := s.flight.eraseIdx k } : State β ε) queue [d] :=
    ⟨hf.order, hf.delivered, hf.numbered, (hperm.append_right s.buf.heap.toList).trans hf.pending,
      hf.heap, hf.sent, hf.sound, hf.clear, hf.stage.congr rfl rfl rfl rfl rfl rfl rfl⟩
  refine (hflow.deliver h.ahead ?_).orderly _ rfl ((base_deliver _ d).trans hbase) rfl rfl rfl
  intro hcl hnil x hx hm
  have hone : s.flight.length = 1 := by
    have hlen := hperm.length_eq
    have hnil' : s.flight.eraseIdx k = [] := hnil
    rw [hnil'] at hlen
    simpa using hlen.symm
  exact hcut hcl hone x (hf.pending.symm.subset hx) hm

theorem Orderly.emit {k : Nat} {leg : Leg} (h : Orderly s) (hk : s.legs[k]? = some leg)
    (c : Completion β ε) : Orderly (s.emit k leg c) := by
  rcases h.flow with ⟨queue, hf⟩
  unfold State.emit
  dsimp only
  generalize hd : recvManyCqe leg.next c = d
  have hsound : d.Sound := hd ▸ recvManyCqe_sound leg.next c
  have hindex : d.index = leg.next := hd ▸ recvManyCqe_index leg.next c
  -- a leg is there, so the queue is the one of a live leg
  have hne : s.legs ≠ [] := by
    rintro hnil
    simp [hnil] at hk
  cases hf.stage with
  | draining front last legs queue_eq more last_more open' operation => exact absurd legs hne
  | idle legs queue_eq open' operation closed base => exact absurd legs hne
  | spent legs queue_eq ended operation last => exact absurd legs hne
  | live leg' legs next more open' operation =>
    have hkeq : k = 0 ∧ leg' = leg := by
      rw [legs] at hk
      cases k with
      | zero => exact ⟨rfl, by simpa using hk⟩
      | succ k => simp at hk
    rcases hkeq with ⟨rfl, rfl⟩
    refine ⟨⟨queue ++ [d], ?_⟩, h.ahead, ?_⟩
    · refine ⟨hf.order, hf.delivered, ?_, ?_, hf.heap, ?_, ?_, hf.clear, ?_⟩
      · rw [Numbered.append_iff]
        exact ⟨hf.numbered, hindex.trans next, trivial⟩
      · have hpend := hf.pending
        simp only [nil_append] at hpend ⊢
        refine List.Perm.trans ?_ (hpend.append_right [d])
        rw [append_assoc, append_assoc]
        exact List.Perm.append_left s.flight perm_append_comm
      · have hsent := hf.sent
        simp only [State.sent] at hsent ⊢
        rw [map_append, filter_append, filter_append, hsent, append_assoc]
        rfl
      · intro x hx
        rcases mem_append.1 hx with hx | hx
        · exact hf.sound x hx
        · have heq : x = d := by simpa using hx
          exact heq ▸ hsound
      -- with its last delivery the leg is over, and its queue drains
      · by_cases hm : d.more = true
        · refine .live ⟨leg'.id, leg'.next + 1⟩ ?_ ?_ ?_ open' operation
          · simp [hm, legs]
          · show leg'.next + 1 = s.buf.delivered + ((queue ++ [d]).length : Nat)
            rw [length_append, next]
            push_cast [length_singleton]
            omega
          · intro x hx
            rcases mem_append.1 hx with hx | hx
            · exact more x hx
            · have heq : x = d := by simpa using hx
              exact heq ▸ hm
        · refine .draining queue d ?_ rfl more (by simpa using hm) open' operation
          simp [hm, legs]
    · intro base hb
      have hlegs := (h.arming base hb).legs
      exact absurd hlegs hne

/-! ## Legs -/

theorem setOp_open (hcl : s.buf.closed = false) :
    s.setOp =
      { s with
        buf := { s.buf with currentOperation := some s.started }
        started := s.started + 1 } := by
  simp [State.setOp, hcl]

theorem Orderly.armed {base : Int} (h : Orderly s) (hb : s.phase.base = some base) :
    Orderly { s.armed base with phase := .idle } := by
  rcases h.flow with ⟨queue, hf⟩
  have hvac := h.arming base hb
  have hq := hvac.queue_nil hf
  subst hq
  unfold State.armed
  rw [setOp_open hvac.closed]
  refine ⟨⟨[], ?_⟩, h.ahead, ?_⟩
  · refine ⟨hf.order, hf.delivered, trivial, hf.pending, hf.heap, hf.sent,
      fun x hx => absurd hx not_mem_nil, hf.clear, ?_⟩
    refine .live ⟨s.started, base⟩ ?_ ?_ (fun x hx => absurd hx not_mem_nil) hvac.open' ?_
    · simp [hvac.legs]
    · simp [hvac.base_eq]
    · simp [hvac.closed]
  · intro base' hb'
    cases hb'

theorem Orderly.refused {base : Int} (h : Orderly s) (hb : s.phase.base = some base) :
    Orderly { s.refused base with phase := .idle } := by
  rw [← refused_leave (p := .idle) rfl]
  rcases h.flow with ⟨queue, hf⟩
  have hvac := h.arming base hb
  have hq := hvac.queue_nil hf
  subst hq
  have hopen : ({ s with phase := .idle } : State β ε).buf.closed = false := hvac.closed
  unfold State.refused
  rw [setOp_open hopen]
  dsimp only
  generalize hd : (recvManyCqe base (.error .enobufs) : Delivery β ε) = d
  have hsound : d.Sound := hd ▸ recvManyCqe_sound base _
  have hindex : d.index = base := hd ▸ recvManyCqe_index base _
  have henobufs : d.isEnobufs = true := hd ▸ rfl
  have hmore : d.more = false := hd ▸ rfl
  generalize hs₁ : ({ s with
    buf := { s.buf with currentOperation := some s.started }
    phase := .idle
    started := s.started + 1
    trace := { s.trace with emitted := s.trace.emitted ++ [(s.started, d)] } } : State β ε) = s₁
  -- the leg consists of the `ENOBUFS` alone, which is in hand here
  have hflow : Flow s₁ [d] [d] := by
    subst hs₁
    refine ⟨hf.order, hf.delivered, ⟨hindex.trans hvac.base_eq, trivial⟩, hf.pending.cons d, hf.heap,
      ?_, ?_, hf.clear, ?_⟩
    · simpa [State.sent, State.done, henobufs] using hf.sent
    · intro x hx
      have heq : x = d := by simpa using hx
      exact heq ▸ hsound
    · refine .draining [] d hvac.legs rfl (fun x hx => absurd hx not_mem_nil) hmore hvac.open' ?_
      simp [hvac.closed]
  have hahead : Ahead s₁.buf := hs₁ ▸ h.ahead
  have hcl : s₁.buf.closed = false := hs₁ ▸ hvac.closed
  have hphase : s₁.phase.base = none := hs₁ ▸ rfl
  have hsettles := hflow.deliver hahead (fun hcl' => absurd (hcl.symm.trans hcl') (by simp))
  rcases hsettles.orderly (s₁.deliver d) rfl ((base_deliver s₁ d).trans hphase) rfl rfl rfl with
    hord | ⟨hcl', -⟩
  · exact hord
  · have hkeep := (deliver_ready s₁.buf d).2.1
    exact absurd ((hkeep.trans hcl).symm.trans hcl') (by simp)

theorem Orderly.raises {base : Int} {p : Phase β ε} (h : Orderly s) (hb : s.phase.base = some base)
    (hp : p.base = none) : Orderly { s.raises with phase := p } :=
  h.congr hp rfl rfl rfl rfl rfl (h.arming base hb).operation.symm rfl rfl rfl rfl

/-! ## `close` -/

theorem deliver_terminal (b : Buffer β ε) (he : d.isEnobufs = false) (hd : d.index = b.delivered) :
    d ∈ (b.deliver d).1.ready := by
  unfold Buffer.deliver
  rw [if_pos hd]
  refine (drain_ready _ _).1.subset ?_
  rw [(handOff_posts b he hd).1]
  exact mem_append_right b.ready mem_cons_self

/-- The delivery of `_deliver_close_terminal`. -/
def closeTerminal (index : Int) : Delivery β ε where
  index := index
  value := none
  exception := some .cancelled
  more := false

/-- The buffer in `close`. -/
def Buffer.shut (b : Buffer β ε) : Buffer β ε :=
  { b with closed := true, pressurePending := false }

theorem close_closed (hcl : s.buf.closed = true) : s.close = s := by
  simp [State.close, hcl]

theorem close_some {op : Nat} (hcl : s.buf.closed = false) (hop : s.buf.currentOperation = some op) :
    s.close = s.put { s.buf.shut with currentOperation := none } := by
  simp [State.close, hcl, hop, State.put, Buffer.shut]

theorem close_none (hcl : s.buf.closed = false) (hop : s.buf.currentOperation = none) :
    s.close = (s.put s.buf.shut).deliver (closeTerminal s.buf.delivered) := by
  simp [State.close, hcl, hop, State.put, Buffer.shut, closeTerminal]

theorem Orderly.close (h : Orderly s) :
    Orderly s.close ∨ (s.close.buf.closed = true ∧ Posted s.close) := by
  by_cases hcl : s.buf.closed = true
  · exact .inl ((close_closed hcl).symm ▸ h)
  · have hcl' : s.buf.closed = false := by simpa using hcl
    cases hop : s.buf.currentOperation with
    | some op =>
      refine .inl ?_
      rw [close_some hcl' hop]
      rcases h.flow with ⟨queue, hf⟩
      refine ⟨⟨queue, hf.order, hf.delivered, hf.numbered, hf.pending, hf.heap, hf.sent, hf.sound,
        hf.clear, ?_⟩, h.ahead, ?_⟩
      · cases hf.stage with
        | live leg legs next more open' operation => exact .live leg legs next more open' rfl
        | draining front last legs queue_eq more last_more open' operation =>
          exact .draining front last legs queue_eq more last_more open' rfl
        | idle legs queue_eq open' operation closed base =>
          rw [hop] at operation
          cases operation
        | spent legs queue_eq ended operation last =>
          rw [hop] at operation
          cases operation
      · intro base hb
        have hnone := (h.arming base hb).operation
        rw [hop] at hnone
        cases hnone
    | none =>
      refine .inr ?_
      rw [close_none hcl' hop]
      have hclosed := (deliver_ready s.buf.shut (closeTerminal s.buf.delivered)).2.1
      have hmem : closeTerminal s.buf.delivered ∈
          (s.buf.shut.deliver (closeTerminal s.buf.delivered)).1.ready :=
        deliver_terminal s.buf.shut rfl rfl
      exact ⟨hclosed, ⟨_, mem_append_right _ hmem, rfl⟩, .inr hclosed⟩

/-! ## A buffer that has a terminal for the consumer -/

theorem Buffer.Over.resumes {b : Buffer β ε} (h : b.Over) (low : Bool) : b.resumes low = false := by
  rcases h with hend | hcl
  · simp [Buffer.resumes, hend]
  · simp [Buffer.resumes, hcl]

theorem Buffer.Over.resumeWith (h : s.buf.Over) (low : Bool) (item : Item β ε) :
    s.resumeWith low item = s.give item := by
  rcases resumeWith_cases s low item with ⟨hr, -⟩ | heq
  · rw [h.resumes low] at hr
    cases hr
  · exact heq

theorem Posted.deliver (h : Posted s) (d : Delivery β ε) : Posted (s.deliver d) := by
  rcases deliver_ready s.buf d with ⟨hready, hcl, hend⟩
  rcases h with ⟨⟨x, hx, hterm⟩, hover⟩
  refine ⟨⟨x, ?_, hterm⟩, ?_⟩
  · rcases mem_append.1 hx with hx | hx
    · exact mem_append_left _ hx
    · exact mem_append_right _ (hready.subset hx)
  · exact hover.imp hend (fun h => hcl.trans h)

theorem Posted.give (h : Posted s) (item : Item β ε) : Posted (s.give item) := by
  cases item with
  | pressure => exact h
  | delivery d =>
    rcases h with ⟨⟨x, hx, hterm⟩, hover⟩
    refine ⟨⟨x, ?_, hterm⟩, hover⟩
    simp only [State.give, append_assoc]
    rcases mem_append.1 hx with hx | hx
    · exact mem_append_left _ hx
    · exact mem_append_right _ (mem_cons_of_mem d hx)

theorem Posted.check (h : Posted s) (low : Bool) : Posted (s.check low) := by
  rcases check_cases s low with ⟨-, -, heq⟩ | ⟨-, heq⟩ | ⟨d, ready, -, hready, heq⟩
  · rw [heq]
    exact h
  · have hp : Posted s.relieve := h
    rw [heq, Buffer.Over.resumeWith hp.2]
    exact hp.give .pressure
  · have hpop : (s.pop d ready).buf.Over := h.2
    rw [heq, hpop.resumeWith]
    rcases h with ⟨⟨x, hx, hterm⟩, hover⟩
    refine ⟨⟨x, ?_, hterm⟩, hover⟩
    rw [hready] at hx
    simpa [State.give, State.pop, append_assoc] using hx

theorem Posted.setOp (h : Posted s) : Posted s.setOp := by
  unfold State.setOp
  split
  · exact h
  · exact h

theorem Posted.leave (h : Posted s) (p : Phase β ε) : Posted (s.leave p) := by
  cases p with
  | returning base item => exact h.give item
  | _ => exact h

theorem Posted.close (h : Posted s) : Posted s.close := by
  by_cases hcl : s.buf.closed = true
  · exact (close_closed hcl).symm ▸ h
  · have hcl' : s.buf.closed = false := by simpa using hcl
    cases hop : s.buf.currentOperation with
    | some op =>
      rw [close_some hcl' hop]
      exact ⟨h.1, .inr rfl⟩
    | none =>
      rw [close_none hcl' hop]
      have hshut : Posted (s.put s.buf.shut) := ⟨h.1, .inr rfl⟩
      exact hshut.deliver _

theorem Posted.armed (h : Posted s) (base : Int) : Posted (s.armed base) :=
  h.setOp

theorem Posted.refused (h : Posted s) (base : Int) : Posted (s.refused base) := by
  have hset := h.setOp
  exact Posted.deliver ⟨hset.1, hset.2⟩ _

theorem Posted.step {a : Act β ε} (h : Posted s) (hs : step s a = some s') : Posted s' := by
  cases step_move hs with
  | armed base starts => exact (h.armed base).leave s.phase
  | refused base starts => exact (h.refused base).leave s.phase
  | raises base p starts after => exact h
  | emit k leg c hk => exact h
  | handle k d hk => exact Posted.deliver (s := { s with flight := s.flight.eraseIdx k }) h d
  | resume low idle resumes => exact h
  | look low idle resumes => exact h.check low
  | check low awake => exact h.check low
  | close => exact h.close

/-- The order goes on, or the buffer is closed and its end has been posted. -/
theorem Orderly.step {a : Act β ε} (h : Orderly s) (hcut : Uncut s a)
    (hs : step s a = some s') : Orderly s' ∨ (s'.buf.closed = true ∧ Posted s') := by
  cases step_move hs with
  | armed base starts => exact .inl ((h.armed starts).leave s.phase)
  | refused base starts => exact .inl ((h.refused starts).leave s.phase)
  | raises base p starts after =>
    refine .inl (h.raises starts ?_)
    rcases after with rfl | rfl <;> rfl
  | emit k leg c hk => exact .inl (h.emit hk c)
  | handle k d hk => exact h.handle hk hcut
  | resume low idle resumes => exact .inl (h.resume resumes rfl)
  | look low idle resumes => exact .inl (h.check (by rw [idle]; rfl) low)
  | check low awake =>
    refine .inl (h.check ?_ low)
    rcases awake with hp | hp <;> rw [hp] <;> rfl
  | close => exact h.close

@[simp]
theorem leave_buf (s : State β ε) (p : Phase β ε) : (s.leave p).buf = s.buf := by
  cases p with
  | returning base item => cases item <;> rfl
  | _ => rfl

theorem closed_setOp (s : State β ε) : s.setOp.buf.closed = s.buf.closed := by
  unfold State.setOp
  split <;> rfl

@[simp]
theorem give_buf (s : State β ε) (item : Item β ε) : (s.give item).buf = s.buf := by
  cases item <;> rfl

@[simp]
theorem resumeWith_buf (s : State β ε) (low : Bool) (item : Item β ε) :
    (s.resumeWith low item).buf = s.buf := by
  rcases resumeWith_cases s low item with ⟨-, heq⟩ | heq
  · rw [heq]
  · rw [heq, give_buf]

theorem closed_check (s : State β ε) (low : Bool) : (s.check low).buf.closed = s.buf.closed := by
  rcases check_cases s low with ⟨-, -, heq⟩ | ⟨-, heq⟩ | ⟨d, ready, -, -, heq⟩
  · rw [heq]
  · rw [heq, resumeWith_buf]
    rfl
  · rw [heq, resumeWith_buf]
    rfl

theorem closed_step {a : Act β ε} (ha : a ≠ .close) (hs : RecvIter.step s a = some s') :
    s'.buf.closed = s.buf.closed := by
  cases step_move hs with
  | armed base starts =>
    rw [leave_buf]
    exact closed_setOp s
  | refused base starts =>
    rw [leave_buf]
    exact (deliver_ready _ _).2.1.trans (closed_setOp s)
  | raises base p starts after => rfl
  | emit k leg c hk => rfl
  | handle k d hk => exact (deliver_ready _ _).2.1
  | resume low idle resumes => rfl
  | look low idle resumes => exact closed_check s low
  | check low awake => exact closed_check s low
  | close => exact absurd rfl ha

end Rules

end Pytealet.Io.RecvIter
