import Pytealet.Io.RecvStream

/-!
# RecvPool — receive buffers that share one buffer pool

Any number of `RecvIterBuffer`s borrow one `RecvBufferPool`.  A completion with data leases a
buffer; whoever holds the chunk returns it later.  A leg is started again from `take_next` only,
when the pool is at low water by then.  A `take_next` that comes earlier parks, and a consumer that
is parked is woken by deliveries of its own legs: when the pool drains to low water afterwards,
nobody starts its leg again.

So the guard is on the buffers that are returned.  `take_next` itself never parks without a leg
while the pool is at low water.
-/

namespace Pytealet.Io.RecvIter

open Lib Lib.Transition List

variable {β ε : Type*}

/-! ## The pool and its connections -/

/-- The pool's `leased_count`, and the connections.  Its `buffer_count` is a parameter of the
steps. -/
structure Shared (β ε : Type*) where
  leased : Nat
  conns : List (State β ε)
  deriving DecidableEq, Repr

namespace Shared

/-- `_pool_at_low_water`. -/
def low (bufferCount : Nat) (s : Shared β ε) : Bool :=
  decide (s.leased * 2 < bufferCount)

/-- A pool of which `leased` buffers are held elsewhere. -/
def start (leased : Nat) : Shared β ε where
  leased := leased
  conns := []

end Shared

/-- The pool tells whether it is at low water. -/
def Act.under (low : Bool) : Act β ε → Act β ε
  | .takeNext _ => .takeNext low
  | .check _ => .check low
  | a => a

/-- The buffers that a step leases. -/
def Act.leases : Act β ε → Nat
  | .emit _ (.data _ _ _) => 1
  | _ => 0

/-- A connection is opened, one of them makes a step, or a buffer is returned (`_note_unleased`). -/
inductive Event (β ε : Type*)
  | connect
  | act (k : Nat) (a : Act β ε)
  | release
  deriving DecidableEq, Repr

def Shared.step (bufferCount : Nat) (s : Shared β ε) : Event β ε → Option (Shared β ε)
  | .connect => some { s with conns := s.conns ++ [init] }
  | .act k a =>
    match s.conns[k]? with
    | some c =>
      match RecvIter.step c (a.under (s.low bufferCount)) with
      | some c' => some { leased := s.leased + a.leases, conns := s.conns.set k c' }
      | none => none
    | none => none
  | .release => some { s with leased := s.leased - 1 }

/-! ## The property and the guard -/

/-- The consumer is parked, the stream goes on, and no leg is under way. -/
def Stalled (s : State β ε) : Prop :=
  s.phase = .parked ∧ s.buf.currentOperation = none ∧ s.buf.closed = false ∧ s.buf.recvEnded = false

/-- Where a consumer waits without a leg, the pool is short of buffers. -/
def NeverStalls (bufferCount : Nat) (s : Shared β ε) : Prop :=
  ∀ c ∈ s.conns, Stalled c → s.low bufferCount = false

/-- No buffer that brings the pool to low water is returned while a consumer waits without a leg. -/
def ReleasesHeard (bufferCount : Nat) (s : Shared β ε) : Event β ε → Prop
  | .release => (s.leased - 1) * 2 < bufferCount → ∀ c ∈ s.conns, ¬ Stalled c
  | _ => True

/-! ## Deliveries -/

/-- The consumer finds something. -/
def Buffer.Found (b : Buffer β ε) : Prop :=
  b.ready ≠ [] ∨ b.pressurePending = true

/-- The consumer finds something, or waits for a leg, or the stream is over. -/
def Buffer.Busy (b : Buffer β ε) : Prop :=
  b.closed = true ∨ b.recvEnded = true ∨ b.currentOperation.isSome = true ∨ b.Found

section Rules

variable {s : State β ε} {d : Delivery β ε}

theorem handOff_found (b : Buffer β ε) (d : Delivery β ε) : (b.handOff d).1.Found := by
  by_cases he : d.isEnobufs = true
  · by_cases hcl : b.closed = true
    · refine .inl ?_
      unfold Buffer.handOff Buffer.onOrderedDelivery Buffer.finishLeg
      simp only [he, hcl, if_true]
      split <;> simp
    · exact .inr (by rw [handOff_enobufs b he (by simpa using hcl)])
  · refine .inl ?_
    unfold Buffer.handOff Buffer.onOrderedDelivery Buffer.finishLeg Buffer.scheduleResubmit
    simp only [he, Bool.false_eq_true, if_false]
    split
    · split <;> simp
    · split <;> simp

theorem handOff_heard (b : Buffer β ε) (d : Delivery β ε) (hp : b.pressurePending = false) :
    (b.handOff d).2 = true := by
  unfold Buffer.handOff Buffer.onOrderedDelivery
  dsimp only
  split
  · split
    · rfl
    · simp [hp]
  · rfl

theorem drain_found (fuel : Nat) (b : Buffer β ε) (hb : b.Found) : (b.drain fuel).1.Found := by
  induction fuel generalizing b with
  | zero => exact hb
  | succ fuel ih =>
    unfold Buffer.drain
    split
    · exact hb
    · split
      · split
        · exact hb
        · exact ih _ (handOff_found _ _)
      · exact hb

theorem deliver_cases (b : Buffer β ε) (d : Delivery β ε) :
    b.deliver d = ({ b with heap := Heapq.heappush Delivery.index b.heap d }, false) ∨
      ((b.deliver d).1.Found ∧ (b.pressurePending = false → (b.deliver d).2 = true)) := by
  unfold Buffer.deliver
  split
  · refine .inr ⟨drain_found _ _ (handOff_found b d), ?_⟩
    intro hp
    simp [handOff_heard b d hp]
  · exact .inl rfl

theorem Buffer.Busy.deliver {b : Buffer β ε} (h : b.Busy) (d : Delivery β ε) :
    (b.deliver d).1.Busy := by
  rcases deliver_cases b d with heq | ⟨hfound, -⟩
  · rw [heq]
    exact h
  · exact .inr (.inr (.inr hfound))

/-! ## One connection -/

/-- A consumer that is about to test its predicate has something to find, unless it has a leg to
wait for or the stream is over. -/
def Stirred (s : State β ε) : Prop :=
  s.phase = .checking ∨ s.phase = .woken → s.buf.Busy

theorem Stirred.deliver (h : Stirred s) (d : Delivery β ε) : Stirred (s.deliver d) := by
  intro hp
  rcases deliver_cases s.buf d with heq | ⟨hfound, -⟩
  · unfold State.deliver at hp ⊢
    rw [heq] at hp ⊢
    exact h hp
  · exact .inr (.inr (.inr hfound))

theorem Buffer.busy_setOp (s : State β ε) : s.setOp.buf.Busy := by
  unfold State.setOp
  split
  · rename_i hcl
    exact .inl hcl
  · exact .inr (.inr (.inl rfl))

theorem Stirred.leave (h : s.buf.Busy) (p : Phase β ε) : Stirred (s.leave p) := by
  intro _
  rw [leave_buf]
  exact h

theorem check_phase (s : State β ε) (low : Bool) :
    (s.check low).phase ≠ .checking ∧ (s.check low).phase ≠ .woken := by
  have hgive : ∀ (s' : State β ε) item,
      (s'.give item).phase ≠ .checking ∧ (s'.give item).phase ≠ .woken := by
    intro s' item
    cases item with
    | pressure => simp [State.give]
    | delivery d =>
      simp only [State.give]
      split <;> simp
  have hresume : ∀ (s' : State β ε) item, (s'.resumeWith low item).phase ≠ .checking ∧
      (s'.resumeWith low item).phase ≠ .woken := by
    intro s' item
    rcases resumeWith_cases s' low item with ⟨-, heq⟩ | heq
    · simp [heq]
    · rw [heq]
      exact hgive s' item
  rcases check_cases s low with ⟨-, -, heq⟩ | ⟨-, heq⟩ | ⟨d, ready, -, -, heq⟩
  · simp [heq]
  · rw [heq]
    exact hresume _ _
  · rw [heq]
    exact hresume _ _

theorem Stirred.check (s : State β ε) (low : Bool) : Stirred (s.check low) := by
  intro hp
  rcases check_phase s low with ⟨hchecking, hwoken⟩
  rcases hp with hp | hp
  · exact absurd hp hchecking
  · exact absurd hp hwoken

theorem close_closes (s : State β ε) : s.close.buf.closed = true := by
  by_cases hcl : s.buf.closed = true
  · rw [close_closed hcl]
    exact hcl
  · have hcl' : s.buf.closed = false := by simpa using hcl
    cases hop : s.buf.currentOperation with
    | some op =>
      rw [close_some hcl' hop]
      rfl
    | none =>
      rw [close_none hcl' hop]
      exact (deliver_ready _ _).2.1

theorem Stirred.step {s' : State β ε} {a : Act β ε} (h : Stirred s) (hs : step s a = some s') :
    Stirred s' := by
  cases step_move hs with
  | armed base starts =>
    refine Stirred.leave ?_ s.phase
    exact Buffer.busy_setOp s
  | refused base starts =>
    refine Stirred.leave ?_ s.phase
    exact (Buffer.busy_setOp s).deliver _
  | raises base p starts after =>
    intro hp
    rcases after with rfl | rfl <;> rcases hp with hp | hp <;> cases hp
  | emit k leg c hk => exact h
  | handle k d hk => exact Stirred.deliver (s := { s with flight := s.flight.eraseIdx k }) h d
  | resume low idle resumes =>
    intro hp
    rcases hp with hp | hp <;> cases hp
  | look low idle resumes => exact Stirred.check s low
  | check low awake => exact Stirred.check s low
  | close => exact fun _ => .inl (close_closes s)

/-- A connection of the pool; what is kept of its order is kept until it is closed. -/
structure Connected (s : State β ε) : Prop where
  order : s.buf.closed = true ∨ Orderly s
  wakes : Wakes s
  stirred : Stirred s

theorem Connected.init : Connected (RecvIter.init : State β ε) where
  order := .inr Orderly.init
  wakes := fun h => by cases h
  stirred := by
    intro hp
    rcases hp with hp | hp <;> cases hp

theorem Connected.step {s' : State β ε} {a : Act β ε} (h : Connected s) (hs : step s a = some s') :
    Connected s' := by
  refine ⟨?_, h.wakes.step hs, h.stirred.step hs⟩
  by_cases hcl : s.buf.closed = true
  · refine .inl ?_
    by_cases hclose : a = .close
    · subst hclose
      cases hs
      exact close_closes s
    · exact (closed_step hclose hs).trans hcl
  · have ho := h.order.resolve_left hcl
    have huncut : Uncut s a := by
      cases a with
      | handle k => exact fun hcl' => absurd hcl' hcl
      | _ => trivial
    rcases ho.step huncut hs with ho' | ⟨hcl', -⟩
    · exact .inr ho'
    · exact .inl hcl'

theorem Connected.stalls {s' : State β ε} {a : Act β ε} (h : Connected s)
    (hs : RecvIter.step s a = some s') (hst : Stalled s') : Stalled s ∨ a = .takeNext false := by
  rcases hst with ⟨hparked, hop, hcl, hend⟩
  cases step_move hs with
  | armed base starts => exact absurd hparked (leave_awake _ s.phase)
  | refused base starts => exact absurd hparked (leave_awake _ s.phase)
  | raises base p starts after =>
    rcases after with rfl | rfl <;> cases hparked
  | emit k leg c hk => exact .inl ⟨hparked, hop, hcl, hend⟩
  | handle k d hk =>
    -- a parked consumer has no notification of pressure, so it hears of what is handed on
    rcases deliver_cases s.buf d with heq | ⟨-, hheard⟩
    · unfold State.handle State.deliver at hparked hop hcl hend
      rw [heq] at hparked hop hcl hend
      exact .inl ⟨hparked, hop, hcl, hend⟩
    · have hphase : s.phase = .parked := by
        unfold State.handle State.deliver at hparked
        dsimp only at hparked
        split at hparked
        · cases hp : s.phase <;> simp [hp, Phase.wake] at hparked
        · exact hparked
      have hflag := hheard (h.wakes hphase).2
      unfold State.handle State.deliver at hparked
      simp [hflag, hphase, Phase.wake] at hparked
  | resume low idle resumes => cases hparked
  | look low idle resumes =>
    rcases check_cases s low with ⟨-, hready, heq⟩ | ⟨-, heq⟩ | ⟨d, ready, -, -, heq⟩
    · rw [heq] at hop hcl hend
      dsimp only at hop hcl hend
      have ho := h.order.resolve_left (by simp [hcl])
      rcases ho.flow with ⟨queue, hf⟩
      have hvac := hf.vacant hop hcl hend
      refine .inr ?_
      cases low with
      | false => rfl
      | true =>
        have hr : s.buf.resumes true = true :=
          Buffer.resumes_iff.2 ⟨hcl, hend, hop, hready, hvac.heap, rfl⟩
        rw [resumes] at hr
        cases hr
    · rw [heq] at hparked
      exact absurd hparked (resumeWith_awake _ low .pressure)
    · rw [heq] at hparked
      exact absurd hparked (resumeWith_awake _ low (.delivery d))
  | check low awake =>
    rcases check_cases s low with ⟨hpressure, hready, heq⟩ | ⟨-, heq⟩ | ⟨d, ready, -, -, heq⟩
    · rw [heq] at hop hcl hend
      dsimp only at hop hcl hend
      have hbusy := h.stirred awake
      simp [Buffer.Busy, Buffer.Found, hop, hcl, hend, hready, hpressure] at hbusy
    · rw [heq] at hparked
      exact absurd hparked (resumeWith_awake _ low .pressure)
    · rw [heq] at hparked
      exact absurd hparked (resumeWith_awake _ low (.delivery d))
  | close =>
    have hclosed := close_closes s
    rw [hcl] at hclosed
    cases hclosed

end Rules

/-! ## The pool -/

structure Pooled (bufferCount : Nat) (s : Shared β ε) : Prop where
  connected : ∀ c ∈ s.conns, Connected c
  fed : NeverStalls bufferCount s

section Pool

variable {bufferCount : Nat} {s s' : Shared β ε} {e : Event β ε}

theorem Pooled.start (bufferCount leased : Nat) :
    Pooled bufferCount (Shared.start leased : Shared β ε) where
  connected := fun _ hc => absurd hc not_mem_nil
  fed := fun _ hc => absurd hc not_mem_nil

theorem low_of_le {leased : Nat} {conns : List (State β ε)} (hle : s.leased ≤ leased)
    (hlow : s.low bufferCount = false) :
    (⟨leased, conns⟩ : Shared β ε).low bufferCount = false := by
  simp only [Shared.low, decide_eq_false_iff_not] at hlow ⊢
  omega

theorem Pooled.act {k : Nat} {a : Act β ε} {c c' : State β ε} (h : Pooled bufferCount s)
    (hk : s.conns[k]? = some c) (hs : step c (a.under (s.low bufferCount)) = some c') :
    Pooled bufferCount { leased := s.leased + a.leases, conns := s.conns.set k c' } := by
  have hmem : c ∈ s.conns := mem_of_getElem? hk
  have hc := h.connected c hmem
  refine ⟨?_, ?_⟩
  · intro x hx
    rcases mem_or_eq_of_mem_set hx with hx | rfl
    · exact h.connected x hx
    · exact hc.step hs
  · intro x hx hst
    refine low_of_le (Nat.le_add_right _ _) ?_
    rcases mem_or_eq_of_mem_set hx with hx | rfl
    · exact h.fed x hx hst
    · rcases hc.stalls hs hst with hst' | ha
      · exact h.fed c hmem hst'
      · -- `take_next` was told that the pool is above low water
        cases a with
        | takeNext low => exact (Act.takeNext.inj ha)
        | _ => cases ha

theorem Pooled.step (h : Pooled bufferCount s) (he : ReleasesHeard bufferCount s e)
    (hs : s.step bufferCount e = some s') : Pooled bufferCount s' := by
  cases e with
  | connect =>
    cases hs
    refine ⟨?_, ?_⟩
    · intro c hc
      rcases mem_append.1 hc with hc | hc
      · exact h.connected c hc
      · have heq : c = RecvIter.init := by simpa using hc
        exact heq ▸ Connected.init
    · intro c hc hst
      rcases mem_append.1 hc with hc | hc
      · exact h.fed c hc hst
      · have heq : c = RecvIter.init := by simpa using hc
        rw [heq] at hst
        cases hst.1
  | act k a =>
    unfold Shared.step at hs
    dsimp only at hs
    split at hs
    · rename_i c hk
      split at hs
      · rename_i c' hc
        cases hs
        exact h.act hk hc
      · cases hs
    · cases hs
  | release =>
    cases hs
    refine ⟨h.connected, ?_⟩
    intro c hc hst
    by_contra hlow
    have hlt : (s.leased - 1) * 2 < bufferCount := by simpa [Shared.low] using hlow
    exact he hlt c hc hst

theorem Pooled.breaks (he : ¬ ReleasesHeard bufferCount s e)
    (hs : s.step bufferCount e = some s') : ¬ NeverStalls bufferCount s' := by
  cases e with
  | release =>
    cases hs
    simp only [ReleasesHeard, not_forall, not_not] at he
    rcases he with ⟨hlt, c, hc, hst⟩
    intro hfed
    have hlow := hfed c hc hst
    have hlow' : ¬ (s.leased - 1) * 2 < bufferCount := by simpa [Shared.low] using hlow
    exact hlow' hlt
  | _ => exact absurd trivial he

end Pool

/-- The connections of a pool never stall in a run if and only if no buffer that brings the pool to
low water is returned while a consumer waits without a leg. -/
theorem never_stalls_iff (bufferCount leased : Nat) (events : List (Event β ε)) :
    Always (Shared.step bufferCount) (NeverStalls bufferCount) (Shared.start leased) events ↔
      Along (Shared.step bufferCount) (ReleasesHeard bufferCount) (Shared.start leased) events :=
  always_iff_along (fun _ h => h.fed) (fun _ _ _ h he hs => h.step he hs)
    (fun _ _ _ _ he hs => Pooled.breaks he hs) events (Shared.start leased)
    (Pooled.start bufferCount leased)

instance (bufferCount : Nat) : DecidablePred (NeverStalls bufferCount : Shared Nat Unit → Prop) := fun s =>
  inferInstanceAs (Decidable (∀ c ∈ s.conns, (c.phase = .parked ∧ c.buf.currentOperation = none ∧
    c.buf.closed = false ∧ c.buf.recvEnded = false) → s.low bufferCount = false))

/-- A pool of one buffer, and two connections.  The buffer is leased to the first; the leg of the
second ends with `ENOBUFS`, and its consumer passes over the pressure and parks.  The consumer of
the first returns the buffer. -/
theorem parked_connection_not_rearmed :
    ¬ Always (Shared.step 1) (NeverStalls 1) (Shared.start 0 : Shared Nat Unit)
        [.connect, .act 0 (.arm .armed), .connect, .act 1 (.arm .armed),
          .act 0 (.emit 0 (.data 1 [] true)), .act 1 (.emit 0 (.error .enobufs)),
          .act 0 (.handle 0), .act 1 (.handle 0), .act 1 (.takeNext false),
          .act 1 (.takeNext false), .act 0 (.takeNext false), .release] := by
  decide

end Pytealet.Io.RecvIter
