import Pytealet.Io.RecvSteps

/-!
# RecvStream — the consumer of a receive buffer gets the stream

Over any number of legs, the consumer gets every chunk that was received, once and in the order in
which it was received, and then at most one terminal.  Two legs share an index in one way only: the
`ENOBUFS` that ends a leg has the index of the first delivery of the next.

The runs are those without `close` and without a `recv_many` that raises while a chunk is in hand:
the exception replaces the chunk.
-/

namespace Pytealet.Io.RecvIter

open Lib Lib.Transition List

variable {β ε : Type*}

/-! ## The consumer is woken -/

/-- A parked consumer has nothing to take. -/
def Wakes (s : State β ε) : Prop :=
  s.phase = .parked → s.buf.ready = [] ∧ s.buf.pressurePending = false

section Rules

variable {s : State β ε} {d : Delivery β ε}

theorem handOff_quiet (b : Buffer β ε) (d : Delivery β ε) (hq : (b.handOff d).2 = false) :
    (b.handOff d).1.ready = b.ready ∧ (b.handOff d).1.pressurePending = b.pressurePending := by
  unfold Buffer.handOff Buffer.onOrderedDelivery Buffer.scheduleResubmit at hq ⊢
  dsimp only at hq ⊢
  split at hq
  · rename_i he
    split at hq
    · cases hq
    · rename_i hcl
      have hp : b.pressurePending = true := by simpa using hq
      simp [he, hcl, hp]
  · cases hq

theorem drain_quiet (fuel : Nat) (b : Buffer β ε) (hq : (b.drain fuel).2 = false) :
    (b.drain fuel).1.ready = b.ready ∧ (b.drain fuel).1.pressurePending = b.pressurePending := by
  induction fuel generalizing b with
  | zero => exact ⟨rfl, rfl⟩
  | succ fuel ih =>
    unfold Buffer.drain at hq ⊢
    split
    · exact ⟨rfl, rfl⟩
    · rename_i root hroot
      simp only [hroot] at hq
      split
      · rename_i hindex
        rw [if_pos hindex] at hq
        split
        · exact ⟨rfl, rfl⟩
        · rename_i pending rest hpop
          simp only [hpop, Bool.or_eq_false_iff] at hq
          have hone := handOff_quiet _ _ hq.1
          have hall := ih _ hq.2
          exact ⟨hall.1.trans hone.1, hall.2.trans hone.2⟩
      · exact ⟨rfl, rfl⟩

theorem deliver_quiet (b : Buffer β ε) (d : Delivery β ε) (hq : (b.deliver d).2 = false) :
    (b.deliver d).1.ready = b.ready ∧ (b.deliver d).1.pressurePending = b.pressurePending := by
  unfold Buffer.deliver at hq ⊢
  split
  · rename_i hindex
    rw [if_pos hindex] at hq
    simp only [Bool.or_eq_false_iff] at hq
    have hone := handOff_quiet b d hq.1
    have hall := drain_quiet _ _ hq.2
    exact ⟨hall.1.trans hone.1, hall.2.trans hone.2⟩
  · exact ⟨rfl, rfl⟩

theorem Wakes.of_awake (hp : s.phase ≠ .parked) : Wakes s :=
  fun h => absurd h hp

theorem Wakes.deliver (h : Wakes s) (d : Delivery β ε) : Wakes (s.deliver d) := by
  intro hparked
  unfold State.deliver at hparked ⊢
  dsimp only at hparked ⊢
  split at hparked
  · -- a woken consumer is not parked
    cases hp : s.phase <;> simp [hp, Phase.wake] at hparked
  · rename_i hq
    rcases deliver_quiet s.buf d (by simpa using hq) with ⟨hready, hpressure⟩
    rw [hready, hpressure]
    exact h hparked

theorem give_awake (s : State β ε) (item : Item β ε) : (s.give item).phase ≠ .parked := by
  cases item with
  | pressure => simp [State.give]
  | delivery d =>
    simp only [State.give]
    split <;> simp

theorem leave_awake (s : State β ε) (p : Phase β ε) : (s.leave p).phase ≠ .parked := by
  cases p with
  | returning base item => exact give_awake s item
  | _ => simp [State.leave]

theorem resumeWith_awake (s : State β ε) (low : Bool) (item : Item β ε) :
    (s.resumeWith low item).phase ≠ .parked := by
  rcases resumeWith_cases s low item with ⟨-, heq⟩ | heq
  · simp [heq]
  · rw [heq]
    exact give_awake s item

theorem Wakes.check (s : State β ε) (low : Bool) : Wakes (s.check low) := by
  rcases check_cases s low with ⟨hpressure, hready, heq⟩ | ⟨-, heq⟩ | ⟨d, ready, -, -, heq⟩
  · rw [heq]
    exact fun _ => ⟨hready, hpressure⟩
  · rw [heq]
    exact .of_awake (resumeWith_awake _ low .pressure)
  · rw [heq]
    exact .of_awake (resumeWith_awake _ low (.delivery d))

theorem Wakes.close (h : Wakes s) : Wakes s.close := by
  by_cases hcl : s.buf.closed = true
  · exact (close_closed hcl).symm ▸ h
  · have hcl' : s.buf.closed = false := by simpa using hcl
    cases hop : s.buf.currentOperation with
    | some op =>
      rw [close_some hcl' hop]
      exact fun hp => ⟨(h hp).1, rfl⟩
    | none =>
      rw [close_none hcl' hop]
      have hshut : Wakes (s.put s.buf.shut) := fun hp => ⟨(h hp).1, rfl⟩
      exact hshut.deliver _

theorem Wakes.step {s' : State β ε} {a : Act β ε} (h : Wakes s) (hs : step s a = some s') :
    Wakes s' := by
  cases step_move hs with
  | armed base starts => exact .of_awake (leave_awake _ s.phase)
  | refused base starts => exact .of_awake (leave_awake _ s.phase)
  | raises base p starts after =>
    refine .of_awake ?_
    rcases after with rfl | rfl <;> simp
  | emit k leg c hk => exact h
  | handle k d hk => exact Wakes.deliver (s := { s with flight := s.flight.eraseIdx k }) h d
  | resume low idle resumes => exact .of_awake (by simp)
  | look low idle resumes => exact Wakes.check s low
  | check low awake => exact Wakes.check s low
  | close => exact h.close

/-! ## What is taken is given -/

/-- What the consumer took, it was given or has in hand. -/
def Told (s : State β ε) : Prop :=
  s.trace.given ++ s.phase.hand = s.trace.taken

/-- No `close`, and no exception of `recv_many` while a chunk is in hand. -/
def Regular (s : State β ε) : Act β ε → Prop
  | .close => False
  | .arm .raises => s.phase.hand = []
  | _ => True

theorem hand_of_base (hp : s.phase.base = none) : s.phase.hand = [] := by
  cases hphase : s.phase with
  | returning base item =>
    rw [hphase] at hp
    cases hp
  | _ => rfl

theorem hand_wake (p : Phase β ε) : p.wake.hand = p.hand := by
  cases p <;> rfl

theorem refused_phase {base : Int} (hp : s.phase.base = some base) : (s.refused base).phase = s.phase := by
  unfold State.refused State.deliver
  dsimp only
  split
  · show s.phase.wake = s.phase
    cases hphase : s.phase with
    | parked =>
      rw [hphase] at hp
      cases hp
    | _ => rfl
  · rfl

theorem Told.deliver (h : Told s) (d : Delivery β ε) : Told (s.deliver d) := by
  unfold Told State.deliver
  dsimp only
  split
  · rw [hand_wake]
    exact h
  · exact h

theorem Told.give {base : Int} {item : Item β ε}
    (h : s.trace.given ++ (Phase.returning base item).hand = s.trace.taken) : Told (s.give item) := by
  cases item with
  | pressure => exact h
  | delivery d =>
    unfold Told State.give
    dsimp only
    split
    · exact (append_nil _).trans h
    · exact (append_nil _).trans h

theorem Told.leave (h : Told s) : Told (s.leave s.phase) := by
  cases hp : s.phase with
  | returning base item =>
    unfold Told at h
    rw [hp] at h
    exact Told.give h
  | _ =>
    unfold Told at h
    rw [hp] at h
    exact h

theorem Told.resumeWith {item : Item β ε} {low : Bool}
    (h : s.trace.given ++ (Phase.returning s.buf.nextBase item).hand = s.trace.taken) :
    Told (s.resumeWith low item) := by
  rcases resumeWith_cases s low item with ⟨-, heq⟩ | heq
  · rw [heq]
    exact h
  · rw [heq]
    exact Told.give h

theorem Told.check (h : Told s) (hp : s.phase.base = none) (low : Bool) : Told (s.check low) := by
  have hgiven : s.trace.given = s.trace.taken := by
    unfold Told at h
    rwa [hand_of_base hp, append_nil] at h
  rcases check_cases s low with ⟨-, -, heq⟩ | ⟨-, heq⟩ | ⟨d, ready, -, -, heq⟩
  · rw [heq]
    exact (append_nil _).trans hgiven
  · rw [heq]
    exact Told.resumeWith ((append_nil _).trans hgiven)
  · rw [heq]
    refine Told.resumeWith ?_
    show s.trace.given ++ [d] = s.trace.taken ++ [d]
    rw [hgiven]

theorem Told.step {s' : State β ε} {a : Act β ε} (h : Told s) (ha : Regular s a)
    (hs : step s a = some s') : Told s' := by
  cases step_move hs with
  | armed base starts => exact Told.leave (s := s.armed base) h
  | refused base starts =>
    have hrefused : Told (s.refused base) := by
      refine Told.deliver ?_ _
      exact h
    have hleave := hrefused.leave
    rwa [refused_phase starts] at hleave
  | raises base p starts after =>
    -- with a delivery in hand the exception would be raised in its place
    have hgiven : s.trace.given = s.trace.taken := by
      have hhand : s.phase.hand = [] := ha
      unfold Told at h
      rwa [hhand, append_nil] at h
    rcases after with rfl | rfl
    · exact (append_nil _).trans hgiven
    · exact (append_nil _).trans hgiven
  | emit k leg c hk => exact h
  | handle k d hk => exact Told.deliver (s := { s with flight := s.flight.eraseIdx k }) h d
  | resume low idle resumes =>
    unfold Told at h
    rw [idle] at h
    exact h
  | look low idle resumes => exact h.check (by rw [idle]; rfl) low
  | check low awake =>
    refine h.check ?_ low
    rcases awake with hp | hp <;> rw [hp] <;> rfl
  | close => exact ha.elim

/-! ## Indices -/

/-- The index of a delivery is the number of those before it that are no `ENOBUFS`. -/
def Counted (s : State β ε) : Prop :=
  ∀ (k : Nat) x, s.trace.emitted[k]? = some x →
    x.2.index = ((s.trace.emitted.take k).countP fun y => !y.2.isEnobufs : Nat)

theorem Flow.filter_more {queue l : List (Delivery β ε)} (h : Flow s queue [])
    (hl : ∀ d ∈ l, d ∈ queue ∧ d.more = true) : (l.filter fun d => !d.isEnobufs) = l := by
  refine filter_eq_self.2 ?_
  intro d hd
  rw [((h.sound d (hl d hd).1).of_more (hl d hd).2).1]
  rfl

variable {queue : List (Delivery β ε)}

theorem Counted.snoc {s' : State β ε} {n : Nat} (h : Counted s) (hd : d.index = s.sent.length)
    (hs : s'.trace.emitted = s.trace.emitted ++ [(n, d)]) : Counted s' := by
  have hsent : s.sent.length = s.trace.emitted.countP fun y => !y.2.isEnobufs := by
    rw [State.sent, ← countP_eq_length_filter, countP_map]
    rfl
  intro k x hx
  rw [hs] at hx ⊢
  rcases Nat.lt_trichotomy k s.trace.emitted.length with hlt | rfl | hlt
  · rw [List.getElem?_append_left hlt] at hx
    rw [take_append_of_le_length hlt.le]
    exact h k x hx
  · rw [List.getElem?_concat_length] at hx
    cases hx
    rw [take_left, hd, hsent]
  · have hlen : (s.trace.emitted ++ [(n, d)]).length ≤ k := by
      rw [length_append]
      exact hlt
    rw [List.getElem?_eq_none hlen] at hx
    cases hx

/-- Of two deliveries the later has the greater index, unless the earlier is an `ENOBUFS`. -/
theorem Counted.pairwise (h : Counted s) :
    s.trace.emitted.Pairwise fun x y => x.2.isEnobufs = true ∨ x.2.index < y.2.index := by
  rw [pairwise_iff_getElem]
  intro i j hi hj hij
  by_cases he : s.trace.emitted[i].2.isEnobufs = true
  · exact Or.inl he
  · -- the earlier one is among those that the index of the later counts
    have hcount := ((take_sublist (i + 1) (s.trace.emitted.take j)).countP_le
      (p := fun y => !y.2.isEnobufs))
    rw [take_take, min_eq_left (by omega), take_succ_eq_append_getElem hi,
      countP_append, countP_singleton] at hcount
    simp only [he, Bool.not_false, if_true] at hcount
    refine Or.inr ?_
    rw [h i _ (List.getElem?_eq_getElem hi), h j _ (List.getElem?_eq_getElem hj)]
    omega

theorem Flow.next_eq {k : Nat} {leg : Leg} (h : Flow s queue [])
    (hk : s.legs[k]? = some leg) : leg.next = s.sent.length := by
  have hne : s.legs ≠ [] := by
    rintro hnil
    simp [hnil] at hk
  cases h.stage with
  | live leg' legs next more open' operation =>
    have heq : leg' = leg := by
      rw [legs] at hk
      cases k with
      | zero =>
        simpa using hk
      | succ k => simp at hk
    have hfilter := h.filter_more fun d hd => ⟨hd, more d hd⟩
    rw [← heq, next, h.sent, hfilter, h.delivered, length_append]
    push_cast
    rfl
  | draining front last legs queue_eq more last_more open' operation => exact absurd legs hne
  | idle legs queue_eq open' operation closed base => exact absurd legs hne
  | spent legs queue_eq ended operation last => exact absurd legs hne

@[simp]
theorem give_emitted (s : State β ε) (item : Item β ε) :
    (s.give item).trace.emitted = s.trace.emitted := by
  cases item <;> rfl

@[simp]
theorem leave_emitted (s : State β ε) (p : Phase β ε) :
    (s.leave p).trace.emitted = s.trace.emitted := by
  cases p with
  | returning base item => exact give_emitted s item
  | _ => rfl

theorem check_emitted (s : State β ε) (low : Bool) :
    (s.check low).trace.emitted = s.trace.emitted := by
  have hresume : ∀ (s' : State β ε) item, (s'.resumeWith low item).trace.emitted = s'.trace.emitted := by
    intro s' item
    rcases resumeWith_cases s' low item with ⟨-, heq⟩ | heq
    · rw [heq]
    · rw [heq, give_emitted]
  rcases check_cases s low with ⟨-, -, heq⟩ | ⟨-, heq⟩ | ⟨d, ready, -, -, heq⟩
  · rw [heq]
  · rw [heq, hresume]
    rfl
  · rw [heq, hresume]
    rfl

/-- A delivery takes the next index; only that of an `ENOBUFS` is given out again. -/
theorem Counted.step {s' : State β ε} {a : Act β ε} (h : Counted s) (ho : Orderly s) (ha : Regular s a)
    (hs : step s a = some s') : Counted s' := by
  rcases ho.flow with ⟨queue, hf⟩
  cases step_move hs with
  | armed base starts =>
    unfold Counted
    rw [leave_emitted]
    exact h
  | refused base starts =>
    have hvac := ho.arming base starts
    -- a leg is started only when nothing is pending
    have hsent : s.sent = s.done := by
      have hq := hvac.queue_nil hf
      rw [hf.sent, hq]
      exact append_nil _
    refine h.snoc ?_ (leave_emitted _ _)
    rw [recvManyCqe_index, hsent, ← hf.delivered]
    exact hvac.base_eq
  | raises base p starts after => exact h
  | emit k leg c hk =>
    refine h.snoc ?_ rfl
    rw [recvManyCqe_index, hf.next_eq hk]
  | handle k d hk => exact h
  | resume low idle resumes => exact h
  | look low idle resumes =>
    unfold Counted
    rw [check_emitted]
    exact h
  | check low awake =>
    unfold Counted
    rw [check_emitted]
    exact h
  | close => exact ha.elim

/-! ## The law -/

/-- The chunks of all legs, in the order in which they were received. -/
def State.received (s : State β ε) : List (List β) :=
  (s.trace.emitted.map Prod.snd).flatMap Delivery.chunk

/-- What the consumer was given, has in hand, or finds in `_ready`. -/
def State.obtained (s : State β ε) : List (Delivery β ε) :=
  s.trace.given ++ s.phase.hand ++ s.buf.ready

structure StreamLaw (s : State β ε) : Prop where
  /-- Every chunk that was received is obtained, in order, or is pending. -/
  chunks : ∃ rest, s.received = s.obtained.flatMap Delivery.chunk ++ rest ∧
    rest.Perm ((s.flight ++ s.buf.heap.toList).flatMap Delivery.chunk)
  /-- When everything has arrived, a consumer that waits was given all of it. -/
  arrived : s.flight = [] → s.phase = .parked → s.received = s.trace.given.flatMap Delivery.chunk
  /-- Nothing follows a terminal. -/
  last : ∀ d ∈ s.obtained.dropLast, d.terminal = false
  /-- One leg is live at a time. -/
  legs : s.legs.length ≤ 1
  /-- Indices grow, except that the index of an `ENOBUFS` is used again, -/
  indices : s.trace.emitted.Pairwise fun x y => x.2.isEnobufs = true ∨ x.2.index < y.2.index
  /-- by the next delivery: each is numbered by those before it that are no `ENOBUFS`. -/
  counted : Counted s

theorem chunk_of_enobufs (he : d.isEnobufs = true) : d.chunk = [] := by
  unfold Delivery.chunk
  rw [Delivery.terminal_of_enobufs he, if_pos rfl]

theorem flatMap_chunk_filter (l : List (Delivery β ε)) :
    (l.filter fun d => !d.isEnobufs).flatMap Delivery.chunk = l.flatMap Delivery.chunk := by
  induction l with
  | nil => rfl
  | cons d l ih =>
    by_cases he : d.isEnobufs = true
    · rw [filter_cons_of_neg (by simpa using he), flatMap_cons, chunk_of_enobufs he, ih]
      rfl
    · rw [filter_cons_of_pos (by simpa using he), flatMap_cons, flatMap_cons, ih]

theorem received_eq (s : State β ε) : s.received = s.sent.flatMap Delivery.chunk :=
  (flatMap_chunk_filter _).symm

theorem Orderly.heap_nil (h : Orderly s) (hfly : s.flight = []) : s.buf.heap = #[] := by
  rcases h.flow with ⟨queue, hf⟩
  have hpend := hf.pending
  rw [hfly] at hpend
  simp only [nil_append] at hpend
  have hnil := hf.numbered.eq_nil_of_perm hpend fun d hd => h.ahead d (Array.mem_toList_iff.1 hd)
  rw [hnil] at hpend
  exact Array.toList_eq_nil_iff.1 (perm_nil.1 hpend)

theorem Flow.last_done (h : Flow s queue []) : ∀ d ∈ s.done.dropLast, d.terminal = false := by
  cases h.stage with
  | spent legs queue_eq ended operation last =>
    rcases last with ⟨front, d, hdone, -, hfront⟩
    rw [hdone, dropLast_concat]
    exact hfront
  | live leg legs next more open' operation =>
    exact fun d hd => h.clear open' d ((dropLast_sublist _).subset hd)
  | draining front last legs queue_eq more last_more open' operation =>
    exact fun d hd => h.clear open' d ((dropLast_sublist _).subset hd)
  | idle legs queue_eq open' operation closed base =>
    exact fun d hd => h.clear open' d ((dropLast_sublist _).subset hd)

theorem Flow.legs_le (h : Flow s queue []) : s.legs.length ≤ 1 := by
  cases h.stage with
  | live leg legs next more open' operation => simp [legs]
  | draining front last legs queue_eq more last_more open' operation => simp [legs]
  | idle legs queue_eq open' operation closed base => simp [legs]
  | spent legs queue_eq ended operation last => simp [legs]

/-- The invariant of a stream that is not closed. -/
structure Streaming (s : State β ε) : Prop where
  orderly : Orderly s
  closed : s.buf.closed = false
  told : Told s
  wakes : Wakes s
  counted : Counted s

theorem Streaming.obtained_eq (h : Streaming s) : s.obtained = s.done := by
  unfold State.obtained State.done
  rw [h.told]

theorem Streaming.law (h : Streaming s) : StreamLaw s := by
  rcases h.orderly.flow with ⟨queue, hf⟩
  -- an `ENOBUFS` carries no chunk, so it does not matter that `sent` leaves it out
  have hsent : s.received = s.done.flatMap Delivery.chunk ++ queue.flatMap Delivery.chunk := by
    rw [received_eq, hf.sent, flatMap_append, flatMap_chunk_filter]
  refine ⟨⟨queue.flatMap Delivery.chunk, ?_, ?_⟩, ?_, ?_, hf.legs_le, h.counted.pairwise, h.counted⟩
  · rw [h.obtained_eq, hsent]
  · exact (hf.pending.flatMap_right Delivery.chunk).symm
  · intro hfly hparked
    have hq : queue = [] := by
      have hpend := hf.pending
      rw [hfly, h.orderly.heap_nil hfly] at hpend
      exact perm_nil.1 hpend.symm
    -- a consumer that is parked has nothing in hand, and found `_ready` empty
    have hdone : s.done = s.trace.given := by
      have htold := h.told
      unfold Told at htold
      rw [hparked] at htold
      unfold State.done
      rw [(h.wakes hparked).1, append_nil, ← htold]
      exact append_nil _
    rw [hsent, hq, hdone]
    exact append_nil _
  · rw [h.obtained_eq]
    exact hf.last_done

theorem Streaming.init : Streaming (RecvIter.init : State β ε) where
  orderly := Orderly.init
  closed := rfl
  told := rfl
  wakes := fun h => by cases h
  counted := by
    intro k x hx
    simp [RecvIter.init] at hx

theorem Streaming.step {s' : State β ε} {a : Act β ε} (h : Streaming s) (ha : Regular s a)
    (hs : step s a = some s') : Streaming s' := by
  have hne : a ≠ .close := by
    rintro rfl
    exact ha
  have hclosed : s'.buf.closed = false := (closed_step hne hs).trans h.closed
  have huncut : Uncut s a := by
    cases a with
    | handle k =>
      intro hcl
      rw [h.closed] at hcl
      cases hcl
    | _ => trivial
  rcases h.orderly.step huncut hs with ho | ⟨hcl, -⟩
  -- order is lost by closing only
  · exact ⟨ho, hclosed, h.told.step ha hs, h.wakes.step hs, h.counted.step h.orderly ha hs⟩
  · rw [hclosed] at hcl
    cases hcl

end Rules

/-- The consumer gets the stream, in every run without `close` and without an exception of
`recv_many` that replaces a chunk. -/
theorem recv_stream_law (acts : List (Act β ε)) (h : Along step Regular init acts) :
    Always step StreamLaw init acts :=
  always_of_along (fun _ hs => Streaming.law hs) (fun _ _ _ hi hc hs => hi.step hc hs) acts init
    Streaming.init h

instance (s : State Nat Unit) (a : Act Nat Unit) : Decidable (Regular s a) :=
  match a with
  | .close => isFalse id
  | .arm .raises => inferInstanceAs (Decidable (s.phase.hand = []))
  | .arm .armed => isTrue trivial
  | .arm .refused => isTrue trivial
  | .emit _ _ => isTrue trivial
  | .handle _ => isTrue trivial
  | .takeNext _ => isTrue trivial
  | .check _ => isTrue trivial

/-- Two chunks arrive in the wrong order; the leg ends with the second, and the next with an
`ENOBUFS`. -/
theorem recv_stream_law_two_legs :
    Played step (fun s as => Along step Regular s as ∧ Always step StreamLaw s as) (init : State Nat Unit)
      [.arm .armed, .emit 0 (.data 1 [] true), .emit 0 (.data 2 [] false), .handle 1, .handle 0,
        .takeNext true, .takeNext true, .arm .armed, .emit 0 (.error .enobufs), .handle 0] :=
  ⟨⟨by decide, recv_stream_law _ (by decide)⟩, by decide⟩

/-- No two legs share an index. -/
def Separate (s : State β ε) : Prop :=
  ∀ x ∈ s.trace.emitted, ∀ y ∈ s.trace.emitted, x.1 ≠ y.1 → x.2.index ≠ y.2.index

instance : DecidablePred (Separate : State Nat Unit → Prop) := fun s =>
  inferInstanceAs (Decidable (∀ x ∈ s.trace.emitted, ∀ y ∈ s.trace.emitted,
    x.1 ≠ y.1 → x.2.index ≠ y.2.index))

/-- An `ENOBUFS` ends the first leg at index 0, where the second leg starts. -/
theorem enobufs_index_used_again :
    Along step Regular (init : State Nat Unit)
        [.arm .armed, .emit 0 (.error .enobufs), .handle 0, .takeNext true, .arm .armed,
          .emit 0 (.data 1 [] true)] ∧
      ¬ Always step Separate (init : State Nat Unit)
        [.arm .armed, .emit 0 (.error .enobufs), .handle 0, .takeNext true, .arm .armed,
          .emit 0 (.data 1 [] true)] := by
  decide

end Pytealet.Io.RecvIter
