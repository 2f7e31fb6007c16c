import Pytealet.Io.RecvStream

/-!
# RecvClose — whether `close` ends the consumer of a receive buffer

`close` cancels the leg that is under way and leaves the terminal to it.  The leg may end otherwise:
its last delivery is data without `more`.  While the stream is open another leg follows; in a closed
buffer none does, and nothing posts a terminal in its place.  The consumer drains `_ready` and parks
for good.

That is the only way: a closed buffer whose legs are over has a terminal for the consumer, as long
as no leg of it ends with data.
-/

namespace Pytealet.Io.RecvIter

open Lib Lib.Transition List

variable {β ε : Type*}

/-! ## The property and the guard -/

/-- The consumer was given a terminal, or `_ready` holds one. -/
def Answered (s : State β ε) : Prop :=
  ∃ d ∈ s.trace.given ++ s.buf.ready, d.terminal = true

/-- When the legs of a closed buffer are over and nothing is on its way, the consumer has a terminal
and is not parked. -/
def Terminates (s : State β ε) : Prop :=
  s.buf.closed = true → s.legs = [] → s.flight = [] → Answered s ∧ s.phase ≠ .parked

/-- The last delivery that arrives at a closed buffer without a terminal does not complete a leg
that ended with data. -/
def Answers (s : State β ε) (a : Act β ε) : Prop :=
  ¬ Answered s → Uncut s a

section Rules

variable {s : State β ε} {d : Delivery β ε}

/-! ## Terminals in `_ready` -/

theorem handOff_terminals (b : Buffer β ε) (d : Delivery β ε) :
    ∀ x ∈ (b.handOff d).1.ready, x.terminal = true → x ∈ b.ready ∨ d.terminal = true := by
  intro x hx hterm
  by_cases he : d.isEnobufs = true
  · exact .inr (Delivery.terminal_of_enobufs he)
  · -- any other delivery is put into `_ready`
    have hready : (b.handOff d).1.ready = b.ready ++ [d] := by
      unfold Buffer.handOff Buffer.onOrderedDelivery Buffer.finishLeg Buffer.scheduleResubmit
      simp only [he, Bool.false_eq_true, if_false]
      split
      · split <;> rfl
      · split <;> rfl
    rw [hready] at hx
    rcases mem_append.1 hx with hx | hx
    · exact .inl hx
    · have heq : x = d := by simpa using hx
      exact .inr (heq ▸ hterm)

theorem drain_terminals (fuel : Nat) (b : Buffer β ε) (ho : Heapq.Ordered Delivery.index b.heap) :
    ∀ x ∈ (b.drain fuel).1.ready, x.terminal = true →
      x ∈ b.ready ∨ ∃ y ∈ b.heap, y.terminal = true := by
  induction fuel generalizing b with
  | zero => exact fun x hx _ => .inl hx
  | succ fuel ih =>
    intro x hx hterm
    unfold Buffer.drain at hx
    split at hx
    · exact .inl hx
    · split at hx
      · split at hx
        · exact .inl hx
        · rename_i pending rest hpop
          rcases Heapq.heappop_spec ho hpop with ⟨hord, hperm, -⟩
          have hheap := handOff_heap ({ b with heap := rest } : Buffer β ε) pending
          rcases ih _ (hheap ▸ hord) x hx hterm with hx | ⟨y, hy, hyterm⟩
          · rcases handOff_terminals _ pending x hx hterm with hx | hp
            · exact .inl hx
            · exact .inr ⟨pending, hperm.mem_iff.1 (by simp), hp⟩
          · rw [hheap] at hy
            exact .inr ⟨y, hperm.mem_iff.1 (Array.mem_push.2 (.inl hy)), hyterm⟩
      · exact .inl hx

theorem deliver_terminals (b : Buffer β ε) (ho : Heapq.Ordered Delivery.index b.heap)
    (d : Delivery β ε) :
    ∀ x ∈ (b.deliver d).1.ready, x.terminal = true →
      x ∈ b.ready ∨ ∃ y ∈ d :: b.heap.toList, y.terminal = true := by
  intro x hx hterm
  unfold Buffer.deliver at hx
  split at hx
  · have hheap := handOff_heap b d
    rcases drain_terminals _ _ (hheap ▸ ho) x hx hterm with hx | ⟨y, hy, hyterm⟩
    · rcases handOff_terminals b d x hx hterm with hx | hd
      · exact .inl hx
      · exact .inr ⟨d, mem_cons_self, hd⟩
    · rw [hheap] at hy
      exact .inr ⟨y, mem_cons_of_mem d (Array.mem_toList_iff.2 hy), hyterm⟩
  · exact .inl hx

/-! ## What the consumer has heard -/

/-- What the consumer was given it has taken, and a terminal that it took it was given: then it is
done. -/
structure Heard (s : State β ε) : Prop where
  known : ∀ d ∈ s.trace.given ++ s.phase.hand, d ∈ s.trace.taken
  heard : ∀ d ∈ s.trace.taken, d.terminal = true → d ∈ s.trace.given
  finished : ∀ d ∈ s.trace.given, d.terminal = true → s.phase = .finished

/-- A terminal in `_ready` is the last of its buffer. -/
def Tail (s : State β ε) : Prop :=
  ∀ d ∈ s.buf.ready, d.terminal = true → s.buf.Over

theorem Heard.unfinished (h : Heard s) (hp : s.phase ≠ .finished) :
    ∀ d ∈ s.trace.given, d.terminal = false := by
  intro d hd
  by_contra hterm
  exact hp (h.finished d hd (by simpa using hterm))

theorem Heard.move {s' : State β ε} (h : Heard s) (htrace : s'.trace.given = s.trace.given)
    (htaken : s'.trace.taken = s.trace.taken) (hhand : s'.phase.hand = [] ∨ s'.phase.hand = s.phase.hand)
    (hphase : s.phase = .finished → s'.phase = .finished) : Heard s' where
  known := by
    intro d hd
    rw [htaken]
    refine h.known d ?_
    rw [htrace] at hd
    rcases hhand with hhand | hhand
    · rw [hhand, append_nil] at hd
      exact mem_append_left _ hd
    · rwa [hhand] at hd
  heard := by
    rw [htrace, htaken]
    exact h.heard
  finished := by
    rw [htrace]
    exact fun d hd hterm => hphase (h.finished d hd hterm)

theorem Heard.deliver (h : Heard s) (d : Delivery β ε) : Heard (s.deliver d) := by
  have hphase : (s.deliver d).phase = s.phase.wake ∨ (s.deliver d).phase = s.phase := by
    unfold State.deliver
    dsimp only
    split
    · exact .inl rfl
    · exact .inr rfl
  rcases hphase with hp | hp
  · refine h.move rfl rfl (.inr (by rw [hp, hand_wake])) ?_
    intro hfin
    rw [hp, hfin]
    rfl
  · exact h.move rfl rfl (.inr (by rw [hp])) (fun hfin => hp.trans hfin)

theorem Heard.give (base : Int) {item : Item β ε}
    (hknown : ∀ d ∈ s.trace.given ++ (Phase.returning base item).hand, d ∈ s.trace.taken)
    (hheard : ∀ d ∈ s.trace.taken, d.terminal = true →
      d ∈ s.trace.given ++ (Phase.returning base item).hand)
    (hopen : ∀ d ∈ s.trace.given, d.terminal = false) : Heard (s.give item) := by
  cases item with
  | pressure =>
    refine ⟨hknown, ?_, ?_⟩
    · intro d hd hterm
      simpa [Phase.hand, State.give] using hheard d hd hterm
    · intro d hd hterm
      have hno := hopen d hd
      rw [hterm] at hno
      cases hno
  | delivery x =>
    refine ⟨?_, hheard, ?_⟩
    · intro d hd
      have hhand : (s.give (.delivery x)).phase.hand = [] := by
        simp only [State.give]
        split <;> rfl
      rw [hhand, append_nil] at hd
      exact hknown d hd
    · intro d hd hterm
      rcases mem_append.1 hd with hd | hd
      · have hno := hopen d hd
        rw [hterm] at hno
        cases hno
      · have heq : d = x := by simpa using hd
        subst heq
        simp [State.give, hterm]

theorem Heard.leave {base : Int} (h : Heard s) (hp : s.phase.base = some base) :
    Heard (s.leave s.phase) := by
  have hopen : ∀ d ∈ s.trace.given, d.terminal = false := by
    refine h.unfinished ?_
    intro hfin
    rw [hfin] at hp
    cases hp
  cases hphase : s.phase with
  | returning base item =>
    have hknown := h.known
    rw [hphase] at hknown
    exact Heard.give base hknown (fun d hd hterm => mem_append_left _ (h.heard d hd hterm)) hopen
  | finished =>
    rw [hphase] at hp
    cases hp
  | _ =>
    refine h.move rfl rfl (.inl rfl) ?_
    intro hfin
    rw [hfin] at hp
    cases hp

theorem Heard.resumeWith (h : Heard s) (hfin : s.phase ≠ .finished) (low : Bool)
    {ready : List (Delivery β ε)} (hover : d.terminal = true → s.buf.Over) :
    Heard ((s.pop d ready).resumeWith low (.delivery d)) := by
  have hopen := h.unfinished hfin
  have hknown : ∀ x ∈ s.trace.given ++ [d], x ∈ s.trace.taken ++ [d] := by
    intro x hx
    rcases mem_append.1 hx with hx | hx
    · exact mem_append_left _ (h.known x (mem_append_left _ hx))
    · exact mem_append_right _ hx
  have hheard : ∀ x ∈ s.trace.taken ++ [d], x.terminal = true → x ∈ s.trace.given ++ [d] := by
    intro x hx hterm
    rcases mem_append.1 hx with hx | hx
    · exact mem_append_left _ (h.heard x hx hterm)
    · exact mem_append_right _ hx
  rcases resumeWith_cases (s.pop d ready) low (.delivery d) with ⟨hr, heq⟩ | heq
  · rw [heq]
    -- after a terminal no leg is started
    have hnot : d.terminal = false := by
      by_contra hterm
      have hov : (s.pop d ready).buf.Over := hover (by simpa using hterm)
      rw [hov.resumes low] at hr
      cases hr
    refine ⟨hknown, ?_, ?_⟩
    · intro x hx hterm
      rcases mem_append.1 (hheard x hx hterm) with hx | hx
      · exact hx
      · have hxd : x = d := by simpa using hx
        rw [hxd, hnot] at hterm
        cases hterm
    · intro x hx hterm
      have hno := hopen x hx
      rw [hterm] at hno
      cases hno
  · rw [heq]
    exact Heard.give 0 hknown hheard hopen

theorem Heard.check (h : Heard s) (htail : Tail s) (hfin : s.phase ≠ .finished) (low : Bool) :
    Heard (s.check low) := by
  rcases check_cases s low with ⟨-, -, heq⟩ | ⟨-, heq⟩ | ⟨d, ready, -, hready, heq⟩
  · rw [heq]
    exact h.move rfl rfl (.inl rfl) (fun hf => absurd hf hfin)
  · rw [heq]
    rcases resumeWith_cases s.relieve low .pressure with ⟨-, heq'⟩ | heq'
    · rw [heq']
      exact h.move rfl rfl (.inl rfl) (fun hf => absurd hf hfin)
    · rw [heq']
      exact h.move rfl rfl (.inl rfl) (fun hf => absurd hf hfin)
  · rw [heq]
    exact h.resumeWith hfin low (htail d (hready ▸ mem_cons_self))

theorem Heard.step {s' : State β ε} {a : Act β ε} (h : Heard s) (htail : Tail s)
    (hs : step s a = some s') : Heard s' := by
  cases step_move hs with
  | armed base starts =>
    have harmed : Heard (s.armed base) := h.move rfl rfl (.inr rfl) id
    exact harmed.leave starts
  | refused base starts =>
    have hrefused : Heard (s.refused base) := by
      refine Heard.deliver ?_ _
      exact h.move rfl rfl (.inr rfl) id
    have hphase := refused_phase starts
    have hleave := hrefused.leave (hphase.symm ▸ starts)
    rwa [hphase] at hleave
  | raises base p starts after =>
    refine h.move rfl rfl (.inl ?_) ?_
    · rcases after with rfl | rfl <;> rfl
    · intro hfin
      rw [hfin] at starts
      cases starts
  | emit k leg c hk => exact h.move rfl rfl (.inr rfl) id
  | handle k d hk =>
    refine Heard.deliver ?_ d
    exact h.move rfl rfl (.inr rfl) id
  | resume low idle resumes =>
    refine h.move rfl rfl (.inl rfl) ?_
    intro hfin
    rw [hfin] at idle
    cases idle
  | look low idle resumes => exact h.check htail (by simp [idle]) low
  | check low awake =>
    rcases awake with hp | hp
    · exact h.check htail (by simp [hp]) low
    · exact h.check htail (by simp [hp]) low
  | close =>
    by_cases hcl : s.buf.closed = true
    · exact (close_closed hcl).symm ▸ h
    · have hcl' : s.buf.closed = false := by simpa using hcl
      cases hop : s.buf.currentOperation with
      | some op =>
        rw [close_some hcl' hop]
        exact h.move rfl rfl (.inr rfl) id
      | none =>
        -- the terminal goes into `_ready`; the consumer has not taken it yet
        rw [close_none hcl' hop]
        refine Heard.deliver ?_ _
        exact h.move rfl rfl (.inr rfl) id

/-! ## The invariant -/

/-- A leg is still to come, or the end has been posted. -/
structure Closing (s : State β ε) : Prop where
  order : Orderly s ∨ (s.buf.closed = true ∧ Posted s)
  heard : Heard s
  wakes : Wakes s

theorem Closing.init : Closing (RecvIter.init : State β ε) where
  order := .inl Orderly.init
  heard :=
    { known := fun d hd => absurd hd not_mem_nil
      heard := fun d hd => absurd hd not_mem_nil
      finished := fun d hd => absurd hd not_mem_nil }
  wakes := fun h => by cases h

theorem Orderly.ended_of_terminal (h : Orderly s) (hmem : d ∈ s.done) (hterm : d.terminal = true) :
    s.buf.recvEnded = true := by
  rcases h.flow with ⟨queue, hf⟩
  by_contra hend
  have hno := hf.clear (by simpa using hend) d hmem
  rw [hterm] at hno
  cases hno

theorem Closing.tail (h : Closing s) : Tail s := by
  intro d hd hterm
  rcases h.order with ho | ⟨-, hp⟩
  · exact .inl (ho.ended_of_terminal (mem_append_right _ hd) hterm)
  · exact hp.2

theorem Orderly.over_flight (h : Orderly s) (hend : s.buf.recvEnded = true) : s.flight = [] := by
  rcases h.flow with ⟨queue, hf⟩
  cases hf.stage with
  | spent legs queue_eq ended operation last =>
    have hpend := queue_eq ▸ hf.pending
    simp only [nil_append] at hpend
    exact (append_eq_nil_iff.1 (perm_nil.1 hpend)).1
  | live leg legs next more open' operation =>
    rw [hend] at open'
    cases open'
  | draining front last legs queue_eq more last_more open' operation =>
    rw [hend] at open'
    cases open'
  | idle legs queue_eq open' operation closed base =>
    rw [hend] at open'
    cases open'

theorem Orderly.over_of_idle (h : Orderly s) (hcl : s.buf.closed = true) (hlegs : s.legs = [])
    (hfly : s.flight = []) : ∃ d ∈ s.done, d.terminal = true := by
  rcases h.flow with ⟨queue, hf⟩
  have hq : queue = [] := by
    have hpend := hf.pending
    rw [hfly, h.heap_nil hfly] at hpend
    exact perm_nil.1 hpend.symm
  cases hf.stage with
  | spent legs queue_eq ended operation last =>
    rcases last with ⟨front, d, hdone, hterm, -⟩
    exact ⟨d, hdone ▸ mem_append_right front mem_cons_self, hterm⟩
  | live leg legs next more open' operation =>
    rw [hlegs] at legs
    cases legs
  | draining front last legs queue_eq more last_more open' operation =>
    rw [hq] at queue_eq
    simp at queue_eq
  | idle legs queue_eq open' operation closed base =>
    rw [hcl] at closed
    cases closed

theorem Closing.terminates (h : Closing s) : Terminates s := by
  intro hcl hlegs hfly
  have hans : Answered s := by
    rcases h.order with ho | ⟨-, hp⟩
    · rcases ho.over_of_idle hcl hlegs hfly with ⟨d, hd, hterm⟩
      refine ⟨d, ?_, hterm⟩
      rcases mem_append.1 hd with hd | hd
      · exact mem_append_left _ (h.heard.heard d hd hterm)
      · exact mem_append_right _ hd
    · exact hp.1
  refine ⟨hans, ?_⟩
  intro hparked
  rcases hans with ⟨d, hd, hterm⟩
  rw [(h.wakes hparked).1, append_nil] at hd
  have hfin := h.heard.finished d hd hterm
  rw [hparked] at hfin
  cases hfin

/-- Once the end has been posted, no leg starts. -/
theorem Closing.step {s' : State β ε} {a : Act β ε} (h : Closing s) (ha : Answers s a)
    (hs : step s a = some s') : Closing s' := by
  refine ⟨?_, h.heard.step h.tail hs, h.wakes.step hs⟩
  rcases h.order with ho | ⟨hcl, hp⟩
  · by_cases hans : Answered s
    · -- the buffer is over: nothing arrives any more
      refine ho.step ?_ hs
      cases a with
      | handle k =>
        intro _ hone
        rcases hans with ⟨d, hd, hterm⟩
        have hmem : d ∈ s.done := by
          rcases mem_append.1 hd with hd | hd
          · exact mem_append_left _ (h.heard.known d (mem_append_left _ hd))
          · exact mem_append_right _ hd
        rw [ho.over_flight (ho.ended_of_terminal hmem hterm)] at hone
        cases hone
      | _ => trivial
    · exact ho.step (ha hans) hs
  · refine .inr ⟨?_, hp.step hs⟩
    by_cases hclose : a = .close
    · subst hclose
      cases hs
      rw [close_closed hcl]
      exact hcl
    · exact (closed_step hclose hs).trans hcl

theorem Flow.ended_with_data {queue : List (Delivery β ε)} {x : Delivery β ε} (h : Flow s queue [])
    (hx : x ∈ queue) (hmore : x.more = false) (hterm : x.terminal = false) :
    s.legs = [] ∧ ∀ y ∈ queue, y.terminal = false := by
  cases h.stage with
  | live leg legs next more open' operation =>
    have hm := more x hx
    rw [hmore] at hm
    cases hm
  | idle legs queue_eq open' operation closed base =>
    rw [queue_eq] at hx
    cases hx
  | spent legs queue_eq ended operation last =>
    rw [queue_eq] at hx
    cases hx
  | draining front last legs queue_eq more last_more open' operation =>
    -- `x` is the last, for the others have `more`
    have hxl : x = last := by
      rw [queue_eq] at hx
      rcases mem_append.1 hx with hx | hx
      · have hm := more x hx
        rw [hmore] at hm
        cases hm
      · simpa using hx
    refine ⟨legs, ?_⟩
    intro y hy
    have hsound := h.sound y hy
    rw [queue_eq] at hy
    rcases mem_append.1 hy with hy | hy
    · exact (hsound.of_more (more y hy)).2.2
    · have hyl : y = last := by simpa using hy
      rw [hyl, ← hxl]
      exact hterm

theorem Closing.breaks {s' : State β ε} {a : Act β ε} (h : Closing s) (ha : ¬ Answers s a)
    (hs : RecvIter.step s a = some s') : ¬ Terminates s' := by
  have hans : ¬ Answered s := fun hans => ha fun hno => absurd hans hno
  have hcut : ¬ Uncut s a := fun hcut => ha fun _ => hcut
  have ho : Orderly s := by
    rcases h.order with ho | ⟨-, hp⟩
    · exact ho
    · exact absurd hp.1 hans
  cases step_move hs with
  | handle k d hk =>
    simp only [Uncut, not_forall] at hcut
    rcases hcut with ⟨hcl, hone, x, hx, hmore, hterm⟩
    rcases ho.flow with ⟨queue, hf⟩
    have hxq : x ∈ queue := hf.pending.subset hx
    rcases hf.ended_with_data hxq hmore (by simpa using hterm) with ⟨hlegs, hclear⟩
    intro hterminates
    have hfly : s.flight.eraseIdx k = [] := by
      have hlt : k < s.flight.length := (List.getElem?_eq_some_iff.1 hk).1
      refine eq_nil_of_length_eq_zero ?_
      rw [length_eraseIdx_of_lt hlt, hone]
    have hclosed : (s.handle k d).buf.closed = true := (deliver_ready _ _).2.1.trans hcl
    rcases hterminates hclosed hlegs hfly with ⟨⟨y, hy, hyterm⟩, -⟩
    -- the terminal was there before, or it comes from the queue
    rcases mem_append.1 hy with hy | hy
    · exact hans ⟨y, mem_append_left _ hy, hyterm⟩
    · rcases deliver_terminals s.buf hf.heap d y hy hyterm with hy | ⟨z, hz, hzterm⟩
      · exact hans ⟨y, mem_append_right _ hy, hyterm⟩
      · have hzq : z ∈ queue := by
          refine hf.pending.subset ?_
          rw [nil_append]
          rcases mem_cons.1 hz with rfl | hz
          · exact mem_append_left _ (mem_of_getElem? hk)
          · exact mem_append_right _ hz
        rw [hclear z hzq] at hzterm
        cases hzterm
  | _ => exact absurd trivial hcut

end Rules

/-- `close` ends the consumer in a run if and only if no leg of the closed buffer ends with data. -/
theorem close_terminates_iff (acts : List (Act β ε)) :
    Always step Terminates (init : State β ε) acts ↔ Along step Answers init acts :=
  always_iff_along (fun _ h => h.terminates) (fun _ _ _ h ha hs => h.step ha hs)
    (fun _ _ _ h ha hs => h.breaks ha hs) acts init Closing.init

instance : DecidablePred (Terminates : State Nat Unit → Prop) := fun s =>
  inferInstanceAs (Decidable (s.buf.closed = true → s.legs = [] → s.flight = [] →
    (∃ d ∈ s.trace.given ++ s.buf.ready, d.terminal = true) ∧ s.phase ≠ .parked))

/-- The cancellation comes too late: the leg has ended with data.  The consumer takes the data and
parks, and nothing will wake it. -/
theorem closed_consumer_parks :
    ¬ Always step Terminates (init : State Nat Unit)
        [.arm .armed, .close, .emit 0 (.data 1 [] false), .handle 0, .takeNext true, .takeNext true] ∧
      (exec step (init : State Nat Unit)
        [.arm .armed, .close, .emit 0 (.data 1 [] false), .handle 0, .takeNext true,
          .takeNext true]).any (fun s => decide (s.phase = .parked ∧ s.legs = [] ∧ s.flight = [])) =
            true := by
  decide

end Pytealet.Io.RecvIter
