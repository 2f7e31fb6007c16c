import Pytealet.Io.RecvIterBuffer
import Pytealet.Lib.Numbered

/-!
# RecvOrder — the deliveries of a receive buffer are handed on by index

What has been received is numbered from 0, over all legs; an `ENOBUFS` takes the number of the
delivery that follows it.  What was handed on is an initial part of it; the rest, the queue, is on
its way or in the heap, in any order.  At most one leg is live.  A leg that has ended has its last
delivery in the queue, until it is handed on: then no leg is under way.

A buffer that was closed while a leg was under way follows the same order until that leg is over.
-/

namespace Pytealet.Io.RecvIter

open Lib Lib.Transition List

variable {β ε : Type*}

/-! ## Deliveries -/

/-- The delivery comes from the io layer. -/
def Delivery.Sound (d : Delivery β ε) : Prop :=
  ∃ c, d = recvManyCqe d.index c

theorem recvManyCqe_sound (index : Int) (c : Completion β ε) : (recvManyCqe index c).Sound := by
  refine ⟨c, ?_⟩
  cases c <;> rfl

@[simp]
theorem recvManyCqe_index (index : Int) (c : Completion β ε) : (recvManyCqe index c).index = index := by
  cases c <;> rfl

theorem Delivery.Sound.of_more {d : Delivery β ε} (h : d.Sound) (hm : d.more = true) :
    d.isEnobufs = false ∧ d.hasData = true ∧ d.terminal = false := by
  rcases h with ⟨c, hc⟩
  cases c with
  | data byte bytes more =>
    rw [hc]
    exact ⟨rfl, rfl, rfl⟩
  | eof =>
    rw [hc] at hm
    cases hm
  | error e =>
    rw [hc] at hm
    cases hm

theorem Delivery.Sound.hasData_eq {d : Delivery β ε} (h : d.Sound) : d.hasData = !d.terminal := by
  rcases h with ⟨c, hc⟩
  cases c with
  | data byte bytes more =>
    rw [hc]
    rfl
  | eof =>
    rw [hc]
    rfl
  | error e =>
    rw [hc]
    rfl

theorem Delivery.terminal_of_enobufs {d : Delivery β ε} (he : d.isEnobufs = true) :
    d.terminal = true := by
  unfold Delivery.isEnobufs at he
  unfold Delivery.terminal
  split at he
  · rename_i heq
    simp [heq]
  · cases he

/-! ## The invariant -/

/-- What was handed on to the consumer. -/
def State.done (s : State β ε) : List (Delivery β ε) :=
  s.trace.taken ++ s.buf.ready

/-- What was received, without the `ENOBUFS`. -/
def State.sent (s : State β ε) : List (Delivery β ε) :=
  (s.trace.emitted.map Prod.snd).filter fun d => !d.isEnobufs

/-- How far the leg is: live; over, with its last delivery in the queue; over, to be followed by
another leg; or over for good. -/
inductive Stage (s : State β ε) (queue : List (Delivery β ε)) : Prop
  | live (leg : Leg) (legs : s.legs = [leg]) (next : leg.next = s.buf.delivered + queue.length)
      (more : ∀ d ∈ queue, d.more = true) (open' : s.buf.recvEnded = false)
      (operation : s.buf.currentOperation.isSome = !s.buf.closed)
  | draining (front : List (Delivery β ε)) (last : Delivery β ε) (legs : s.legs = [])
      (queue_eq : queue = front ++ [last]) (more : ∀ d ∈ front, d.more = true)
      (last_more : last.more = false) (open' : s.buf.recvEnded = false)
      (operation : s.buf.currentOperation.isSome = !s.buf.closed)
  | idle (legs : s.legs = []) (queue_eq : queue = []) (open' : s.buf.recvEnded = false)
      (operation : s.buf.currentOperation = none) (closed : s.buf.closed = false)
      (base : s.buf.nextBase = s.buf.delivered)
  | spent (legs : s.legs = []) (queue_eq : queue = []) (ended : s.buf.recvEnded = true)
      (operation : s.buf.currentOperation = none)
      (last : ∃ front d, s.done = front ++ [d] ∧ d.terminal = true ∧
        ∀ x ∈ front, x.terminal = false)

/-- `extra` is a delivery that has arrived and is not handed on yet. -/
structure Flow (s : State β ε) (queue extra : List (Delivery β ε)) : Prop where
  order : Numbered Delivery.index 0 s.done
  delivered : s.buf.delivered = s.done.length
  numbered : Numbered Delivery.index s.buf.delivered queue
  pending : (extra ++ (s.flight ++ s.buf.heap.toList)).Perm queue
  heap : Heapq.Ordered Delivery.index s.buf.heap
  sent : s.sent = s.done ++ queue.filter fun d => !d.isEnobufs
  sound : ∀ d ∈ queue, d.Sound
  clear : s.buf.recvEnded = false → ∀ d ∈ s.done, d.terminal = false
  stage : Stage s queue

section Rules

variable {s : State β ε} {d : Delivery β ε} {queue t : List (Delivery β ε)}

theorem Flow.head (h : Flow s queue [d]) (hd : d.index = s.buf.delivered) :
    ∃ t, queue = d :: t ∧ (s.flight ++ s.buf.heap.toList).Perm t :=
  h.numbered.perm_tail h.pending hd

theorem Flow.last (h : Flow s (d :: t) [d]) (hm : d.more = false) :
    t = [] ∧ s.legs = [] ∧ s.buf.recvEnded = false ∧
      s.buf.currentOperation.isSome = !s.buf.closed := by
  cases h.stage with
  | live leg legs next more open' operation =>
    have hmore := more d mem_cons_self
    rw [hm] at hmore
    cases hmore
  | draining front last legs queue_eq more last_more open' operation =>
    cases front with
    | nil =>
      have heq : t = [] := by simpa using (List.cons.inj queue_eq).2
      exact ⟨heq, legs, open', operation⟩
    | cons f front =>
      have heq : d = f := (List.cons.inj queue_eq).1
      have hmore := more f mem_cons_self
      rw [← heq, hm] at hmore
      cases hmore
  | idle legs queue_eq open' operation closed base => cases queue_eq
  | spent legs queue_eq ended operation last => cases queue_eq

theorem Flow.leg_open (h : Flow s (d :: t) [d]) : s.buf.recvEnded = false := by
  cases h.stage with
  | live leg legs next more open' operation => exact open'
  | draining front last legs queue_eq more last_more open' operation => exact open'
  | idle legs queue_eq open' operation closed base => cases queue_eq
  | spent legs queue_eq ended operation last => cases queue_eq

theorem Stage.congr {s' : State β ε} (h : Stage s queue) (hlegs : s'.legs = s.legs)
    (hdel : s'.buf.delivered = s.buf.delivered) (hend : s'.buf.recvEnded = s.buf.recvEnded)
    (hop : s'.buf.currentOperation = s.buf.currentOperation) (hcl : s'.buf.closed = s.buf.closed)
    (hbase : s'.buf.nextBase = s.buf.nextBase) (hdone : s'.done = s.done) : Stage s' queue := by
  cases h with
  | live leg legs next more open' operation =>
    exact .live leg (hlegs.trans legs) (by rw [hdel, next]) more (hend.trans open')
      (by rw [hop, hcl, operation])
  | draining front last legs queue_eq more last_more open' operation =>
    exact .draining front last (hlegs.trans legs) queue_eq more last_more (hend.trans open')
      (by rw [hop, hcl, operation])
  | idle legs queue_eq open' operation closed base =>
    exact .idle (hlegs.trans legs) queue_eq (hend.trans open') (hop.trans operation)
      (hcl.trans closed) (by rw [hbase, hdel, base])
  | spent legs queue_eq ended operation last =>
    exact .spent (hlegs.trans legs) queue_eq (hend.trans ended) (hop.trans operation)
      (hdone ▸ last)

theorem Stage.next {s' : State β ε} (h : Stage s (d :: t)) (hm : d.more = true)
    (hlegs : s'.legs = s.legs) (hdel : s'.buf.delivered = s.buf.delivered + 1)
    (hend : s'.buf.recvEnded = s.buf.recvEnded)
    (hop : s'.buf.currentOperation = s.buf.currentOperation) (hcl : s'.buf.closed = s.buf.closed) :
    Stage s' t := by
  cases h with
  | live leg legs next more open' operation =>
    refine .live leg (hlegs.trans legs) ?_ (fun x hx => more x (mem_cons_of_mem d hx))
      (hend.trans open') (by rw [hop, hcl, operation])
    rw [next, hdel, length_cons]
    push_cast
    omega
  | draining front last legs queue_eq more last_more open' operation =>
    cases front with
    | nil =>
      have heq : d = last := (List.cons.inj queue_eq).1
      rw [heq, last_more] at hm
      cases hm
    | cons f front =>
      exact .draining front last (hlegs.trans legs) (List.cons.inj queue_eq).2
        (fun x hx => more x (mem_cons_of_mem f hx)) last_more (hend.trans open')
        (by rw [hop, hcl, operation])
  | idle legs queue_eq open' operation closed base => cases queue_eq
  | spent legs queue_eq ended operation last => cases queue_eq

/-! ## One delivery is handed on -/

/-- The state with other fields of the buffer. -/
def State.put (s : State β ε) (b : Buffer β ε) : State β ε :=
  { s with buf := b }

@[simp]
theorem State.put_buf (s : State β ε) (b : Buffer β ε) : (s.put b).buf = b :=
  rfl

theorem handOff_posts (b : Buffer β ε) (he : d.isEnobufs = false) (hd : d.index = b.delivered) :
    (b.handOff d).1.ready = b.ready ++ [d] ∧ (b.handOff d).1.delivered = b.delivered + 1 ∧
      (b.handOff d).1.heap = b.heap ∧ (b.handOff d).1.closed = b.closed ∧ (b.handOff d).2 = true := by
  unfold Buffer.handOff Buffer.onOrderedDelivery Buffer.finishLeg
  simp only [he, Bool.false_eq_true, if_false]
  split
  · split
    · refine ⟨rfl, ?_, rfl, rfl, trivial⟩
      simp only [Buffer.scheduleResubmit]
      omega
    · refine ⟨rfl, ?_, rfl, rfl, trivial⟩
      simp only [Buffer.scheduleResubmit]
      omega
  · split
    · exact ⟨rfl, rfl, rfl, rfl, trivial⟩
    · exact ⟨rfl, rfl, rfl, rfl, trivial⟩

theorem handOff_more (b : Buffer β ε) (he : d.isEnobufs = false) (hm : d.more = true) :
    (b.handOff d).1.recvEnded = b.recvEnded ∧
      (b.handOff d).1.currentOperation = b.currentOperation := by
  unfold Buffer.handOff Buffer.onOrderedDelivery Buffer.finishLeg
  simp [he, hm]

theorem handOff_data (b : Buffer β ε) (he : d.isEnobufs = false) (hm : d.more = false)
    (hdata : d.hasData = true) (hcl : b.closed = false) :
    (b.handOff d).1.recvEnded = b.recvEnded ∧ (b.handOff d).1.currentOperation = none ∧
      (b.handOff d).1.nextBase = d.index + 1 := by
  unfold Buffer.handOff Buffer.onOrderedDelivery Buffer.finishLeg Buffer.scheduleResubmit
  simp [he, hm, hdata, hcl]

theorem handOff_terminal (b : Buffer β ε) (he : d.isEnobufs = false) (hm : d.more = false)
    (hdata : d.hasData = false) :
    (b.handOff d).1.recvEnded = true ∧ (b.handOff d).1.currentOperation = none := by
  unfold Buffer.handOff Buffer.onOrderedDelivery Buffer.finishLeg
  simp [he, hm, hdata]

theorem handOff_enobufs (b : Buffer β ε) (he : d.isEnobufs = true) (hcl : b.closed = false) :
    (b.handOff d).1 =
      { b with
        nextBase := d.index
        currentOperation := none
        delivered := d.index
        pressurePending := true } := by
  unfold Buffer.handOff Buffer.onOrderedDelivery Buffer.scheduleResubmit
  simp [he, hcl]

theorem done_put_append (s : State β ε) {b : Buffer β ε} (hready : b.ready = s.buf.ready ++ [d]) :
    (s.put b).done = s.done ++ [d] := by
  simp [State.done, State.put, hready]

theorem Flow.post (h : Flow s (d :: t) [d]) (he : d.isEnobufs = false)
    (hclear : (s.buf.handOff d).1.recvEnded = false → d.terminal = false)
    (hstage : Stage (s.put (s.buf.handOff d).1) t) : Flow (s.put (s.buf.handOff d).1) t [] := by
  have hd : d.index = s.buf.delivered := h.numbered.1
  rcases handOff_posts s.buf he hd with ⟨hready, hdel, hheap, -, -⟩
  have hdone := done_put_append s hready
  refine ⟨?_, ?_, ?_, ?_, ?_, ?_, ?_, ?_, hstage⟩
  · rw [hdone, Numbered.append_iff]
    refine ⟨h.order, ?_, trivial⟩
    rw [hd, h.delivered]
    omega
  · rw [hdone, length_append, State.put_buf, hdel, h.delivered]
    push_cast
    rfl
  · rw [State.put_buf, hdel]
    exact h.numbered.2
  · rw [State.put_buf, hheap]
    exact h.pending.cons_inv
  · rw [State.put_buf, hheap]
    exact h.heap
  · have hsent : (s.put (s.buf.handOff d).1).sent = s.sent := rfl
    rw [hsent, h.sent, hdone, append_assoc]
    simp [he]
  · exact fun x hx => h.sound x (mem_cons_of_mem d hx)
  · intro hend x hx
    rw [hdone] at hx
    rcases mem_append.1 hx with hx | hx
    · exact h.clear h.leg_open x hx
    · have heq : x = d := by simpa using hx
      exact heq ▸ hclear hend

theorem Delivery.cancelled_terminal (d : Delivery β ε) : d.cancelled.terminal = true :=
  rfl

theorem Flow.handOff (h : Flow s (d :: t) [d])
    (hcut : s.buf.closed = true → d.more = false → d.terminal = true) :
    Flow (s.put (s.buf.handOff d).1) t [] ∨
      (s.buf.closed = true ∧ ∃ x ∈ (s.buf.handOff d).1.ready, x.terminal = true) := by
  have hd : d.index = s.buf.delivered := h.numbered.1
  have hsound := h.sound d mem_cons_self
  by_cases hm : d.more = true
  · -- the leg goes on
    rcases hsound.of_more hm with ⟨he, -, hterm⟩
    rcases handOff_posts s.buf he hd with ⟨-, hdel, -, hcl, -⟩
    rcases handOff_more s.buf he hm with ⟨hend, hop⟩
    exact .inl (h.post he (fun _ => hterm) (h.stage.next hm rfl hdel hend hop hcl))
  · -- the leg is over
    have hm' : d.more = false := by simpa using hm
    rcases h.last hm' with ⟨rfl, hlegs, hend, hop⟩
    by_cases he : d.isEnobufs = true
    · by_cases hcl : s.buf.closed = true
      · refine .inr ⟨hcl, d.cancelled, ?_, d.cancelled_terminal⟩
        unfold Buffer.handOff Buffer.onOrderedDelivery Buffer.finishLeg
        simp only [he, hcl, if_true]
        split <;> simp
      · have hcl' : s.buf.closed = false := by simpa using hcl
        refine .inl ?_
        rw [handOff_enobufs s.buf he hcl', hd]
        refine ⟨h.order, h.delivered, trivial, h.pending.cons_inv, h.heap, ?_, ?_, h.clear, ?_⟩
        · have hsent := h.sent
          simp only [filter_cons, he, Bool.not_true, Bool.false_eq_true, if_false] at hsent
          exact hsent
        · exact fun x hx => absurd hx not_mem_nil
        · exact .idle hlegs rfl hend rfl hcl' rfl
    · have he' : d.isEnobufs = false := by simpa using he
      rcases handOff_posts s.buf he' hd with ⟨hready, hdel, -, hcl, -⟩
      by_cases hterm : d.terminal = true
      · have hdata : d.hasData = false := by rw [hsound.hasData_eq, hterm]; rfl
        rcases handOff_terminal s.buf he' hm' hdata with ⟨hend', hop'⟩
        refine .inl (h.post he' ?_ (.spent hlegs rfl hend' hop' ?_))
        · intro hopen
          rw [hend'] at hopen
          cases hopen
        · exact ⟨s.done, d, done_put_append s hready, hterm, h.clear hend⟩
      · have hdata : d.hasData = true := by
          rw [hsound.hasData_eq]
          simpa using hterm
        have hcl' : s.buf.closed = false := by
          by_contra hclosed
          exact hterm (hcut (by simpa using hclosed) hm')
        rcases handOff_data s.buf he' hm' hdata hcl' with ⟨hend', hop', hbase⟩
        refine .inl (h.post he' (fun _ => by simpa using hterm) ?_)
        refine .idle hlegs rfl (hend'.trans hend) hop' (hcl.trans hcl') ?_
        rw [State.put_buf, hbase, hdel, hd]

/-! ## The heap is handed on -/

theorem handOff_ready (b : Buffer β ε) (d : Delivery β ε) :
    b.ready <+: (b.handOff d).1.ready ∧ (b.handOff d).1.closed = b.closed ∧
      (b.recvEnded = true → (b.handOff d).1.recvEnded = true) := by
  unfold Buffer.handOff Buffer.onOrderedDelivery Buffer.finishLeg Buffer.scheduleResubmit
  dsimp only
  split
  · split
    · split
      · exact ⟨prefix_append _ _, rfl, fun _ => rfl⟩
      · exact ⟨prefix_append _ _, rfl, fun h => h⟩
    · exact ⟨prefix_rfl, rfl, fun h => h⟩
  · split
    · split
      · exact ⟨prefix_append _ _, rfl, fun _ => rfl⟩
      · exact ⟨prefix_append _ _, rfl, fun h => h⟩
    · split
      · exact ⟨prefix_append _ _, rfl, fun _ => rfl⟩
      · exact ⟨prefix_append _ _, rfl, fun h => h⟩

theorem handOff_heap (b : Buffer β ε) (d : Delivery β ε) : (b.handOff d).1.heap = b.heap := by
  unfold Buffer.handOff Buffer.onOrderedDelivery Buffer.finishLeg Buffer.scheduleResubmit
  dsimp only
  split
  · split
    · split <;> rfl
    · rfl
  · split
    · split <;> rfl
    · split <;> rfl

theorem drain_ready (fuel : Nat) (b : Buffer β ε) :
    b.ready <+: (b.drain fuel).1.ready ∧ (b.drain fuel).1.closed = b.closed ∧
      (b.recvEnded = true → (b.drain fuel).1.recvEnded = true) := by
  induction fuel generalizing b with
  | zero => exact ⟨prefix_rfl, rfl, fun h => h⟩
  | succ fuel ih =>
    unfold Buffer.drain
    split
    · exact ⟨prefix_rfl, rfl, fun h => h⟩
    · split
      · split
        · exact ⟨prefix_rfl, rfl, fun h => h⟩
        · rename_i pending rest _
          have hone := handOff_ready ({ b with heap := rest } : Buffer β ε) pending
          have hall := ih (({ b with heap := rest } : Buffer β ε).handOff pending).1
          exact ⟨hone.1.trans hall.1, hall.2.1.trans hone.2.1, fun h => hall.2.2 (hone.2.2 h)⟩
      · exact ⟨prefix_rfl, rfl, fun h => h⟩

theorem deliver_ready (b : Buffer β ε) (d : Delivery β ε) :
    b.ready <+: (b.deliver d).1.ready ∧ (b.deliver d).1.closed = b.closed ∧
      (b.recvEnded = true → (b.deliver d).1.recvEnded = true) := by
  unfold Buffer.deliver
  split
  · have hone := handOff_ready b d
    have hall := drain_ready (b.handOff d).1.heap.size (b.handOff d).1
    exact ⟨hone.1.trans hall.1, hall.2.1.trans hone.2.1, fun h => hall.2.2 (hone.2.2 h)⟩
  · exact ⟨prefix_rfl, rfl, fun h => h⟩

/-- Nothing in the heap can be handed on. -/
def Ahead (b : Buffer β ε) : Prop :=
  ∀ d ∈ b.heap, d.index ≠ b.delivered

/-- What the loop leaves: the order; or a terminal in a closed buffer. -/
def Settles (s : State β ε) : Prop :=
  (∃ queue, Flow s queue [] ∧ Ahead s.buf) ∨
    (s.buf.closed = true ∧ ∃ x ∈ s.buf.ready, x.terminal = true)

theorem Flow.drain (fuel : Nat) (h : Flow s queue []) (hfuel : s.buf.heap.size ≤ fuel)
    (hcut : s.buf.closed = true → s.flight = [] → ∀ d ∈ queue, d.more = false → d.terminal = true) :
    Settles (s.put (s.buf.drain fuel).1) := by
  induction fuel generalizing s queue with
  | zero =>
    have hnil : s.buf.heap = #[] := Array.eq_empty_of_size_eq_zero (by omega)
    refine .inl ⟨queue, h, ?_⟩
    intro d hd
    have hd' : d ∈ s.buf.heap := hd
    simp [hnil] at hd'
  | succ fuel ih =>
    unfold Buffer.drain
    split
    · rename_i hroot
      refine .inl ⟨queue, h, ?_⟩
      intro d hd
      have hd' : d ∈ s.buf.heap := hd
      have hnil : s.buf.heap = #[] := by
        refine Array.eq_empty_of_size_eq_zero ?_
        have hle := Array.getElem?_eq_none_iff.1 hroot
        omega
      simp [hnil] at hd'
    · rename_i root hroot
      have hpos : 0 < s.buf.heap.size := (Array.getElem?_eq_some_iff.1 hroot).1
      have hroot' : s.buf.heap[0] = root := (Array.getElem?_eq_some_iff.1 hroot).2
      split
      · rename_i hindex
        split
        · rename_i hpop
          have hnil := Heapq.heappop_eq_none_iff.1 hpop
          simp [hnil] at hpos
        · rename_i pending rest hpop
          rcases Heapq.heappop_spec h.heap hpop with ⟨hord, hperm, hleast⟩
          -- the root has the least index, and so has what is popped
          have hmem : pending ∈ s.buf.heap := hperm.mem_iff.1 (by simp)
          have hle : pending.index ≤ root.index :=
            hroot' ▸ hleast _ (Array.getElem_mem hpos)
          have hpend : (pending :: (s.flight ++ rest.toList)).Perm queue := by
            refine List.Perm.trans ?_ h.pending
            have hlist : (rest.toList ++ [pending]).Perm s.buf.heap.toList := by
              simpa using hperm.toList
            refine List.Perm.trans ?_ (List.Perm.append_left s.flight hlist)
            rw [← append_assoc]
            exact (perm_append_singleton pending (s.flight ++ rest.toList)).symm
          have hmemq : pending ∈ queue := hpend.subset mem_cons_self
          have hge := (h.numbered.bounds hmemq).1
          have hidx : pending.index = s.buf.delivered := by omega
          rcases h.numbered.perm_tail hpend hidx with ⟨t, rfl, -⟩
          have hflow : Flow (s.put { s.buf with heap := rest }) (pending :: t) [pending] :=
            ⟨h.order, h.delivered, h.numbered, hpend, hord, h.sent, h.sound, h.clear,
              h.stage.congr rfl rfl rfl rfl rfl rfl rfl⟩
          have hone := handOff_ready ({ s.buf with heap := rest } : Buffer β ε) pending
          -- the end of a leg is handed on when everything has arrived
          have hcut' : s.buf.closed = true → pending.more = false → pending.terminal = true := by
            intro hcl hm
            have hempty : s.flight ++ rest.toList = [] := by
              rcases (hflow.last hm).1 with rfl
              exact perm_nil.1 hpend.cons_inv
            exact hcut hcl (append_eq_nil_iff.1 hempty).1 pending mem_cons_self hm
          rcases hflow.handOff hcut' with hnext | ⟨hcl, x, hx, hterm⟩
          · have hsize : (({ s.buf with heap := rest } : Buffer β ε).handOff pending).1.heap.size ≤
                fuel := by
              have hheap : (({ s.buf with heap := rest } : Buffer β ε).handOff pending).1.heap =
                  rest := handOff_heap _ _
              have hlen := hperm.size_eq
              rw [Array.size_push] at hlen
              rw [hheap]
              omega
            exact ih hnext hsize (fun hcl hfly d hd => hcut (hone.2.1 ▸ hcl) hfly d
              (mem_cons_of_mem pending hd))
          · have hall := drain_ready fuel (({ s.buf with heap := rest } : Buffer β ε).handOff pending).1
            refine .inr ⟨hall.2.1.trans (hone.2.1.trans hcl), x, hall.1.subset hx, hterm⟩
      · rename_i hindex
        refine .inl ⟨queue, h, ?_⟩
        intro d hd heq
        -- the root would have the least index
        have hd' : d ∈ s.buf.heap := hd
        rcases Array.getElem_of_mem hd' with ⟨i, hi, hget⟩
        have hle := h.heap.root_le hpos i hi
        have hrootq : root ∈ queue := by
          refine h.pending.subset ?_
          simp only [nil_append, mem_append]
          refine .inr ?_
          rw [← hroot']
          exact Array.mem_toList_iff.2 (Array.getElem_mem hpos)
        have hge := (h.numbered.bounds hrootq).1
        rw [hget, hroot', heq] at hle
        have hle' : root.index ≤ s.buf.delivered := hle
        omega

theorem Flow.deliver (h : Flow s queue [d]) (hahead : Ahead s.buf)
    (hcut : s.buf.closed = true → s.flight = [] → ∀ x ∈ queue, x.more = false → x.terminal = true) :
    Settles (s.put (s.buf.deliver d).1) := by
  unfold Buffer.deliver
  split
  · rename_i hd
    rcases h.head hd with ⟨t, rfl, hpend⟩
    have hcut' : s.buf.closed = true → d.more = false → d.terminal = true := by
      intro hcl hm
      rcases (h.last hm).1 with rfl
      have hempty := perm_nil.1 hpend
      exact hcut hcl (append_eq_nil_iff.1 hempty).1 d mem_cons_self hm
    have hone := handOff_ready s.buf d
    rcases h.handOff hcut' with hnext | ⟨hcl, x, hx, hterm⟩
    · exact hnext.drain _ (le_refl _) (fun hcl hfly x hx => hcut (hone.2.1 ▸ hcl) hfly x
        (mem_cons_of_mem d hx))
    · have hall := drain_ready (s.buf.handOff d).1.heap.size (s.buf.handOff d).1
      exact .inr ⟨hall.2.1.trans (hone.2.1.trans hcl), x, hall.1.subset hx, hterm⟩
  · rename_i hd
    -- the delivery waits in the heap
    have hperm : (Heapq.heappush Delivery.index s.buf.heap d).toList.Perm (s.buf.heap.toList ++ [d]) := by
      simpa using (Heapq.heappush_perm Delivery.index s.buf.heap d).toList
    refine .inl ⟨queue, ⟨h.order, h.delivered, h.numbered, ?_, Heapq.heappush_ordered h.heap d,
      h.sent, h.sound, h.clear, h.stage.congr rfl rfl rfl rfl rfl rfl rfl⟩, ?_⟩
    · refine List.Perm.trans (List.Perm.append_left s.flight hperm) ?_
      rw [← append_assoc]
      exact (perm_append_singleton d _).trans h.pending
    · intro x hx
      have hmem : x ∈ s.buf.heap.toList ++ [d] := hperm.subset (Array.mem_toList_iff.2 hx)
      rcases mem_append.1 hmem with hmem | hmem
      · exact hahead x (Array.mem_toList_iff.1 hmem)
      · have heq : x = d := by simpa using hmem
        exact heq ▸ hd

end Rules

end Pytealet.Io.RecvIter
