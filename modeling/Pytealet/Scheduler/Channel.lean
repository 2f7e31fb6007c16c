import Pytealet.Lib.Transition
import Mathlib.Data.List.Nodup
import Mathlib.Logic.Function.Basic
import Mathlib.Algebra.Order.Group.Unbundled.Int

/-!
# Channel — the rendezvous channels of `scheduler.py`

A channel has one deque of waiters and a signed balance: senders wait while the balance is positive,
receivers while it is negative.  A waiter is a tealet or the `_PacketEvent` of an async call, and
carries the packet of its wait in its slot `tempval`.  A tealet has a single slot, whichever channel
it uses, so the state below has all channels and all waiters at once.

A partner that finds a waiter takes it out of the deque, moves the packet and wakes it.  With a
`preference` the woken tealet runs at once, inside the call of its partner, and the partner is made
runnable; otherwise the woken one runs later.  A tealet of another scheduler is made runnable by a
callback that waits in the queue of that scheduler.  Nothing takes the callback back: when the
tealet has been thrown out of its call before, the callback finds it in another one.
-/

namespace Pytealet.Scheduler.Channel

open Lib Lib.Transition Function List Option

/-! ## Data -/

/-- The two sides of a channel. -/
inductive Dir
  | send
  | receive
  deriving DecidableEq, Repr

/-- What a waiter of this side adds to the balance. -/
def Dir.sign : Dir → Int
  | .send => 1
  | .receive => -1

theorem Dir.send_sign_mul_pos {b : Int} (hb : 0 < b) : 0 < Dir.send.sign * b := by
  simpa [Dir.sign] using hb

theorem Dir.receive_sign_mul_pos {b : Int} (hb : b < 0) : 0 < Dir.receive.sign * b := by
  simpa [Dir.sign] using hb

/-- A packet `(is_exc, payload)`. -/
structure Packet (β : Type*) where
  isExc : Bool
  payload : β
  deriving DecidableEq, Repr

/-- The triple `operation_result` of an exception that leaves a call. -/
structure OperationResult (β : Type*) where
  success : Bool
  value : Option β
  exception : Option β
  deriving DecidableEq, Repr

/-- One channel; `balance` is `_balance`. -/
structure Chan (τ : Type*) where
  waiters : List τ
  balance : Int
  preference : Int
  deriving DecidableEq, Repr

/-- Where a party stands in its call.  `parked` is in the deque of the channel; `woken` has been
woken, by a partner that took it out of the deque or by a stale callback, and has not run yet;
`gaveWay` is inside the `waiter.run()` of its own `send` or `receive`, the latter with the packet
that it has taken. -/
inductive Status (γ β : Type*)
  | idle
  | parked (c : γ) (d : Dir)
  | woken (c : γ) (d : Dir)
  | gaveWay (taken : Option (Packet β))
  deriving DecidableEq, Repr

/-- A wake makes a parked party runnable, and leaves any other where it stands. -/
def Status.awake {γ β : Type*} : Status γ β → Status γ β
  | .parked c d => .woken c d
  | st => st

@[simp]
theorem Status.awake_parked {γ β : Type*} (c : γ) (d : Dir) :
    (parked c d : Status γ β).awake = .woken c d :=
  rfl

theorem Status.awake_of_not_parked {γ β : Type*} {st : Status γ β} (h : ∀ c d, st ≠ .parked c d) :
    st.awake = st := by
  cases st with
  | parked c d => exact absurd rfl (h c d)
  | _ => rfl

/-- `queued t` counts the callbacks that are to make `t` runnable. -/
structure State (γ τ β : Type*) where
  chan : γ → Chan τ
  tempval : τ → Option (Packet β)
  status : τ → Status γ β
  queued : τ → Nat

variable {γ τ β : Type*}

/-- Fresh channels with the given preferences. -/
def init (preference : γ → Int) : State γ τ β where
  chan := fun c => { waiters := [], balance := 0, preference := preference c }
  tempval := fun _ => none
  status := fun _ => .idle
  queued := fun _ => 0

/-- The waiters: which of them are tealets (the others are `_PacketEvent`s), and the scheduler to
which each belongs. -/
structure Parties (τ : Type*) where
  isTealet : τ → Bool
  scheduler : τ → Nat

/-- What a call reports: `send` returns, `receive` returns or raises the payload of a packet, a call
ends with the exception thrown into it, or an assertion of the channel fails. -/
inductive Outcome (τ β : Type*)
  | sent (t : τ)
  | received (t : τ) (p : Packet β)
  | thrown (t : τ) (r : OperationResult β)
  | assertion (t : τ)
  deriving DecidableEq, Repr

/-! ## Waiter bookkeeping -/

variable [DecidableEq γ] [DecidableEq τ]

/-- A party joins the deque of `c` with `slot` in its `tempval`. -/
def link (s : State γ τ β) (c : γ) (d : Dir) (t : τ) (slot : Option (Packet β)) : State γ τ β :=
  { s with
    chan := update s.chan c
      { s.chan c with
        waiters := (s.chan c).waiters ++ [t]
        balance := (s.chan c).balance + d.sign }
    tempval := update s.tempval t slot
    status := update s.status t (.parked c d) }

def linkSender (s : State γ τ β) (c : γ) (t : τ) (packet : Packet β) : State γ τ β :=
  link s c .send t (some packet)

def linkReceiver (s : State γ τ β) (c : γ) (t : τ) : State γ τ β :=
  link s c .receive t none

/-- A partner takes the first waiter `t` out of the deque of `c`, leaving `rest`, and leaves `slot`
in its `tempval`. -/
def popleft (s : State γ τ β) (c : γ) (d : Dir) (t : τ) (rest : List τ)
    (slot : Option (Packet β)) : State γ τ β :=
  { s with
    chan := update s.chan c
      { s.chan c with
        waiters := rest
        balance := (s.chan c).balance - d.sign }
    tempval := update s.tempval t slot
    status := update s.status t (s.status t).awake }

/-- `_unlink_waiter` on a channel. -/
def Chan.unlinkWaiter (ch : Chan τ) (t : τ) : Chan τ :=
  if t ∈ ch.waiters then
    { ch with
      waiters := ch.waiters.erase t
      -- the balance moves one step towards zero
      balance :=
        if 0 < ch.balance then
          ch.balance - 1
        else if ch.balance < 0 then
          ch.balance + 1
        else
          ch.balance }
  else
    ch

def unlinkWaiter (s : State γ τ β) (c : γ) (t : τ) : State γ τ β :=
  { s with chan := update s.chan c ((s.chan c).unlinkWaiter t) }

/-- The call of `t` is over. -/
def finish (s : State γ τ β) (t : τ) : State γ τ β :=
  { s with status := update s.status t .idle }

def popTempval (s : State γ τ β) (t : τ) : State γ τ β :=
  { s with tempval := update s.tempval t none }

/-- `_set_received_result`. -/
def receivedResult (p : Packet β) : OperationResult β :=
  if p.isExc then
    { success := true, value := none, exception := some p.payload }
  else
    { success := true, value := some p.payload, exception := none }

/-- The `operation_result` that `_abort_wait` sets when it found `packet` in the slot. -/
def abortResult (d : Dir) : Option (Packet β) → OperationResult β
  | none => { success := d = .send, value := none, exception := none }
  | some p =>
    match d with
    | .send => { success := false, value := none, exception := none }
    | .receive => receivedResult p

/-- `_abort_wait`, and the exception leaves the call. -/
def abortWait (s : State γ τ β) (c : γ) (d : Dir) (t : τ) :
    List (Outcome τ β) × State γ τ β :=
  ([.thrown t (abortResult d (s.tempval t))], finish (unlinkWaiter (popTempval s t) c t) t)

/-! ## Operations -/

/-- A party that is not parked any more gets its turn. -/
def resume (s : State γ τ β) (t : τ) : List (Outcome τ β) × State γ τ β :=
  match s.status t with
  | .idle => ([], s)
  | .parked _ .send => ([.sent t], finish s t)
  | .woken _ .send => ([.sent t], finish s t)
  -- `assert packet is not None` after the switch
  | .parked _ .receive | .woken _ .receive =>
    match s.tempval t with
    | none => ([.assertion t], finish (popTempval s t) t)
    | some p => ([.received t p], finish (popTempval s t) t)
  | .gaveWay none => ([.sent t], finish s t)
  | .gaveWay (some p) => ([.received t p], finish s t)

/-- `_wake_sync` may run the waiter at once: it is a tealet of the running scheduler. -/
def Parties.CanRun (w : Parties τ) (t u : τ) : Prop :=
  w.isTealet u = true ∧ w.scheduler t = w.scheduler u

instance (w : Parties τ) (t u : τ) : Decidable (w.CanRun t u) :=
  inferInstanceAs (Decidable (_ ∧ _))

/-- A callback that is to make `u` runnable joins the queue of its scheduler. -/
def post (s : State γ τ β) (u : τ) : State γ τ β :=
  { s with queued := update s.queued u (s.queued u + 1) }

/-- `_run_on_scheduler`, for the wake of `u` by `t`. -/
def wakeLater (w : Parties τ) (s : State γ τ β) (t u : τ) : State γ τ β :=
  if w.isTealet u = true ∧ w.scheduler t ≠ w.scheduler u then post s u else s

/-- A queued callback makes `t` runnable, whatever `t` waits for by now. -/
def wake (s : State γ τ β) (t : τ) : State γ τ β :=
  { s with
    queued := update s.queued t (s.queued t - 1)
    status := update s.status t (s.status t).awake }

/-- `_send_packet`, and `async_send` when `async` is set. -/
def sendPacket (w : Parties τ) (s : State γ τ β) (async : Bool) (t : τ) (c : γ)
    (packet : Packet β) : List (Outcome τ β) × State γ τ β :=
  if (s.chan c).balance < 0 then
    match (s.chan c).waiters with
    -- `popleft` of an empty deque
    | [] => ([.assertion t], s)
    | receiver :: rest =>
      let s₁ := popleft s c .receive receiver rest (some packet)
      -- preference -1: the receiver runs before `send` returns
      if async = false ∧ (s.chan c).preference < 0 ∧ w.CanRun t receiver then
        resume { s₁ with status := update s₁.status t (.gaveWay none) } receiver
      else
        ([.sent t], wakeLater w s₁ t receiver)
  else
    ([], linkSender s c t packet)

/-- `receive`, and `async_receive` when `async` is set. -/
def receive (w : Parties τ) (s : State γ τ β) (async : Bool) (t : τ) (c : γ) :
    List (Outcome τ β) × State γ τ β :=
  if 0 < (s.chan c).balance then
    match (s.chan c).waiters with
    | [] => ([.assertion t], s)
    | sender :: rest =>
      let s₁ := popleft s c .send sender rest none
      match s.tempval sender with
      -- the sender must have left its packet
      | none => ([.assertion t], { s₁ with status := s.status })
      | some packet =>
        -- preference 1: the sender runs before `receive` returns
        if async = false ∧ 0 < (s.chan c).preference ∧ w.CanRun t sender then
          resume { s₁ with status := update s₁.status t (.gaveWay (some packet)) } sender
        else
          ([.received t packet], wakeLater w s₁ t sender)
  else
    ([], linkReceiver s c t)

/-- An exception is thrown into the call in which `t` is suspended.  `Task.throw` unlinks a parked
tealet before it switches to it. -/
def throw (w : Parties τ) (s : State γ τ β) (t : τ) : Option (List (Outcome τ β) × State γ τ β) :=
  match s.status t with
  | .idle => none
  | .parked c d =>
    -- a `_PacketEvent` has no link of its own, so only `_abort_wait` unlinks it
    if w.isTealet t then
      some (abortWait (unlinkWaiter s c t) c d t)
    else
      some (abortWait s c d t)
  | .woken c d => some (abortWait s c d t)
  | .gaveWay none =>
    some ([.thrown t { success := true, value := none, exception := none }], finish s t)
  | .gaveWay (some p) => some ([.thrown t (receivedResult p)], finish s t)

/-! ## Runs -/

/-- What can happen next.  A send carries a value or, from `send_exception`, an exception.  `steal`
resumes a parked tealet out of its deque: a `Task.run`, or the exit of a task into which it has
thrown an exception.  `post` is `Event.set` for a tealet that waits there, and `wake` a queued
callback that runs. -/
inductive Act (γ τ β : Type*)
  | send (async : Bool) (t : τ) (c : γ) (packet : Packet β)
  | receive (async : Bool) (t : τ) (c : γ)
  | turn (t : τ)
  | throw (t : τ)
  | steal (t : τ)
  | post (t : τ)
  | wake (t : τ)
  | setPreference (c : γ) (value : Int)
  deriving DecidableEq, Repr

def step (w : Parties τ) (s : State γ τ β) : Act γ τ β → Option (List (Outcome τ β) × State γ τ β)
  | .send async t c packet =>
    match s.status t with
    | .idle => some (sendPacket w s async t c packet)
    | _ => none
  | .receive async t c =>
    match s.status t with
    | .idle => some (receive w s async t c)
    | _ => none
  | .turn t =>
    match s.status t with
    | .woken _ _ | .gaveWay _ => some (resume s t)
    | _ => none
  | .throw t => throw w s t
  | .steal t =>
    match s.status t with
    | .parked c _ =>
      if w.isTealet t then some (resume (unlinkWaiter s c t) t) else none
    | _ => none
  | .post t =>
    match s.status t with
    | .idle => some ([], post s t)
    | _ => none
  | .wake t => if 0 < s.queued t then some ([], wake s t) else none
  | .setPreference c value =>
    -- any other value is a `ValueError`
    if value = -1 ∨ value = 0 ∨ value = 1 then
      some ([], { s with chan := update s.chan c { s.chan c with preference := value } })
    else
      some ([], s)

/-! ## The representation of one channel -/

/-- The waiters of `c` are the parties parked at it, once each and all on one side, and the balance
counts them with the sign of that side. -/
structure Rep (s : State γ τ β) (c : γ) : Prop where
  nodup : (s.chan c).waiters.Nodup
  parked : ∀ t d, s.status t = .parked c d → t ∈ (s.chan c).waiters
  side : ∃ d : Dir, (s.chan c).balance = d.sign * (s.chan c).waiters.length ∧
    ∀ t ∈ (s.chan c).waiters, s.status t = .parked c d

/-- What the slot of a party holds: a parked sender still has its packet and a woken one has not; a
parked receiver has none yet and a woken one has. -/
def Slot (s : State γ τ β) (t : τ) : Prop :=
  match s.status t with
  | .parked _ .send => (s.tempval t).isSome
  | .parked _ .receive => s.tempval t = none
  | .woken _ .send => s.tempval t = none
  | .woken _ .receive => (s.tempval t).isSome
  | _ => True

structure Inv (s : State γ τ β) : Prop where
  rep : ∀ c, Rep s c
  slot : ∀ t, Slot s t

omit [DecidableEq γ] [DecidableEq τ] in
theorem Inv.init (preference : γ → Int) : Inv (init preference : State γ τ β) where
  rep := by
    intro c
    refine ⟨nodup_nil, ?_, .send, by simp [Channel.init], by simp [Channel.init]⟩
    intro t d h
    simp [Channel.init] at h
  slot := fun _ => trivial

variable {w : Parties τ} {s s' : State γ τ β} {t : τ} {c : γ} {d : Dir}

omit [DecidableEq γ] [DecidableEq τ] in
theorem Rep.parked_of_sign (h : Rep s c)
    (hd : 0 < d.sign * (s.chan c).balance) : ∀ t ∈ (s.chan c).waiters, s.status t = .parked c d := by
  rcases h.side with ⟨d', hb, hall⟩
  -- a side with a waiter and the other sign cannot both hold
  have hdd : d' = d := by
    cases d <;> cases d' <;> simp [Dir.sign] at hd hb ⊢ <;> omega
  exact hdd ▸ hall

omit [DecidableEq γ] [DecidableEq τ] in
theorem Rep.balance_of_sign (h : Rep s c) (hd : 0 ≤ d.sign * (s.chan c).balance) :
    (s.chan c).balance = d.sign * (s.chan c).waiters.length := by
  rcases h.side with ⟨d', hb, -⟩
  cases d <;> cases d' <;> simp [Dir.sign] at hd hb ⊢ <;> omega

omit [DecidableEq γ] [DecidableEq τ] in
theorem Rep.parked_of_sign_nonneg (h : Rep s c)
    (hd : 0 ≤ d.sign * (s.chan c).balance) : ∀ t ∈ (s.chan c).waiters, s.status t = .parked c d := by
  intro t ht
  have hlen := length_pos_of_mem ht
  refine h.parked_of_sign ?_ t ht
  rw [h.balance_of_sign hd]
  cases d <;> simp [Dir.sign] <;> omega

omit [DecidableEq γ] [DecidableEq τ] in
theorem Rep.congr (h : Rep s c) (hc : s'.chan c = s.chan c)
    (hs : ∀ t d, s'.status t = .parked c d ↔ s.status t = .parked c d) : Rep s' c := by
  rcases h.side with ⟨d, hb, hall⟩
  refine ⟨hc ▸ h.nodup, ?_, d, by rw [hc, hb], ?_⟩
  · intro t d' ht
    exact hc ▸ h.parked t d' ((hs t d').1 ht)
  · intro t ht
    exact (hs t d).2 (hall t (hc ▸ ht))

omit [DecidableEq γ] [DecidableEq τ] in
theorem Slot.congr (h : Slot s t) (hs : s'.status t = s.status t)
    (ht : s'.tempval t = s.tempval t) : Slot s' t := by
  unfold Slot at h ⊢
  rw [hs, ht]
  exact h

/-! ## Each operation keeps the representation -/

theorem Inv.link {slot : Option (Packet β)} (h : Inv s) (ht : ∀ c' d', s.status t ≠ .parked c' d')
    (hd : 0 ≤ d.sign * (s.chan c).balance) (hslot : slot.isSome = true ↔ d = .send) :
    Inv (link s c d t slot) := by
  have hnot : t ∉ (s.chan c).waiters := by
    intro hmem
    rcases (h.rep c).side with ⟨d', -, hall⟩
    exact ht c d' (hall t hmem)
  refine ⟨?_, ?_⟩
  · intro c'
    by_cases hc : c' = c
    · subst hc
      -- nobody waits on the other side, so `d` is the side of the channel now
      refine ⟨?_, ?_, d, ?_, ?_⟩
      · simpa [Channel.link] using nodup_append_comm.1 (nodup_cons.2 ⟨hnot, (h.rep c').nodup⟩)
      · intro u d' hu
        by_cases hut : u = t
        · simp [Channel.link, hut]
        · have hmem := (h.rep c').parked u d' (by simpa [Channel.link, hut] using hu)
          simp [Channel.link, hmem]
      · have hb := (h.rep c').balance_of_sign hd
        simp [Channel.link, hb, Int.mul_add]
      · intro u hu
        by_cases hut : u = t
        · simp [Channel.link, hut]
        · have hmem : u ∈ (s.chan c').waiters := by simpa [Channel.link, hut] using hu
          simpa [Channel.link, hut] using (h.rep c').parked_of_sign_nonneg hd u hmem
    -- another channel
    · refine (h.rep c').congr (by simp [Channel.link, hc]) ?_
      intro u d'
      by_cases hut : u = t
      · simp [Channel.link, hut, ht, Ne.symm hc]
      · simp [Channel.link, hut]
  · intro u
    by_cases hut : u = t
    · subst hut
      cases d with
      | send =>
        simpa [Slot, Channel.link] using hslot
      | receive =>
        simpa [Slot, Channel.link] using hslot
    · exact (h.slot u).congr (by simp [Channel.link, hut]) (by simp [Channel.link, hut])

theorem Inv.popleft {rest : List τ}
    {slot : Option (Packet β)} (h : Inv s) (hw : (s.chan c).waiters = t :: rest)
    (hd : 0 < d.sign * (s.chan c).balance) (hslot : slot.isSome = true ↔ d = .receive) :
    Inv (popleft s c d t rest slot) := by
  have hnodup : (t :: rest).Nodup := hw ▸ (h.rep c).nodup
  have hside : ∀ u ∈ t :: rest, s.status u = .parked c d := by
    intro u hu
    exact (h.rep c).parked_of_sign hd u (hw ▸ hu)
  have hst : s.status t = .parked c d := hside t mem_cons_self
  refine ⟨?_, ?_⟩
  · intro c'
    by_cases hc : c' = c
    · subst hc
      -- the side stays, with one waiter fewer
      refine ⟨?_, ?_, d, ?_, ?_⟩
      · simpa [Channel.popleft] using (nodup_cons.1 hnodup).2
      · intro u d' hu
        by_cases hut : u = t
        · simp [Channel.popleft, hut, hst] at hu
        · have hmem := (h.rep c').parked u d' (by simpa [Channel.popleft, hut] using hu)
          rw [hw] at hmem
          simpa [Channel.popleft, hut] using hmem
      · have hb := (h.rep c').balance_of_sign hd.le
        rw [hw] at hb
        simp [Channel.popleft, hb, Int.mul_add]
      · intro u hu
        have hmem : u ∈ rest := by simpa [Channel.popleft] using hu
        have hut : u ≠ t := fun heq => (nodup_cons.1 hnodup).1 (heq ▸ hmem)
        simpa [Channel.popleft, hut] using hside u (mem_cons_of_mem t hmem)
    · refine (h.rep c').congr (by simp [Channel.popleft, hc]) ?_
      intro u d'
      by_cases hut : u = t
      · simp [Channel.popleft, hut, hst, Ne.symm hc]
      · simp [Channel.popleft, hut]
  · intro u
    by_cases hut : u = t
    · subst hut
      cases d with
      | send =>
        simpa [Slot, Channel.popleft, hst] using hslot
      | receive =>
        simpa [Slot, Channel.popleft, hst] using hslot
    · exact (h.slot u).congr (by simp [Channel.popleft, hut]) (by simp [Channel.popleft, hut])

theorem unlinkWaiter_balance {ch : Chan τ} (ht : t ∈ ch.waiters)
    (hb : ch.balance = d.sign * ch.waiters.length) :
    (ch.unlinkWaiter t).waiters = ch.waiters.erase t ∧
      (ch.unlinkWaiter t).balance = d.sign * (ch.waiters.erase t).length := by
  have hpos := length_pos_of_mem ht
  have hlen := length_erase_of_mem ht
  unfold Chan.unlinkWaiter
  rw [if_pos ht]
  refine ⟨rfl, ?_⟩
  -- `_unlink_waiter` finds the side by the sign of the balance
  cases d with
  | send =>
    have hlt : 0 < ch.balance := by
      simp only [Dir.sign] at hb
      omega
    simp only [Dir.sign, hlen, hlt, if_true] at hb ⊢
    omega
  | receive =>
    have hlt : ch.balance < 0 := by
      simp only [Dir.sign] at hb
      omega
    have hle : ¬ 0 < ch.balance := by omega
    simp only [Dir.sign, hlen, hle, hlt, if_true, if_false] at hb ⊢
    omega

theorem Inv.leave (h : Inv s)
    (ht : s.status t = .parked c d) : Inv (finish (unlinkWaiter s c t) t) := by
  have hmem : t ∈ (s.chan c).waiters := (h.rep c).parked t d ht
  rcases (h.rep c).side with ⟨d', hb, hall⟩
  rcases unlinkWaiter_balance hmem hb with ⟨hwaiters, hbalance⟩
  refine ⟨?_, ?_⟩
  · intro c'
    by_cases hc : c' = c
    · subst hc
      refine ⟨?_, ?_, d', ?_, ?_⟩
      · simpa [finish, unlinkWaiter, hwaiters] using (h.rep c').nodup.erase t
      · intro u e hu
        by_cases hut : u = t
        · simp [finish, unlinkWaiter, hut] at hu
        · have hu' := (h.rep c').parked u e (by simpa [finish, unlinkWaiter, hut] using hu)
          simpa [finish, unlinkWaiter, hwaiters, mem_erase_of_ne hut] using hu'
      · simp [finish, unlinkWaiter, hbalance, hwaiters]
      · intro u hu
        have hu' : u ≠ t ∧ u ∈ (s.chan c').waiters := by
          simpa [finish, unlinkWaiter, hwaiters, (h.rep c').nodup.mem_erase_iff] using hu
        simpa [finish, unlinkWaiter, hu'.1] using hall u hu'.2
    · refine (h.rep c').congr (by simp [finish, unlinkWaiter, hc]) ?_
      intro u e
      by_cases hut : u = t
      · simp [finish, unlinkWaiter, hut, ht, Ne.symm hc]
      · simp [finish, unlinkWaiter, hut]
  · intro u
    by_cases hut : u = t
    · simp [Slot, finish, hut]
    · exact (h.slot u).congr (by simp [finish, unlinkWaiter, hut]) (by simp [finish, unlinkWaiter])

omit [DecidableEq γ] in
theorem Inv.move (st : Status γ β) (slot : Option (Packet β)) (h : Inv s)
    (ht : ∀ c d, s.status t ≠ .parked c d) (hst : st = .idle ∨ ∃ p, st = .gaveWay p) :
    Inv { s with
      status := update s.status t st
      tempval := update s.tempval t slot } := by
  have hnot : ∀ c d, st ≠ .parked c d := by
    intro c d heq
    rcases hst with rfl | ⟨p, rfl⟩ <;> cases heq
  refine ⟨?_, ?_⟩
  · intro c
    refine (h.rep c).congr rfl ?_
    intro u d
    by_cases hut : u = t
    · simp [hut, ht, hnot]
    · simp [hut]
  · intro u
    by_cases hut : u = t
    · subst hut
      rcases hst with rfl | ⟨p, rfl⟩ <;> simp [Slot]
    · exact (h.slot u).congr (by simp [hut]) (by simp [hut])

omit [DecidableEq γ] in
theorem Inv.finish (h : Inv s) (ht : ∀ c d, s.status t ≠ .parked c d) : Inv (finish s t) := by
  simpa [Channel.finish] using h.move .idle (s.tempval t) ht (Or.inl rfl)

omit [DecidableEq γ] in
theorem Inv.finish_popTempval (h : Inv s)
    (ht : ∀ c d, s.status t ≠ .parked c d) : Inv (Channel.finish (popTempval s t) t) :=
  h.move .idle none ht (Or.inl rfl)

omit [DecidableEq γ] in
theorem Inv.resume (h : Inv s) (ht : ∀ c d, s.status t ≠ .parked c d) : Inv (resume s t).2 := by
  unfold Channel.resume
  cases hst : s.status t with
  | idle => exact h
  | parked c d => exact absurd hst (ht c d)
  | woken c d =>
    cases d with
    | send => exact h.finish ht
    | receive =>
      cases htv : s.tempval t with
      | none =>
        simpa only [htv] using h.finish_popTempval ht
      | some p =>
        simpa only [htv] using h.finish_popTempval ht
  | gaveWay taken => cases taken <;> exact h.finish ht

omit [DecidableEq γ] in
theorem Inv.popTempval (h : Inv s) (ht : s.status t = .idle) : Inv (popTempval s t) := by
  have hmove := h.move (t := t) .idle none (by simp [ht]) (Or.inl rfl)
  have hstatus : update s.status t .idle = s.status := by
    rw [← ht, update_eq_self]
  rwa [hstatus] at hmove

theorem unlinkWaiter_of_not_mem (ht : t ∉ (s.chan c).waiters) : unlinkWaiter s c t = s := by
  simp [unlinkWaiter, Chan.unlinkWaiter, ht]

theorem Inv.unlinkWaiter_twice (h : Inv s) (ht : s.status t = .parked c d) :
    unlinkWaiter (unlinkWaiter s c t) c t = unlinkWaiter s c t := by
  apply unlinkWaiter_of_not_mem
  have hmem : t ∈ (s.chan c).waiters := (h.rep c).parked t d ht
  simp [unlinkWaiter, Chan.unlinkWaiter, hmem, (h.rep c).nodup.mem_erase_iff]

theorem Inv.abortWait_parked (h : Inv s)
    (ht : s.status t = .parked c d) : Inv (abortWait s c d t).2 :=
  Inv.popTempval (s := Channel.finish (unlinkWaiter s c t) t) (h.leave ht) (by simp [Channel.finish])

/-- A throw keeps the representation, and no assertion fails in it. -/
theorem Inv.throw {o : List (Outcome τ β)} (h : Inv s) (hs : throw w s t = some (o, s')) :
    Inv s' ∧ ∀ u, Outcome.assertion u ∉ o := by
  unfold Channel.throw at hs
  cases hst : s.status t with
  | idle => simp [hst] at hs
  | parked c d =>
    simp only [hst] at hs
    split at hs
    -- a tealet: unlinked twice, which is the same as once
    · have heq : (abortWait (unlinkWaiter s c t) c d t).2 = (abortWait s c d t).2 :=
        congrArg (fun r => Channel.finish (Channel.popTempval r t) t) (h.unlinkWaiter_twice hst)
      rcases Option.some.inj hs with ⟨⟩
      refine ⟨?_, by simp⟩
      change Inv (abortWait (unlinkWaiter s c t) c d t).2
      rw [heq]
      exact h.abortWait_parked hst
    · rcases Option.some.inj hs with ⟨⟩
      exact ⟨h.abortWait_parked hst, by simp⟩
  -- the partner has taken it out of the deque already
  | woken c d =>
    have ht : ∀ c' d', s.status t ≠ .parked c' d' := by simp [hst]
    have hnot : t ∉ (s.chan c).waiters := by
      intro hmem
      rcases (h.rep c).side with ⟨d', -, hall⟩
      exact ht c d' (hall t hmem)
    simp only [hst, abortWait, Option.some.injEq, Prod.mk.injEq] at hs
    rcases hs with ⟨rfl, rfl⟩
    rw [unlinkWaiter_of_not_mem (s := Channel.popTempval s t) hnot]
    exact ⟨h.finish_popTempval ht, by simp⟩
  | gaveWay taken =>
    have ht : ∀ c' d', s.status t ≠ .parked c' d' := by simp [hst]
    cases taken with
    | none =>
      simp only [hst, Option.some.injEq, Prod.mk.injEq] at hs
      rcases hs with ⟨rfl, rfl⟩
      exact ⟨h.finish ht, by simp⟩
    | some p =>
      simp only [hst, Option.some.injEq, Prod.mk.injEq] at hs
      rcases hs with ⟨rfl, rfl⟩
      exact ⟨h.finish ht, by simp⟩

omit [DecidableEq γ] [DecidableEq τ] in
/-- What is in the queues is no concern of the representation. -/
theorem Inv.queued (h : Inv s) (queued : τ → Nat) : Inv { s with queued } where
  rep := fun c => (h.rep c).congr rfl (by simp)
  slot := h.slot

omit [DecidableEq γ] in
theorem Inv.wakeLater (h : Inv s) (u : τ) : Inv (wakeLater w s t u) := by
  unfold Channel.wakeLater
  split
  · exact h.queued _
  · exact h

omit [DecidableEq γ] in
theorem Inv.wake (h : Inv s) (ht : ∀ c d, s.status t ≠ .parked c d) : Inv (wake s t) := by
  unfold Channel.wake
  rw [Status.awake_of_not_parked ht, update_eq_self]
  exact h.queued _

/-- Rendezvous with the matching preference: the partner `u` is taken out of the deque, and the
caller `t`, idle before, gives way to it. -/
theorem Inv.gaveWay {t u : τ} {rest : List τ}
    (slot taken : Option (Packet β)) (h : Inv s) (ht : s.status t = .idle)
    (hw : (s.chan c).waiters = u :: rest) (hd : 0 < d.sign * (s.chan c).balance)
    (hslot : slot.isSome = true ↔ d = .receive) :
    Inv { Channel.popleft s c d u rest slot with
        status := update (Channel.popleft s c d u rest slot).status t (.gaveWay taken) } ∧
      ∀ c' d', update (Channel.popleft s c d u rest slot).status t (.gaveWay taken) u ≠
        .parked c' d' := by
  -- the caller is idle, its partner is parked
  have hpark : s.status u = .parked c d := (h.rep c).parked_of_sign hd u (by simp [hw])
  have hut : u ≠ t := by
    rintro rfl
    simp [ht] at hpark
  have hpop : Inv (Channel.popleft s c d u rest slot) := h.popleft hw hd hslot
  have hgave := hpop.move (t := t) (.gaveWay taken)
    ((Channel.popleft s c d u rest slot).tempval t)
    (by simp [Channel.popleft, hut.symm, ht]) (Or.inr ⟨taken, rfl⟩)
  rw [update_eq_self] at hgave
  exact ⟨hgave, by simp [Channel.popleft, hut, hpark]⟩

omit [DecidableEq γ] [DecidableEq τ] in
theorem Inv.sender_packet {u : τ} {rest : List τ} (h : Inv s)
    (hw : (s.chan c).waiters = u :: rest) (hd : 0 < Dir.send.sign * (s.chan c).balance) :
    ∃ packet, s.tempval u = some packet := by
  have hpark : s.status u = .parked c .send := (h.rep c).parked_of_sign hd u (by simp [hw])
  have hslot : Slot s u := h.slot u
  simp only [Slot, hpark] at hslot
  exact isSome_iff_exists.1 hslot

omit [DecidableEq γ] in
theorem Inv.resume_no_assertion (h : Inv s) (ht : ∀ c d, s.status t ≠ .parked c d) (u : τ) :
    Outcome.assertion u ∉ (Channel.resume s t).1 := by
  have hslot : Slot s t := h.slot t
  unfold Channel.resume
  unfold Slot at hslot
  cases hst : s.status t with
  | idle => simp
  | parked c d => exact absurd hst (ht c d)
  | woken c d =>
    cases d with
    | send => simp
    | receive =>
      simp only [hst] at hslot
      rcases isSome_iff_exists.1 hslot with ⟨p, hp⟩
      simp [hp]
  | gaveWay taken => cases taken <;> simp

omit [DecidableEq γ] [DecidableEq τ] in
theorem Rep.waiters_ne_nil (h : Rep s c) (hb : (s.chan c).balance ≠ 0) :
    (s.chan c).waiters ≠ [] := by
  intro hnil
  rcases h.side with ⟨d, hd, -⟩
  simp [hnil] at hd
  exact hb hd

theorem Inv.sendPacket {async : Bool} {packet : Packet β} (h : Inv s) (ht : s.status t = .idle) :
    Inv (sendPacket w s async t c packet).2 ∧
      ∀ u, Outcome.assertion u ∉ (sendPacket w s async t c packet).1 := by
  unfold Channel.sendPacket
  by_cases hb : (s.chan c).balance < 0
  · rw [if_pos hb]
    cases hw : (s.chan c).waiters with
    | nil => exact absurd hw ((h.rep c).waiters_ne_nil hb.ne)
    | cons u rest =>
      have hd := Dir.receive_sign_mul_pos hb
      dsimp only
      split
      · -- the receiver runs at once, with the packet that it was given
        rcases h.gaveWay (some packet) none ht hw hd (by simp) with ⟨hinv, hu⟩
        exact ⟨hinv.resume hu, hinv.resume_no_assertion hu⟩
      · exact ⟨(h.popleft hw hd (by simp)).wakeLater u, by simp⟩
  · rw [if_neg hb]
    exact ⟨h.link (by simp [ht]) (by simp only [Dir.sign]; omega) (by simp), by simp⟩

theorem Inv.receive {async : Bool} (h : Inv s) (ht : s.status t = .idle) :
    Inv (receive w s async t c).2 ∧ ∀ u, Outcome.assertion u ∉ (receive w s async t c).1 := by
  unfold Channel.receive
  by_cases hb : 0 < (s.chan c).balance
  · rw [if_pos hb]
    cases hw : (s.chan c).waiters with
    | nil => exact absurd hw ((h.rep c).waiters_ne_nil hb.ne')
    | cons u rest =>
      have hd := Dir.send_sign_mul_pos hb
      rcases h.sender_packet hw hd with ⟨packet, hp⟩
      simp only [hp]
      split
      · rcases h.gaveWay none (some packet) ht hw hd (by simp) with ⟨hinv, hu⟩
        exact ⟨hinv.resume hu, hinv.resume_no_assertion hu⟩
      · exact ⟨(h.popleft hw hd (by simp)).wakeLater u, by simp⟩
  · rw [if_neg hb]
    exact ⟨h.link (by simp [ht]) (by simp only [Dir.sign]; omega) (by simp), by simp⟩

theorem Inv.steal (h : Inv s)
    (ht : s.status t = .parked c d) : Inv (Channel.resume (unlinkWaiter s c t) t).2 := by
  have hst : (unlinkWaiter s c t).status t = .parked c d := ht
  have hfinish : Inv (Channel.finish (unlinkWaiter s c t) t) := h.leave ht
  have hpop : Inv (Channel.popTempval (Channel.finish (unlinkWaiter s c t) t) t) :=
    hfinish.popTempval (by simp [Channel.finish])
  unfold Channel.resume
  rw [hst]
  cases d with
  | send => exact hfinish
  | receive =>
    cases htv : (unlinkWaiter s c t).tempval t with
    | none => exact hpop
    | some p => exact hpop

/-- A callback that runs does not find its tealet parked. -/
def NoStaleWake (s : State γ τ β) : Act γ τ β → Prop
  | .wake t => ∀ c d, s.status t ≠ .parked c d
  | _ => True

/-- A step without a stale wake keeps the representation, and no assertion fails in it unless a
parked party is stolen. -/
theorem Inv.step {a : Act γ τ β} {o : List (Outcome τ β)} (h : Inv s) (hg : NoStaleWake s a)
    (hs : step w s a = some (o, s')) :
    Inv s' ∧ ((∀ t, a ≠ .steal t) → ∀ u, Outcome.assertion u ∉ o) := by
  cases a with
  | send async t c packet =>
    cases hst : s.status t with
    | idle =>
      simp only [Channel.step, hst] at hs
      have hsend : Inv (Channel.sendPacket w s async t c packet).2 ∧
          ∀ u, Outcome.assertion u ∉ (Channel.sendPacket w s async t c packet).1 := h.sendPacket hst
      rw [Option.some.inj hs] at hsend
      exact ⟨hsend.1, fun _ => hsend.2⟩
    | _ => simp [Channel.step, hst] at hs
  | receive async t c =>
    cases hst : s.status t with
    | idle =>
      simp only [Channel.step, hst] at hs
      have hreceive : Inv (Channel.receive w s async t c).2 ∧
          ∀ u, Outcome.assertion u ∉ (Channel.receive w s async t c).1 := h.receive hst
      rw [Option.some.inj hs] at hreceive
      exact ⟨hreceive.1, fun _ => hreceive.2⟩
    | _ => simp [Channel.step, hst] at hs
  | turn t =>
    have hturn : ∀ r, (∀ c d, s.status t ≠ .parked c d) → some (Channel.resume s t) = some r →
        Inv r.2 ∧ ∀ u, Outcome.assertion u ∉ r.1 := by
      rintro r ht ⟨⟩
      exact ⟨h.resume ht, h.resume_no_assertion ht⟩
    cases hst : s.status t with
    | woken c d =>
      simp only [Channel.step, hst] at hs
      rcases hturn _ (by simp [hst]) hs with ⟨hinv, ho⟩
      exact ⟨hinv, fun _ => ho⟩
    | gaveWay taken =>
      simp only [Channel.step, hst] at hs
      rcases hturn _ (by simp [hst]) hs with ⟨hinv, ho⟩
      exact ⟨hinv, fun _ => ho⟩
    | _ => simp [Channel.step, hst] at hs
  | throw t => exact ⟨(h.throw hs).1, fun _ => (h.throw hs).2⟩
  | steal t =>
    refine ⟨?_, fun ha => absurd rfl (ha t)⟩
    cases hst : s.status t with
    | parked c d =>
      simp only [Channel.step, hst] at hs
      have hsteal := h.steal hst
      rwa [Option.some.inj (ite_none_right_eq_some.1 hs).2] at hsteal
    | _ => simp [Channel.step, hst] at hs
  | post t =>
    cases hst : s.status t with
    | idle =>
      simp only [Channel.step, hst] at hs
      rcases Option.some.inj hs with ⟨⟩
      exact ⟨h.queued _, by simp⟩
    | _ => simp [Channel.step, hst] at hs
  | wake t =>
    rcases ite_none_right_eq_some.1 hs with ⟨-, ⟨⟩⟩
    exact ⟨h.wake hg, by simp⟩
  | setPreference c value =>
    simp only [Channel.step] at hs
    split at hs
    · cases hs
      refine ⟨⟨?_, h.slot⟩, by simp⟩
      intro c'
      rcases h.rep c' with ⟨hn, hp, d, hb, hall⟩
      by_cases hc : c' = c
      · subst hc
        exact ⟨by simpa using hn, by simpa using hp, d, by simpa using hb, by simpa using hall⟩
      · exact (h.rep c').congr (by simp [hc]) (by simp)
    · cases hs
      exact ⟨h, by simp⟩

/-! ## Every run -/

/-- The balance counts the parked waiters; they are all senders with their packet or all receivers
without one. -/
structure Represented (s : State γ τ β) (c : γ) : Prop where
  balance : (s.chan c).balance.natAbs = (s.chan c).waiters.length
  parked : ∀ t, t ∈ (s.chan c).waiters ↔ ∃ d, s.status t = .parked c d
  senders : 0 < (s.chan c).balance → ∀ t ∈ (s.chan c).waiters,
    s.status t = .parked c .send ∧ (s.tempval t).isSome = true
  receivers : (s.chan c).balance < 0 → ∀ t ∈ (s.chan c).waiters,
    s.status t = .parked c .receive ∧ s.tempval t = none

omit [DecidableEq γ] [DecidableEq τ] in
theorem Inv.represented (hI : Inv s) (c : γ) : Represented s c := by
  rcases (hI.rep c).side with ⟨d, hb, hall⟩
  refine ⟨?_, ?_, ?_, ?_⟩
  · rw [hb]
    cases d <;> simp [Dir.sign]
  · intro t
    exact ⟨fun ht => ⟨d, hall t ht⟩, fun ⟨d', ht⟩ => (hI.rep c).parked t d' ht⟩
  · intro hpos t ht
    have hpark : s.status t = .parked c .send := by
      refine (hI.rep c).parked_of_sign ?_ t ht
      simpa [Dir.sign] using hpos
    have hslot := hI.slot t
    simp only [Slot, hpark] at hslot
    exact ⟨hpark, hslot⟩
  · intro hneg t ht
    have hpark : s.status t = .parked c .receive := by
      refine (hI.rep c).parked_of_sign ?_ t ht
      simpa [Dir.sign] using hneg
    have hslot := hI.slot t
    simp only [Slot, hpark] at hslot
    exact ⟨hpark, hslot⟩

/-- The channels without what their calls report. -/
def advance (w : Parties τ) (s : State γ τ β) (a : Act γ τ β) : Option (State γ τ β) :=
  (step w s a).map Prod.snd

theorem advance_eq_some {a : Act γ τ β} (hs : advance w s a = some s') :
    ∃ o, step w s a = some (o, s') := by
  rcases map_eq_some_iff.1 hs with ⟨⟨o, s₁⟩, hstep, rfl⟩
  exact ⟨o, hstep⟩

theorem Inv.advance {a : Act γ τ β} (h : Inv s) (hg : NoStaleWake s a) (hs : advance w s a = some s') :
    Inv s' := by
  rcases advance_eq_some hs with ⟨o, hstep⟩
  exact (h.step hg hstep).1

/-- After a stale wake the deque has a party that is not parked. -/
theorem not_represented_of_stale {a : Act γ τ β} (h : Inv s) (hg : ¬ NoStaleWake s a)
    (hs : advance w s a = some s') : ¬ ∀ c, Represented s' c := by
  cases a with
  | wake t =>
    simp only [NoStaleWake, not_forall, not_not] at hg
    rcases hg with ⟨c, d, ht⟩
    rcases advance_eq_some hs with ⟨o, hstep⟩
    rcases ite_none_right_eq_some.1 hstep with ⟨-, ⟨⟩⟩
    intro hrep
    rcases ((hrep c).parked t).1 ((h.rep c).parked t d ht) with ⟨d', hd'⟩
    simp [Channel.wake, ht] at hd'
  | _ => exact absurd trivial hg

/-- Every channel is represented throughout a run if and only if no step of the run is a stale
wake. -/
theorem channel_represented_iff (w : Parties τ) (preference : γ → Int) (acts : List (Act γ τ β)) :
    Always (advance w) (fun s => ∀ c, Represented s c) (init preference) acts ↔
      Along (advance w) NoStaleWake (init preference) acts := by
  refine always_iff_along (I := Inv) ?_ ?_ ?_ acts _ (Inv.init preference)
  · intro s hI
    exact hI.represented
  · intro s a s' hI hg hs
    exact hI.advance hg hs
  · intro s a s' hI hg hs
    exact not_represented_of_stale hI hg hs

/-- Tealet 0 receives under scheduler 1; tealet 1, under scheduler 0, sends to it, which queues its
wake.  Tealet 0 is cancelled before the callback runs, and parks in a send: the callback resumes it
out of that send, and its packet stays in the deque with a balance of 1. -/
theorem stale_wake_leaves_offer :
    ¬ ∀ (w : Parties Nat) (preference : Nat → Int) (acts : List (Act Nat Nat Nat)),
      Always (advance w) (fun s => ∀ c, Represented s c) (init preference) acts := by
  intro hall
  have h := hall { isTealet := fun _ => true, scheduler := fun t => 1 - t } (fun _ => 0)
    [.receive false 0 0, .send false 1 0 ⟨false, 7⟩, .throw 0, .send false 0 0 ⟨false, 8⟩, .wake 0]
  have hrep : ∀ c, Represented _ c := (((((h.next rfl).next rfl).next rfl).next rfl).next rfl).head
  rcases ((hrep 0).parked 0).1 (by decide) with ⟨d, hd⟩
  cases hd

/-! ## The assertions of the channel -/

/-- No assertion fails in a run without a stale wake, unless a parked receiver is stolen. -/
theorem step_no_assertion {preference : γ → Int} {acts : List (Act γ τ β)} {a : Act γ τ β}
    {o : List (Outcome τ β)} (hrun : exec (advance w) (init preference) acts = some s)
    (hfresh : Along (advance w) NoStaleWake (init preference) acts) (hg : NoStaleWake s a)
    (hs : step w s a = some (o, s')) (ha : ∀ t, a ≠ .steal t) (u : τ) :
    Outcome.assertion u ∉ o := by
  have hI : Inv s :=
    (always_of_along (P := Inv) (fun _ hI => hI) (fun _ _ _ hI hg hm => hI.advance hg hm) acts _
      (Inv.init preference) hfresh).exec hrun
  exact (hI.step hg hs).2 ha u

/-- Tealet 0 is parked in its send; tealet 1, of another scheduler, receives. -/
theorem step_no_assertion_receive :
    ∃ (w : Parties Nat) (s s' : State Nat Nat Nat),
      exec (advance w) (init fun _ => -1) [.send false 0 0 ⟨false, 7⟩] = some s ∧
        step w s (.receive false 1 0) = some ([.received 1 ⟨false, 7⟩], s') ∧
        Outcome.assertion 1 ∉ [Outcome.received 1 (⟨false, 7⟩ : Packet Nat)] := by
  have hs : step { isTealet := fun _ => true, scheduler := fun t => t }
      (linkSender (init fun _ => -1) 0 0 ⟨false, 7⟩) (.receive false 1 0) =
        some ([.received 1 ⟨false, 7⟩],
          post (popleft (linkSender (init fun _ => -1) 0 0 ⟨false, 7⟩) 0 .send 0 [] none) 0) := rfl
  have hrun : exec (advance { isTealet := fun _ => true, scheduler := fun t => t })
      (init fun _ => -1) [.send false 0 0 ⟨false, 7⟩] =
        some (linkSender (init fun _ => -1) 0 0 ⟨false, 7⟩) := rfl
  exact ⟨_, _, _, hrun, hs, step_no_assertion (a := .receive false 1 0) hrun ⟨trivial, trivial⟩ trivial hs
    (by simp) 1⟩

end Pytealet.Scheduler.Channel
