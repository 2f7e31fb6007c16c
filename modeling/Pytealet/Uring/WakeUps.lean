import Pytealet.Lib.Transition

/-!
# Uring.WakeUps — `break_wait` and the blocking calls of the host

`break_wait` opens the gate of the idle park, sets the sticky latch, and submits a NOP where it
finds the host inside of `io_uring_enter`.  `reap_host_cqe` consumes the latch instead of entering.
A burst that delivers nothing makes `Ring.wait` reap again, unless it has seen the NOP or the latch.

One step is what a thread does under one lock, or one call of liburing.  The NOP of a `break_wait`
obtains a slot and is submitted.  A `break_wait` that finds service workers running only opens the
idle park.

The latch and the gate are one for all, so that a consumed latch serves every `break_wait` that has
set it.  For each `break_wait` its `Fate` says what has become of its latch and of its gate; this is
kept for the statements only.
-/

namespace Pytealet.Uring.WakeUps

open Lib Lib.Transition List

inductive Cqe
  /-- the NOP of a `break_wait` -/
  | wake
  /-- nothing is delivered for it -/
  | silent
  | visible
  deriving DecidableEq, Repr

inductive Host
  /-- in no blocking call -/
  | idle
  /-- `reap_host_cqe` is called; `poll` is `Ring.poll` -/
  | reap (poll timed : Bool)
  /-- the latch has been consumed -/
  | skipping (poll : Bool) (timed : Bool)
  | entered (poll timed : Bool)
  /-- liburing's call has returned, with a CQE or without -/
  | woke (poll timed found : Bool)
  /-- the burst of `drain_ready_completions` -/
  | handling (timed delivered sawWake fromSticky : Bool)
  | returning
  /-- `wait_idle` acquires the gate -/
  | gate (timed : Bool)
  /-- it has the gate, and the signal is still set -/
  | gateTaken
  deriving DecidableEq, Repr

inductive Phase
  | start
  | signal
  | latch
  | nop
  | notify
  | done
  /-- it has returned at the check of the owner -/
  | skipped
  deriving DecidableEq, Repr

/-- What has become of a wake. -/
inductive Fate
  /-- nobody has consumed it since it was made -/
  | kept
  /-- the host's call in progress has consumed it -/
  | taken
  /-- the call that has consumed it has returned -/
  | spent
  deriving DecidableEq, Repr

def Fate.take : Fate → Fate
  | .kept => .taken
  | f => f

def Fate.spend : Fate → Fate
  | .taken => .spent
  | f => f

/-- A call of `break_wait`. -/
structure Breaker where
  phase : Phase := .start
  /-- the calling thread has created the ring -/
  owner : Bool
  /-- service workers were running at its start -/
  workers : Bool
  latch : Fate := .kept
  gate : Fate := .kept
  deriving DecidableEq, Repr

namespace Breaker

/-- It has opened the idle park. -/
def opened (b : Breaker) : Bool :=
  match b.phase with
  | .latch | .nop | .notify | .done => true
  | _ => false

/-- It has set the latch. -/
def latched (b : Breaker) : Bool :=
  match b.phase with
  | .nop => true
  | .notify | .done => !b.workers
  | _ => false

/-- Its NOP is submitted, or none was needed. -/
def submitted (b : Breaker) : Bool :=
  match b.phase with
  | .notify | .done => !b.workers
  | _ => false

/-- The latch is consumed. -/
def takeLatch (b : Breaker) : Breaker :=
  if b.latched then { b with latch := b.latch.take } else b

/-- The signal of the idle park is cleared. -/
def takeGate (b : Breaker) : Breaker :=
  if b.opened then { b with gate := b.gate.take } else b

/-- A blocking call of the host returns. -/
def spend (b : Breaker) : Breaker :=
  { b with latch := b.latch.spend, gate := b.gate.spend }

end Breaker

structure State where
  skipOwnerBreakWait : Bool
  cqeWakeSticky : Bool := false
  cqeWaiterInEnter : Bool := false
  signaled : Bool := false
  /-- `wait_lock` is free -/
  gateOpen : Bool := false
  host : Host := .idle
  breakers : List Breaker := []
  /-- NOPs that are submitted and not completed -/
  nops : Nat := 0
  /-- the completion queue -/
  cq : List Cqe := []
  deriving DecidableEq, Repr

/-- What the host's burst comes to. -/
structure Choice where
  /-- a callback, the packaging or a flush fails -/
  fails : Bool
  /-- the policy submits before the reap, or the burst has filled housekeeping; the deadline is not
  over -/
  reparks : Bool
  deriving DecidableEq, Repr

inductive Call
  | wait
  | poll
  | waitIdle
  deriving DecidableEq, Repr

inductive Event
  /-- the host makes a blocking call -/
  | call (c : Call) (timed : Bool)
  | host (c : Choice)
  /-- the host's call times out, or is interrupted -/
  | giveUp (interrupted : Bool)
  | breakWait (owner workers : Bool)
  /-- the next step of a `break_wait` -/
  | goOn (breaker : Nat)
  /-- the kernel completes a NOP -/
  | complete
  | post (c : Cqe)
  deriving DecidableEq, Repr

namespace State

variable (s : State)

/-- A blocking call of the host returns. -/
def hostReturns : State :=
  { s with host := .idle, breakers := s.breakers.map Breaker.spend }

/-- `reap_host_cqe` finds the latch set. -/
def takeLatch (poll timed : Bool) : State :=
  { s with cqeWakeSticky := false, host := .skipping poll timed, breakers := s.breakers.map Breaker.takeLatch }

/-- The end of `UringApiIdlePark_wait`, with the gate. -/
def takeGate : State :=
  { s with signaled := false, host := .returning, breakers := s.breakers.map Breaker.takeGate }

/-- The end of a burst. -/
def burstEnds (timed delivered sawWake fromSticky : Bool) (c : Choice) : State :=
  if c.fails then { s with host := .returning }
  else if !delivered && !sawWake && !fromSticky && c.reparks then { s with host := .reap false timed }
  else { s with host := .returning }

/-- The host's next step; none where it is blocked. -/
def hostStep (c : Choice) : Option State :=
  match s.host with
  | .idle => none
  | .reap poll timed =>
    if s.cqeWakeSticky then some (s.takeLatch poll timed)
    else some { s with cqeWaiterInEnter := true, host := .entered poll timed }
  | .skipping poll timed =>
    -- an empty peek is `-EAGAIN`
    if s.cq = [] ∨ poll = true then some { s with host := .returning }
    else some { s with host := .handling timed false false true }
  | .entered poll timed => if s.cq = [] then none else some { s with host := .woke poll timed true }
  | .woke poll timed found =>
    let s₁ := { s with cqeWaiterInEnter := false }
    if poll || !found then some { s₁ with host := .returning }
    else some { s₁ with host := .handling timed false false false }
  | .handling timed delivered sawWake fromSticky =>
    match s.cq with
    | [] => some (s.burstEnds timed delivered sawWake fromSticky c)
    | .wake :: rest => some { s with cq := rest, host := .handling timed delivered true fromSticky }
    | .silent :: rest =>
      if c.fails then some { s with cq := rest, host := .returning }
      else some { s with cq := rest, host := .handling timed delivered sawWake fromSticky }
    | .visible :: rest =>
      if c.fails then some { s with cq := rest, host := .returning }
      else some { s with cq := rest, host := .handling timed true sawWake fromSticky }
  | .returning => some s.hostReturns
  | .gate _ => if s.gateOpen then some { s with gateOpen := false, host := .gateTaken } else none
  | .gateTaken => some s.takeGate

/-- The host's call ends without a CQE or the gate. -/
def giveUp (interrupted : Bool) : Option State :=
  match s.host with
  | .entered poll timed =>
    if timed || interrupted then some { s with host := .woke poll timed false } else none
  | .gate timed => if timed || interrupted then some { s with host := .returning } else none
  | _ => none

/-- `UringApiIdlePark_signal` -/
def signal : State :=
  if s.signaled then s else { s with signaled := true, gateOpen := true }

def setBreaker (i : Nat) (b : Breaker) : State :=
  { s with breakers := s.breakers.set i b }

/-- The next step of a `break_wait`. -/
def goOn (i : Nat) (b : Breaker) : Option State :=
  match b.phase with
  | .start =>
    if s.skipOwnerBreakWait && b.owner then some (s.setBreaker i { b with phase := .skipped })
    else some (s.setBreaker i { b with phase := .signal })
  | .signal => some (s.signal.setBreaker i { b with phase := if b.workers then .notify else .latch })
  | .latch =>
    some ({ s with cqeWakeSticky := true }.setBreaker i
      { b with phase := if s.cqeWaiterInEnter then .nop else .notify })
  | .nop => some ({ s with nops := s.nops + 1 }.setBreaker i { b with phase := .notify })
  | .notify => some (s.setBreaker i { b with phase := .done })
  | .done | .skipped => none

/-- The kernel completes a NOP. -/
def complete : Option State :=
  if 0 < s.nops then some { s with nops := s.nops - 1, cq := s.cq ++ [.wake] } else none

end State

def step (s : State) : Event → Option State
  | .call c timed =>
    if s.host = .idle then
      match c with
      | .wait => some { s with host := .reap false timed }
      | .poll => some { s with host := .reap true timed }
      | .waitIdle => some { s with host := .gate timed }
    else none
  | .host c => s.hostStep c
  | .giveUp interrupted => s.giveUp interrupted
  | .breakWait owner workers =>
    some { s with breakers := s.breakers ++ [{ owner := owner, workers := workers }] }
  | .goOn i => (s.breakers[i]?).bind fun b => s.goOn i b
  | .complete => s.complete
  | .post c => if c = .wake then none else some { s with cq := s.cq ++ [c] }

/-- The host goes on alone: nothing is posted, no call times out, and the kernel completes the NOPs
at the latest when the host waits for them. -/
def alone (s : State) (c : Choice) : State :=
  match s.hostStep c with
  | some s' => s'
  | none => (s.complete).getD s

/-- How many steps the host's call may take. -/
def rank (s : State) : Nat :=
  match s.host with
  | .idle => 0
  | .returning => 1
  | .gateTaken => 2
  | .gate _ => 3
  | .handling _ delivered sawWake fromSticky =>
    if delivered || sawWake || fromSticky then s.cq.length + 2 else s.cq.length + 5
  | .skipping _ _ => s.cq.length + 3
  | .reap _ _ => s.cq.length + 4
  | .woke _ _ _ => s.cq.length + 6
  | .entered _ _ => 2 * s.nops + s.cq.length + 7

/-- The host's call returns when the host goes on alone. -/
def Returns (s : State) : Prop :=
  ∀ choices : List Choice, rank s ≤ choices.length → (choices.foldl alone s).host = .idle

def start (skipOwnerBreakWait : Bool) : State :=
  { skipOwnerBreakWait }

/-! ## The invariant -/

/-- A `break_wait` with this property. -/
def Any (p : Breaker → Prop) (breakers : List Breaker) : Prop :=
  ∃ b ∈ breakers, p b

namespace Breaker

def KeepsGate (b : Breaker) : Prop :=
  b.opened = true ∧ b.gate = .kept

def KeepsLatch (b : Breaker) : Prop :=
  b.latched = true ∧ b.latch = .kept

def Submitted (b : Breaker) : Prop :=
  b.submitted = true ∧ b.latch = .kept

/-- It has returned, it has found no workers, and no call that has consumed its latch has
returned. -/
def Owed (b : Breaker) : Prop :=
  b.phase = .done ∧ b.workers = false ∧ b.latch ≠ .spent

/-- It has returned, and no `wait_idle` that has consumed its signal has. -/
def OwedIdle (b : Breaker) : Prop :=
  b.phase = .done ∧ b.gate ≠ .spent

end Breaker

def Host.inKernel : Host → Bool
  | .entered _ _ | .woke _ _ _ => true
  | _ => false

/-- `wait_idle` -/
def Host.waitsIdle : Host → Bool
  | .gate _ | .gateTaken => true
  | _ => false

/-- The latch has been consumed by the call in progress. -/
def Host.committed : Host → Bool
  | .skipping _ _ | .handling _ _ _ true | .returning => true
  | _ => false

/-- A wake that nobody has consumed is in the latch or the gate, and its NOP is on its way. -/
structure Inv (s : State) : Prop where
  kernel : s.cqeWaiterInEnter = s.host.inKernel
  gate : s.gateOpen = (s.signaled && s.host ≠ .gateTaken)
  taken : s.host = .gateTaken → s.signaled = true
  signal : Any Breaker.KeepsGate s.breakers → s.signaled = true
  cleared : Any (fun b => b.gate = .taken) s.breakers → s.host = .returning
  latch : Any Breaker.KeepsLatch s.breakers → s.cqeWakeSticky = true
  consumed : Any (fun b => b.latch = .taken) s.breakers → s.host.committed = true
  /-- the host is not in the kernel without the NOP -/
  nop : Any Breaker.Submitted s.breakers → (∃ poll timed, s.host = .entered poll timed) →
    0 < s.nops ∨ Cqe.wake ∈ s.cq

variable {s s' : State} {p q : Breaker → Prop} {breakers : List Breaker}

theorem Any.mono (h : Any p breakers) (hpq : ∀ b, p b → q b) : Any q breakers := by
  rcases h with ⟨b, hb, hp⟩
  exact ⟨b, hb, hpq b hp⟩

theorem Any.of_map {f : Breaker → Breaker} (h : Any p (breakers.map f)) :
    Any (fun b => p (f b)) breakers := by
  rcases h with ⟨_, hmem, hp⟩
  rcases mem_map.1 hmem with ⟨b, hb, rfl⟩
  exact ⟨b, hb, hp⟩

variable {timed delivered sawWake fromSticky : Bool} {i : Nat} {b : Breaker}

theorem Any.of_set {b' : Breaker} (h : Any p (breakers.set i b')) (hb : breakers[i]? = some b)
    (hold : p b' → p b) : Any p breakers := by
  rcases h with ⟨b₀, hb₀, hp⟩
  rcases mem_or_eq_of_mem_set hb₀ with hmem | rfl
  · exact ⟨b₀, hmem, hp⟩
  · exact ⟨b, mem_of_getElem? hb, hold hp⟩

namespace Breaker

theorem submitted_latched (h : b.submitted = true) : b.latched = true := by
  unfold submitted at h
  unfold latched
  cases hphase : b.phase <;> simp_all

theorem keepsLatch_of_submitted (b : Breaker) (h : b.Submitted) : b.KeepsLatch :=
  ⟨submitted_latched h.1, h.2⟩

/-- What has been consumed is not there for anybody. -/
theorem not_keepsLatch_takeLatch (b : Breaker) : ¬ b.takeLatch.KeepsLatch := by
  unfold takeLatch
  rintro ⟨hlatched, hkept⟩
  split at hkept
  · cases hlatch : b.latch <;> simp [Fate.take, hlatch] at hkept
  · rename_i hnot
    rw [if_neg hnot] at hlatched
    exact hnot hlatched

theorem not_keepsGate_takeGate (b : Breaker) : ¬ b.takeGate.KeepsGate := by
  unfold takeGate
  rintro ⟨hopened, hkept⟩
  split at hkept
  · cases hgate : b.gate <;> simp [Fate.take, hgate] at hkept
  · rename_i hnot
    rw [if_neg hnot] at hopened
    exact hnot hopened

@[simp] theorem gate_takeLatch (b : Breaker) : b.takeLatch.gate = b.gate := by
  unfold takeLatch
  split <;> rfl

@[simp] theorem phase_takeLatch (b : Breaker) : b.takeLatch.phase = b.phase ∧
    b.takeLatch.workers = b.workers := by
  unfold takeLatch
  split <;> exact ⟨rfl, rfl⟩

@[simp] theorem latch_takeGate (b : Breaker) : b.takeGate.latch = b.latch := by
  unfold takeGate
  split <;> rfl

@[simp] theorem phase_takeGate (b : Breaker) : b.takeGate.phase = b.phase ∧
    b.takeGate.workers = b.workers := by
  unfold takeGate
  split <;> exact ⟨rfl, rfl⟩

theorem keepsGate_takeLatch (b : Breaker) (h : b.takeLatch.KeepsGate) : b.KeepsGate := by
  simpa [KeepsGate, opened] using h

theorem keepsLatch_takeGate (b : Breaker) (h : b.takeGate.KeepsLatch) : b.KeepsLatch := by
  simpa [KeepsLatch, latched] using h

theorem spend_kept {f : Fate} (h : f.spend = .kept) : f = .kept := by
  cases f <;> first | rfl | cases h

theorem spend_ne_taken (f : Fate) : f.spend ≠ .taken := by
  cases f <;> decide

end Breaker

theorem Inv.start (skipOwnerBreakWait : Bool) : Inv (start skipOwnerBreakWait) where
  kernel := rfl
  gate := rfl
  taken := nofun
  signal := fun ⟨_, hb, _⟩ => absurd hb not_mem_nil
  cleared := fun ⟨_, hb, _⟩ => absurd hb not_mem_nil
  latch := fun ⟨_, hb, _⟩ => absurd hb not_mem_nil
  consumed := fun ⟨_, hb, _⟩ => absurd hb not_mem_nil
  nop := fun ⟨_, hb, _⟩ => absurd hb not_mem_nil

theorem Inv.hostReturns (h : Inv s) (hhost : s.host = .returning) : Inv s.hostReturns where
  kernel := by
    have hkernel := h.kernel
    rw [hhost] at hkernel
    exact hkernel
  gate := by
    have hgate := h.gate
    rw [hhost] at hgate
    exact hgate
  taken := nofun
  signal hany := h.signal (hany.of_map.mono fun _ hkeeps => ⟨hkeeps.1, Breaker.spend_kept hkeeps.2⟩)
  cleared hany := by
    rcases hany.of_map with ⟨b, -, htaken⟩
    exact absurd htaken (Breaker.spend_ne_taken b.gate)
  latch hany := h.latch (hany.of_map.mono fun _ hkeeps => ⟨hkeeps.1, Breaker.spend_kept hkeeps.2⟩)
  consumed hany := by
    rcases hany.of_map with ⟨b, -, htaken⟩
    exact absurd htaken (Breaker.spend_ne_taken b.latch)
  nop _ := nofun

theorem Inv.moves {host host' : Host} (h : Inv s) (cq : List Cqe) (hhost : s.host = host)
    (hgate : host ≠ .gateTaken)
    (hreturning : host ≠ .returning) (hkernel : host'.inKernel = host.inKernel)
    (htaken : host' ≠ .gateTaken)
    (hentered : ∀ poll timed, host' ≠ .entered poll timed)
    (hcommitted : host.committed = true → host'.committed = true) :
      Inv { s with host := host', cq := cq } := by
  subst hhost
  exact
    { kernel := h.kernel.trans hkernel.symm
      gate := by simpa [hgate, htaken] using h.gate
      taken := fun heq => absurd heq htaken
      signal := h.signal
      cleared := fun hany => absurd (h.cleared hany) hreturning
      latch := h.latch
      consumed := fun hany => hcommitted (h.consumed hany)
      nop := fun _ ⟨poll, timed, heq⟩ => absurd heq (hentered poll timed) }

theorem Inv.goes {host host' : Host} (h : Inv s) (hhost : s.host = host) (hgate : host ≠ .gateTaken)
    (hreturning : host ≠ .returning) (hkernel : host'.inKernel = host.inKernel)
    (htaken : host' ≠ .gateTaken)
    (hentered : ∀ poll timed, host' ≠ .entered poll timed)
    (hcommitted : host.committed = true → host'.committed = true) : Inv { s with host := host' } :=
  h.moves s.cq hhost hgate hreturning hkernel htaken hentered hcommitted

theorem Inv.burstEnds (h : Inv s)
    (hhost : s.host = .handling timed delivered sawWake fromSticky) (c : Choice) :
    Inv (s.burstEnds timed delivered sawWake fromSticky c) := by
  unfold State.burstEnds
  split
  · exact h.goes hhost nofun nofun rfl nofun nofun fun _ => rfl
  · split
    · -- another reap: the burst has not begun with the latch, which is still there for it
      rename_i hsilent
      refine h.goes hhost nofun nofun rfl nofun nofun ?_
      intro hcommitted
      cases fromSticky with
      | false => cases hcommitted
      | true => simp at hsilent
    · exact h.goes hhost nofun nofun rfl nofun nofun fun _ => rfl

theorem Inv.handles (h : Inv s)
    (hhost : s.host = .handling timed delivered sawWake fromSticky) (delivered' sawWake' : Bool)
    (rest : List Cqe) :
    Inv { s with cq := rest, host := .handling timed delivered' sawWake' fromSticky } := by
  refine h.moves rest hhost nofun nofun rfl nofun nofun ?_
  cases fromSticky with
  | false => exact nofun
  | true => exact fun _ => rfl

theorem Inv.fails (h : Inv s)
    (hhost : s.host = .handling timed delivered sawWake fromSticky) (rest : List Cqe) :
    Inv { s with cq := rest, host := .returning } :=
  h.moves rest hhost nofun nofun rfl nofun nofun fun _ => rfl

/-- The latch is consumed by a call that returns. -/
theorem Inv.takesLatch {poll timed : Bool} (h : Inv s) (hhost : s.host = .reap poll timed) :
    Inv (s.takeLatch poll timed) where
  kernel := by
    have hkernel := h.kernel
    rw [hhost] at hkernel
    exact hkernel
  gate := by
    have hgate := h.gate
    rw [hhost] at hgate
    exact hgate
  taken := nofun
  signal hany := h.signal (hany.of_map.mono Breaker.keepsGate_takeLatch)
  cleared hany := by
    have hreturning := h.cleared (hany.of_map.mono fun b htaken => by simpa using htaken)
    rw [hhost] at hreturning
    cases hreturning
  latch hany := by
    rcases hany.of_map with ⟨b, -, hkeeps⟩
    exact absurd hkeeps b.not_keepsLatch_takeLatch
  consumed _ := rfl
  nop _ := nofun

theorem Inv.enters {poll timed : Bool} (h : Inv s) (hhost : s.host = .reap poll timed)
    (hsticky : s.cqeWakeSticky = false) :
    Inv { s with cqeWaiterInEnter := true, host := .entered poll timed } where
  kernel := rfl
  gate := by simpa [hhost] using h.gate
  taken := nofun
  signal := h.signal
  cleared hany := by
    have hreturning := h.cleared hany
    rw [hhost] at hreturning
    cases hreturning
  latch := h.latch
  consumed hany := by
    have hcommitted := h.consumed hany
    rw [hhost] at hcommitted
    cases hcommitted
  nop hany := by
    have hset := h.latch (hany.mono Breaker.keepsLatch_of_submitted)
    rw [hsticky] at hset
    cases hset

theorem Inv.leavesKernel {poll timed found : Bool} (h : Inv s)
    (hhost : s.host = .woke poll timed found) {host : Host}
    (hnew : host = .returning ∨ host = .handling timed false false false) :
    Inv { s with cqeWaiterInEnter := false, host := host } where
  kernel := by rcases hnew with rfl | rfl <;> rfl
  gate := by
    have hgate := h.gate
    rw [hhost] at hgate
    rcases hnew with rfl | rfl <;> exact hgate
  taken heq := by rcases hnew with rfl | rfl <;> cases heq
  signal := h.signal
  cleared hany := by
    have hreturning := h.cleared hany
    rw [hhost] at hreturning
    cases hreturning
  latch := h.latch
  consumed hany := by
    have hcommitted := h.consumed hany
    rw [hhost] at hcommitted
    cases hcommitted
  nop _ := by
    rintro ⟨poll', timed', heq⟩
    rcases hnew with rfl | rfl <;> cases heq

theorem Inv.takesGate {timed : Bool} (h : Inv s) (hhost : s.host = .gate timed)
    (hopen : s.gateOpen = true) :
    Inv { s with gateOpen := false, host := .gateTaken } where
  kernel := by simpa [hhost, Host.inKernel] using h.kernel
  gate := by simp
  taken _ := by
    have hgate := h.gate
    rw [hopen] at hgate
    exact (Bool.and_eq_true _ _ ▸ hgate.symm : s.signaled = true ∧ _).1
  signal := h.signal
  cleared hany := by
    have hreturning := h.cleared hany
    rw [hhost] at hreturning
    cases hreturning
  latch := h.latch
  consumed hany := by
    have hcommitted := h.consumed hany
    rw [hhost] at hcommitted
    cases hcommitted
  nop _ := nofun

theorem Inv.clearsSignal (h : Inv s) (hhost : s.host = .gateTaken) : Inv s.takeGate where
  kernel := by
    have hkernel := h.kernel
    rw [hhost] at hkernel
    exact hkernel
  gate := by
    have hgate := h.gate
    rw [hhost] at hgate
    simpa [State.takeGate] using hgate
  taken := nofun
  signal hany := by
    rcases hany.of_map with ⟨b, -, hkeeps⟩
    exact absurd hkeeps b.not_keepsGate_takeGate
  cleared _ := rfl
  latch hany := h.latch (hany.of_map.mono Breaker.keepsLatch_takeGate)
  consumed _ := rfl
  nop _ := nofun

theorem Inv.hostStep {c : Choice} (h : Inv s) (hs : s.hostStep c = some s') : Inv s' := by
  unfold State.hostStep at hs
  cases hhost : s.host with
  | idle => simp [hhost] at hs
  | reap poll timed =>
    simp only [hhost] at hs
    split at hs <;> cases hs
    · exact h.takesLatch hhost
    · rename_i hsticky
      exact h.enters hhost (Bool.not_eq_true _ ▸ hsticky)
  | skipping poll timed =>
    simp only [hhost] at hs
    split at hs <;> cases hs
    · exact h.goes hhost nofun nofun rfl nofun nofun fun _ => rfl
    · exact h.goes hhost nofun nofun rfl nofun nofun fun _ => rfl
  | entered poll timed =>
    simp only [hhost] at hs
    split at hs <;> cases hs
    exact h.goes hhost nofun nofun rfl nofun nofun nofun
  | woke poll timed found =>
    simp only [hhost] at hs
    split at hs <;> cases hs
    · exact h.leavesKernel hhost (.inl rfl)
    · exact h.leavesKernel hhost (.inr rfl)
  | handling timed delivered sawWake fromSticky =>
    simp only [hhost] at hs
    split at hs
    · cases hs
      exact h.burstEnds hhost c
    · cases hs
      exact h.handles hhost _ _ _
    · split at hs <;> cases hs
      · exact h.fails hhost _
      · exact h.handles hhost _ _ _
    · split at hs <;> cases hs
      · exact h.fails hhost _
      · exact h.handles hhost _ _ _
  | returning =>
    simp only [hhost] at hs
    cases hs
    exact h.hostReturns hhost
  | gate timed =>
    simp only [hhost] at hs
    split at hs <;> cases hs
    rename_i hopen
    exact h.takesGate hhost hopen
  | gateTaken =>
    simp only [hhost] at hs
    cases hs
    exact h.clearsSignal hhost

/-! ## The other threads, and the kernel -/

theorem Inv.giveUp {interrupted : Bool} (h : Inv s) (hs : s.giveUp interrupted = some s') : Inv s' := by
  unfold State.giveUp at hs
  cases hhost : s.host with
  | entered poll timed =>
    simp only [hhost] at hs
    split at hs <;> cases hs
    exact h.goes hhost nofun nofun rfl nofun nofun nofun
  | gate timed =>
    simp only [hhost] at hs
    split at hs <;> cases hs
    exact h.goes hhost nofun nofun rfl nofun nofun nofun
  | idle | reap | skipping | woke | handling | returning | gateTaken => simp [hhost] at hs

/-- Nothing that another thread does to one `break_wait` makes up for a wake that was there
before. -/
theorem Inv.setBreaker {b b' : Breaker} (h : Inv s) (hb : s.breakers[i]? = some b)
    (hgate : b'.KeepsGate → b.KeepsGate) (hlatch : b'.KeepsLatch → b.KeepsLatch)
    (hnop : b'.Submitted → b.Submitted) (hsame : b'.latch = b.latch ∧ b'.gate = b.gate) :
    Inv (s.setBreaker i b') where
  kernel := h.kernel
  gate := h.gate
  taken := h.taken
  signal hany := h.signal (hany.of_set hb hgate)
  cleared hany := h.cleared (hany.of_set hb fun htaken => hsame.2 ▸ htaken)
  latch hany := h.latch (hany.of_set hb hlatch)
  consumed hany := h.consumed (hany.of_set hb fun htaken => hsame.1 ▸ htaken)
  nop hany := h.nop (hany.of_set hb hnop)

theorem Inv.signals (h : Inv s) (hb : s.breakers[i]? = some b) :
    Inv (s.signal.setBreaker i { b with phase := if b.workers then .notify else .latch }) := by
  have hlatched : Breaker.latched { b with phase := if b.workers then .notify else .latch } = false := by
    unfold Breaker.latched
    cases hworkers : b.workers <;> simp
  have hnone : ¬ Breaker.KeepsLatch { b with phase := if b.workers then .notify else .latch } := by
    rintro ⟨hset, -⟩
    rw [hlatched] at hset
    cases hset
  have hsignaled : s.signal.signaled = true := by
    unfold State.signal
    split
    · rename_i hset
      exact hset
    · rfl
  have hgate : s.signal.gateOpen = (s.signal.signaled && s.host ≠ .gateTaken) := by
    unfold State.signal
    split
    · exact h.gate
    · rename_i hclear
      have htaken : s.host ≠ .gateTaken := fun hhost => hclear (h.taken hhost)
      simp [htaken]
  have hframe : s.signal = { s with signaled := s.signal.signaled, gateOpen := s.signal.gateOpen } := by
    unfold State.signal
    split <;> rfl
  rw [hframe]
  exact
    { kernel := h.kernel
      gate := hgate
      taken := fun _ => hsignaled
      signal := fun _ => hsignaled
      cleared := fun hany => h.cleared (Any.of_set hany hb id)
      latch := fun hany => h.latch (Any.of_set hany hb fun hkeeps => absurd hkeeps hnone)
      consumed := fun hany => h.consumed (Any.of_set hany hb id)
      nop :=
        fun hany => h.nop (Any.of_set hany hb fun hsub =>
          absurd (Breaker.keepsLatch_of_submitted _ hsub) hnone) }

theorem Inv.latches (h : Inv s) (hb : s.breakers[i]? = some b) (hphase : b.phase = .latch) :
    Inv ({ s with cqeWakeSticky := true }.setBreaker i
      { b with phase := if s.cqeWaiterInEnter then .nop else .notify }) where
  kernel := h.kernel
  gate := h.gate
  taken := h.taken
  signal hany := h.signal (Any.of_set hany hb fun hkeeps => ⟨by rw [Breaker.opened, hphase], hkeeps.2⟩)
  cleared hany := h.cleared (Any.of_set hany hb id)
  latch _ := rfl
  consumed hany := h.consumed (Any.of_set hany hb id)
  nop hany hentered := by
    have hkernel : s.cqeWaiterInEnter = true := by
      rcases hentered with ⟨poll, timed, hhost⟩
      rw [h.kernel, show s.host = .entered poll timed from hhost]
      rfl
    apply h.nop _ hentered
    refine Any.of_set hany hb ?_
    rw [hkernel]
    exact fun hsub => Bool.noConfusion hsub.1

theorem Inv.submits (h : Inv s) (hb : s.breakers[i]? = some b) (hphase : b.phase = .nop) :
    Inv ({ s with nops := s.nops + 1 }.setBreaker i { b with phase := .notify }) where
  kernel := h.kernel
  gate := h.gate
  taken := h.taken
  signal hany := h.signal (Any.of_set hany hb fun hkeeps => ⟨by rw [Breaker.opened, hphase], hkeeps.2⟩)
  cleared hany := h.cleared (Any.of_set hany hb id)
  latch hany := h.latch (Any.of_set hany hb fun hkeeps => ⟨by rw [Breaker.latched, hphase], hkeeps.2⟩)
  consumed hany := h.consumed (Any.of_set hany hb id)
  nop _ _ := .inl (Nat.succ_pos _)

theorem Inv.goOn (h : Inv s) (hb : s.breakers[i]? = some b) (hs : s.goOn i b = some s') :
    Inv s' := by
  unfold State.goOn at hs
  cases hphase : b.phase with
  | start =>
    simp only [hphase] at hs
    split at hs <;> cases hs
    · exact h.setBreaker hb (fun hkeeps => nomatch hkeeps.1) (fun hkeeps => nomatch hkeeps.1)
        (fun hsub => nomatch hsub.1) ⟨rfl, rfl⟩
    · exact h.setBreaker hb (fun hkeeps => nomatch hkeeps.1) (fun hkeeps => nomatch hkeeps.1)
        (fun hsub => nomatch hsub.1) ⟨rfl, rfl⟩
  | signal =>
    simp only [hphase] at hs
    cases hs
    exact h.signals hb
  | latch =>
    simp only [hphase] at hs
    cases hs
    exact h.latches hb hphase
  | nop =>
    simp only [hphase] at hs
    cases hs
    exact h.submits hb hphase
  | notify =>
    simp only [hphase] at hs
    cases hs
    -- with the notification the flags stay as they are
    exact h.setBreaker hb (fun hkeeps => ⟨by rw [Breaker.opened, hphase], hkeeps.2⟩)
      (fun hkeeps => ⟨by rw [Breaker.latched, hphase]; exact hkeeps.1, hkeeps.2⟩)
      (fun hsub => ⟨by rw [Breaker.submitted, hphase]; exact hsub.1, hsub.2⟩) ⟨rfl, rfl⟩
  | done | skipped => simp [hphase] at hs

theorem Inv.complete (h : Inv s) (hs : s.complete = some s') : Inv s' := by
  unfold State.complete at hs
  split at hs <;> cases hs
  exact ⟨h.kernel, h.gate, h.taken, h.signal, h.cleared, h.latch, h.consumed, fun _ _ => .inr (by simp)⟩

theorem Inv.post (h : Inv s) (c : Cqe) : Inv { s with cq := s.cq ++ [c] } :=
  ⟨h.kernel, h.gate, h.taken, h.signal, h.cleared, h.latch, h.consumed,
    fun hany hentered => (h.nop hany hentered).imp id fun hwake => mem_append_left _ hwake⟩

theorem Inv.breakWait (h : Inv s) (owner workers : Bool) :
    Inv { s with breakers := s.breakers ++ [{ owner := owner, workers := workers }] } := by
  have hnew : ∀ {p : Breaker → Prop}, ¬ p { owner := owner, workers := workers } →
      Any p (s.breakers ++ [{ owner := owner, workers := workers }]) → Any p s.breakers := by
    rintro p hp ⟨b, hb, hpb⟩
    rcases mem_append.1 hb with hold | hlast
    · exact ⟨b, hold, hpb⟩
    · exact absurd (mem_singleton.1 hlast ▸ hpb) hp
  exact
    { kernel := h.kernel
      gate := h.gate
      taken := h.taken
      signal := fun hany => h.signal (hnew (fun hkeeps => nomatch hkeeps.1) hany)
      cleared := fun hany => h.cleared (hnew nofun hany)
      latch := fun hany => h.latch (hnew (fun hkeeps => nomatch hkeeps.1) hany)
      consumed := fun hany => h.consumed (hnew nofun hany)
      nop := fun hany => h.nop (hnew (fun hsub => nomatch hsub.1) hany) }

/-- A call consumes what is in the latch or the gate, or leaves it to the next. -/
theorem Inv.step {e : Event} (h : Inv s) (hs : step s e = some s') : Inv s' := by
  cases e with
  | call c timed =>
    simp only [WakeUps.step] at hs
    split at hs
    · rename_i hidle
      cases c <;> cases hs
      · exact h.goes hidle nofun nofun rfl nofun nofun nofun
      · exact h.goes hidle nofun nofun rfl nofun nofun nofun
      · exact h.goes hidle nofun nofun rfl nofun nofun nofun
    · cases hs
  | host c => exact h.hostStep hs
  | giveUp interrupted => exact h.giveUp hs
  | breakWait owner workers =>
    cases hs
    exact h.breakWait owner workers
  | goOn i =>
    simp only [WakeUps.step, Option.bind_eq_some_iff] at hs
    obtain ⟨b, hb, hs⟩ := hs
    exact h.goOn hb hs
  | complete => exact h.complete hs
  | post c =>
    simp only [WakeUps.step] at hs
    split at hs <;> cases hs
    exact h.post c

/-! ## The host goes on alone -/

theorem Inv.alone (h : Inv s) (c : Choice) : Inv (alone s c) := by
  unfold WakeUps.alone
  split
  · rename_i hs
    exact h.hostStep hs
  · cases hc : s.complete with
    | none => exact h
    | some s' => exact h.complete hc

/-- The host is in a call of `wait` or `poll`, or in none, and such a call is owed its return. -/
def Driven (s : State) : Prop :=
  Any Breaker.Owed s.breakers ∧ s.host.waitsIdle = false

/-- What is owed stays owed until the call returns, and the call comes closer to its return. -/
def Advances (s s' : State) : Prop :=
  rank s' < rank s ∧ (Driven s' ∨ s'.host = .idle)

theorem owed_takeLatch (h : Any Breaker.Owed breakers) :
    Any Breaker.Owed (breakers.map Breaker.takeLatch) := by
  rcases h with ⟨b, hb, hphase, hworkers, hlatch⟩
  refine ⟨b.takeLatch, mem_map_of_mem hb, b.phase_takeLatch.1.trans hphase,
    b.phase_takeLatch.2.trans hworkers, ?_⟩
  unfold Breaker.takeLatch
  split
  · cases hfate : b.latch <;> simp_all [Fate.take]
  · exact hlatch

/-- What is owed is there, or the call in progress has consumed it. -/
theorem Inv.owed (h : Inv s) (howed : Any Breaker.Owed s.breakers) :
    (s.cqeWakeSticky = true ∧ Any Breaker.Submitted s.breakers) ∨ s.host.committed = true := by
  rcases howed with ⟨b, hb, hphase, hworkers, hlatch⟩
  cases hfate : b.latch with
  | kept =>
    have hkeeps : b.KeepsLatch := ⟨by simp [Breaker.latched, hphase, hworkers], hfate⟩
    exact .inl ⟨h.latch ⟨b, hb, hkeeps⟩, b, hb, by simp [Breaker.submitted, hphase, hworkers], hfate⟩
  | taken => exact .inr (h.consumed ⟨b, hb, hfate⟩)
  | spent => exact absurd hfate hlatch

theorem Advances.burstEnds (howed : Any Breaker.Owed s.breakers) (hcq : s.cq = [])
    (hhost : s.host = .handling timed delivered sawWake fromSticky) (c : Choice) :
    Advances s (s.burstEnds timed delivered sawWake fromSticky c) := by
  have hrank : 2 ≤ rank s := by
    rw [rank, hhost]
    dsimp only
    split <;> omega
  unfold State.burstEnds
  split
  · exact ⟨hrank, .inl ⟨howed, rfl⟩⟩
  · split
    · -- silent: the next reap is closer to the return than the burst was
      rename_i hsilent
      refine ⟨?_, .inl ⟨howed, rfl⟩⟩
      have hquiet : (delivered || sawWake || fromSticky) = false := by
        revert hsilent
        cases delivered <;> cases sawWake <;> cases fromSticky <;> simp
      simp only [rank, hhost, hcq, hquiet, length_nil]
      decide
    · exact ⟨hrank, .inl ⟨howed, rfl⟩⟩

theorem Advances.handles {timed delivered sawWake fromSticky delivered' sawWake' : Bool}
    {cqe : Cqe} {rest : List Cqe}
    (howed : Any Breaker.Owed s.breakers) (hcq : s.cq = cqe :: rest)
    (hhost : s.host = .handling timed delivered sawWake fromSticky)
    (hmono : (delivered || sawWake || fromSticky) = true → (delivered' || sawWake' || fromSticky) = true) :
    Advances s { s with cq := rest, host := .handling timed delivered' sawWake' fromSticky } := by
  refine ⟨?_, .inl ⟨howed, rfl⟩⟩
  have hlength : s.cq.length = rest.length + 1 := by rw [hcq]; rfl
  simp only [rank, hhost]
  by_cases hbefore : (delivered || sawWake || fromSticky) = true
  · rw [if_pos hbefore, if_pos (hmono hbefore)]
    omega
  · rw [if_neg hbefore]
    split <;> omega

theorem Advances.fails {rest : List Cqe} (howed : Any Breaker.Owed s.breakers)
    (hhost : s.host = .handling timed delivered sawWake fromSticky) :
    Advances s { s with cq := rest, host := .returning } := by
  refine ⟨?_, .inl ⟨howed, rfl⟩⟩
  simp only [rank, hhost]
  split <;> omega

theorem Inv.opened {timed : Bool} (h : Inv s) (hsignaled : s.signaled = true)
    (hhost : s.host = .gate timed) :
    s.gateOpen = true := by
  simp [h.gate, hsignaled, hhost]

theorem Inv.advances (h : Inv s) (hdriven : Driven s) (hidle : s.host ≠ .idle) (c : Choice) :
    Advances s (WakeUps.alone s c) := by
  rcases hdriven with ⟨howed, hwaits⟩
  have hkept := h.owed howed
  unfold WakeUps.alone State.hostStep
  cases hhost : s.host with
  | idle => exact absurd hhost hidle
  | reap poll timed =>
    have hsticky := (hkept.resolve_right (by rw [hhost]; nofun)).1
    simp only [hsticky, if_true]
    refine ⟨?_, .inl ⟨owed_takeLatch howed, rfl⟩⟩
    simp [rank, hhost, State.takeLatch]
  | skipping poll timed =>
    by_cases hempty : s.cq = [] ∨ poll = true
    · simp only [if_pos hempty]
      exact ⟨by simp [rank, hhost], .inl ⟨howed, rfl⟩⟩
    · simp only [if_neg hempty]
      exact ⟨by simp [rank, hhost], .inl ⟨howed, rfl⟩⟩
  | entered poll timed =>
    by_cases hempty : s.cq = []
    · -- the kernel still has the NOP
      have hsubmitted := (hkept.resolve_right (by rw [hhost]; nofun)).2
      have hnops : 0 < s.nops :=
        (h.nop hsubmitted ⟨poll, timed, hhost⟩).resolve_right (by rw [hempty]; nofun)
      simp only [if_pos hempty, State.complete, if_pos hnops, Option.getD_some]
      refine ⟨?_, .inl ⟨howed, hwaits⟩⟩
      simp only [rank, hhost, hempty, nil_append, length_singleton, length_nil]
      omega
    · simp only [if_neg hempty]
      refine ⟨?_, .inl ⟨howed, rfl⟩⟩
      simp only [rank, hhost]
      omega
  | woke poll timed found =>
    by_cases hreturns : (poll || !found) = true
    · simp only [if_pos hreturns]
      exact ⟨by simp [rank, hhost], .inl ⟨howed, rfl⟩⟩
    · simp only [if_neg hreturns]
      exact ⟨by simp [rank, hhost], .inl ⟨howed, rfl⟩⟩
  | handling timed delivered sawWake fromSticky =>
    cases hcq : s.cq with
    | nil => exact Advances.burstEnds howed hcq hhost c
    | cons cqe rest =>
      cases cqe with
      | wake => exact Advances.handles howed hcq hhost fun _ => by simp
      | silent =>
        cases hfails : c.fails with
        | true => exact Advances.fails howed hhost
        | false => exact Advances.handles howed hcq hhost id
      | visible =>
        cases hfails : c.fails with
        | true => exact Advances.fails howed hhost
        | false => exact Advances.handles howed hcq hhost fun _ => by simp
  | returning => exact ⟨by simp [rank, hhost, State.hostReturns], .inr rfl⟩
  | gate | gateTaken =>
    rw [hhost] at hwaits
    cases hwaits

theorem alone_idle (c : Choice) (hidle : s.host = .idle) : (WakeUps.alone s c).host = .idle := by
  unfold WakeUps.alone State.hostStep
  rw [hidle]
  dsimp only
  unfold State.complete
  split
  · exact hidle
  · exact hidle

theorem foldl_alone_idle : ∀ (choices : List Choice) {s : State}, s.host = .idle →
    (choices.foldl alone s).host = .idle
  | [], _, hidle => hidle
  | c :: choices, _, hidle => foldl_alone_idle choices (alone_idle c hidle)

theorem idle_of_rank (hrank : rank s ≤ 0) : s.host = .idle := by
  unfold rank at hrank
  cases hhost : s.host with
  | idle => rfl
  | handling timed delivered sawWake fromSticky =>
    rw [hhost] at hrank
    dsimp only at hrank
    split at hrank <;> omega
  | reap | skipping | entered | woke | returning | gate | gateTaken =>
    rw [hhost] at hrank
    dsimp only at hrank
    omega

theorem Inv.returns (h : Inv s) (hdriven : Driven s) : Returns s := by
  intro choices
  -- on the choices; the rank falls with each of them until the call has returned
  induction choices generalizing s with
  | nil => exact idle_of_rank
  | cons c choices ih =>
    intro hrank
    rw [foldl_cons]
    by_cases hidle : s.host = .idle
    · exact foldl_alone_idle choices (alone_idle c hidle)
    · obtain ⟨hless, hdriven' | hidle'⟩ := h.advances hdriven hidle c
      · apply ih (h.alone c) hdriven'
        exact Nat.le_of_lt_succ (Nat.lt_of_lt_of_le hless hrank)
      · exact foldl_alone_idle choices hidle'

theorem Inv.idleReturns (h : Inv s) (howed : Any Breaker.OwedIdle s.breakers)
    (hwaits : s.host.waitsIdle = true) :
    Returns s := by
  have htaken : ∀ {s₁ : State}, s₁.host = .gateTaken →
      ∀ c c', (WakeUps.alone (WakeUps.alone s₁ c) c').host = .idle := by
    intro s₁ hhost₁ c c'
    simp [WakeUps.alone, State.hostStep, hhost₁, State.hostReturns, State.takeGate]
  cases hhost : s.host with
  | gateTaken =>
    rintro (_ | ⟨c, _ | ⟨c', choices⟩⟩) hrank
    · simp [rank, hhost] at hrank
    · simp [rank, hhost] at hrank
    · exact foldl_alone_idle choices (htaken hhost c c')
  | gate timed =>
    -- no other call has consumed the signal, since that would return first
    have hsignaled : s.signaled = true := by
      rcases howed with ⟨b, hb, hphase, hgate⟩
      cases hfate : b.gate with
      | kept => exact h.signal ⟨b, hb, by simp [Breaker.opened, hphase], hfate⟩
      | taken =>
        have hreturning := h.cleared ⟨b, hb, hfate⟩
        rw [hhost] at hreturning
        cases hreturning
      | spent => exact absurd hfate hgate
    have htakes : ∀ c, (WakeUps.alone s c).host = .gateTaken := by
      intro c
      simp [WakeUps.alone, State.hostStep, hhost, h.opened hsignaled hhost]
    rintro (_ | ⟨c, _ | ⟨c', _ | ⟨c'', choices⟩⟩⟩) hrank
    · simp [rank, hhost] at hrank
    · simp [rank, hhost] at hrank
    · simp [rank, hhost] at hrank
    · exact foldl_alone_idle choices (htaken (htakes c) c' c'')
  | idle | reap | skipping | entered | woke | handling | returning =>
    rw [hhost] at hwaits
    cases hwaits

/-- A `break_wait` past the owner check has returned.  The host's `wait` or `poll` in progress
returns by itself, and so does its next one, unless one that has consumed the latch has returned
before; and a `wait_idle`, unless one that has consumed the signal has returned before.  With
service workers running this is about `wait_idle`. -/
theorem wake_ups_kept (skipOwnerBreakWait : Bool) (run : List Event) :
    Always step
      (fun s => (Any Breaker.Owed s.breakers → s.host.waitsIdle = false → Returns s) ∧
        (Any Breaker.OwedIdle s.breakers → s.host.waitsIdle = true → Returns s))
      (start skipOwnerBreakWait) run :=
  always_of_invariant (I := Inv) (fun _ h => ⟨fun howed hwaits => h.returns ⟨howed, hwaits⟩, h.idleReturns⟩)
    (fun _ _ _ h hs => h.step hs) run _ (Inv.start skipOwnerBreakWait)

/-- The host's call returns for another completion, and the latch that is set afterwards is kept for
its next call. -/
def latchKept : List Event :=
  [.call .wait false, .host ⟨false, false⟩, .breakWait false false, .goOn 0, .goOn 0, .post .visible,
    .host ⟨false, false⟩, .host ⟨false, false⟩, .host ⟨false, false⟩,
    .host ⟨false, false⟩, .host ⟨false, false⟩,
    .goOn 0, .goOn 0, .call .wait false]

theorem wake_ups_kept_next : ∃ s, exec step (start true) latchKept = some s ∧
    s.breakers = [{ phase := .done, owner := false, workers := false }] ∧
      s.host = .reap false false ∧ Returns s := by
  have hrun : ∃ s, exec step (start true) latchKept = some s ∧
      s.breakers = [{ phase := .done, owner := false, workers := false }] ∧ s.host = .reap false false :=
    ⟨_, rfl, rfl, rfl⟩
  rcases hrun with ⟨s, hs, hbreakers, hhost⟩
  have hkept := ((wake_ups_kept true latchKept).exec hs).1
  refine ⟨s, hs, hbreakers, hhost, hkept ?_ (hhost ▸ rfl)⟩
  exact ⟨{ phase := .done, owner := false, workers := false }, by simp [hbreakers], rfl, rfl, by decide⟩

theorem not_returns_of_stuck {poll timed : Bool} (hhost : s.host = .entered poll timed) (hnops : s.nops = 0)
    (hcq : s.cq = []) : ¬ Returns s := by
  have hstuck : ∀ c, WakeUps.alone s c = s := by
    intro c
    simp [WakeUps.alone, State.hostStep, State.complete, hhost, hnops, hcq]
  have hstays : ∀ choices : List Choice, choices.foldl WakeUps.alone s = s := by
    intro choices
    induction choices with
    | nil => rfl
    | cons c choices ih => rw [foldl_cons, hstuck c, ih]
  intro hreturns
  have hidle := hreturns (List.replicate (rank s) ⟨false, false⟩) (Nat.le_of_eq length_replicate.symm)
  rw [hstays, hhost] at hidle
  cases hidle

/-- The latch of a `break_wait` is consumed by a call that returns before `break_wait` does. -/
def latchConsumed : List Event :=
  [.call .wait false, .breakWait false false, .goOn 0, .goOn 0, .goOn 0,
    .host ⟨false, false⟩, .host ⟨false, false⟩,
    .host ⟨false, false⟩, .call .wait false, .host ⟨false, false⟩, .goOn 0]

/-- The `break_wait` of another thread has returned, and the host's call needs another
completion. -/
theorem returned_break_wait_is_spent :
    ∃ s, exec step (start true) latchConsumed = some s ∧
      s.breakers = [{ phase := .done, owner := false, workers := false, latch := .spent }] ∧ ¬ Returns s :=
  ⟨_, rfl, rfl, not_returns_of_stuck rfl rfl rfl⟩

end Pytealet.Uring.WakeUps
