import Mathlib.Logic.Function.Basic
import Mathlib.Order.Nat
import Pytealet.Lib.Replies

/-!
# Wakeup — the wake-up managers of a proactor

Any number of threads call `wakeup`; one consumer calls `wait` and `poll`.

`TokenHandoffWakeupManager` counts the tokens that were issued and received, under a condition.  The
signallers share the token that is on its way, and those that find the consumer in `wait` block
until it has been received.  A step is what a thread does while it holds the lock; a thread that
waits for the condition goes on when it has been notified, or when its time is up.

`EventWakeupManager` is an event, which the consumer clears after it has found it set; each
operation on the event is a step.
-/

namespace Pytealet.Scheduler.Wakeup

open Lib Lib.Transition Lib.Replies

/-! ## Tokens -/

namespace Token

inductive Signaller
  | idle
  /-- in `wait_for`, until the token is received -/
  | blocked (token : Nat) (notified : Bool)
  deriving DecidableEq, Repr

/-- Why a thread that waits for the condition goes on. -/
inductive Sleep
  | asleep
  | notified
  | expired
  deriving DecidableEq, Repr

inductive Consumer
  | idle
  | waiting (timed : Bool) (sleep : Sleep)
  deriving DecidableEq, Repr

structure State (τ : Type*) where
  waiting : Bool := false
  issued : Nat := 0
  received : Nat := 0
  consumer : Consumer := .idle
  signallers : τ → Signaller := fun _ => .idle

inductive Action (τ : Type*)
  | wakeup (t : τ)
  /-- a signaller that was notified has the lock again -/
  | rejoin (t : τ)
  | wait (timed : Bool)
  /-- the time of the consumer is up while it sleeps -/
  | expire
  /-- the consumer has the lock again; `late` says that its time is up -/
  | resume (late : Bool)
  | poll

variable {τ : Type*}

namespace State

def pending (s : State τ) : Prop :=
  s.received < s.issued

instance (s : State τ) : Decidable s.pending :=
  inferInstanceAs (Decidable (_ < _))

def notifyAll (s : State τ) : State τ :=
  { s with
    consumer := match s.consumer with
      | .waiting timed .asleep => .waiting timed .notified
      | c => c
    signallers := fun t => match s.signallers t with
      | .blocked token _ => .blocked token true
      | .idle => .idle }

/-- A token is issued, if none is on its way. -/
def issue (s : State τ) : State τ :=
  if s.issued = s.received then
    let s₁ := { s with issued := s.issued + 1 }
    if s₁.waiting then s₁.notifyAll else s₁
  else s

variable [DecidableEq τ]

def setSignaller (s : State τ) (t : τ) (x : Signaller) : State τ :=
  { s with signallers := Function.update s.signallers t x }

def wakeup (s : State τ) (t : τ) : State τ :=
  let s₁ := s.issue
  if s₁.waiting then
    -- the predicate is checked before the thread waits
    if s₁.issued ≤ s₁.received then s₁ else s₁.setSignaller t (.blocked s₁.issued false)
  else s₁

omit [DecidableEq τ] in
/-- The consumer leaves `wait`, with the token. -/
def claim (s : State τ) : State τ :=
  { ({ s with received := s.issued } : State τ).notifyAll with waiting := false, consumer := .idle }

end State

variable [DecidableEq τ]

def step (s : State τ) : Action τ → Option (State τ)
  | .wakeup t => if s.signallers t = .idle then some (s.wakeup t) else none
  | .rejoin t =>
    match s.signallers t with
    | .blocked token true =>
      some (if token ≤ s.received then s.setSignaller t .idle else s.setSignaller t (.blocked token false))
    | _ => none
  | .wait timed =>
    if s.consumer = .idle then
      some (if s.pending then s.claim else { s with waiting := true, consumer := .waiting timed .asleep })
    else none
  | .expire => if s.consumer = .waiting true .asleep then
      some { s with consumer := .waiting true .expired } else none
  | .resume late =>
    match s.consumer with
    | .idle | .waiting _ .asleep => none
    | .waiting timed _ =>
      some (if s.pending then s.claim
        else if timed && late then { s with waiting := false, consumer := .idle }
        else { s with consumer := .waiting timed .asleep })
  | .poll =>
    if s.consumer = .idle then some (if s.pending then { s with received := s.issued } else s) else none

/-- What a step returns to the consumer. -/
def reply (s : State τ) : Action τ → Option Bool
  | .wait _ => if s.pending then some true else none
  | .resume late =>
    match s.consumer with
    | .idle => none
    | .waiting timed _ => if s.pending then some true else if timed && late then some false else none
  | .poll => some (decide s.pending)
  | _ => none

/-- No wake-up is lost, and no signaller is left behind. -/
structure Heard (s : State τ) : Prop where
  coalesce : s.received ≤ s.issued ∧ s.issued ≤ s.received + 1
  /-- a `wakeup` leaves a token that is pending until a call returns `True` -/
  kept : ∀ t s₁, step s (.wakeup t) = some s₁ → ∀ as s₂, exec step s₁ as = some s₂ →
    true ∈ replies step reply s₁ as ∨ s₂.pending
  next : s.pending → Sure step reply s ∧
    (s.consumer = .idle → reply s .poll = some true ∧ ∀ timed, reply s (.wait timed) = some true)
  /-- a token that was not received is claimed by the consumer, which is awake -/
  blocked : ∀ t token notified, s.signallers t = .blocked token notified → token ≤ s.received ∨
    s.pending ∧ ∃ timed sleep, s.consumer = .waiting timed sleep ∧ sleep ≠ .asleep
  left : s.consumer = .idle → ∀ t token notified, s.signallers t = .blocked token notified →
    ∃ s', step s (.rejoin t) = some s' ∧ s'.signallers t = .idle

/-! ### The invariant -/

structure Inv (s : State τ) : Prop where
  le : s.received ≤ s.issued ∧ s.issued ≤ s.received + 1
  waiting : s.waiting = true ↔ s.consumer ≠ .idle
  issued : ∀ t token notified, s.signallers t = .blocked token notified → token ≤ s.issued
  /-- who waits for a token that is not received finds the consumer in `wait` -/
  inside : ∀ t token notified, s.signallers t = .blocked token notified →
    s.received < token → s.waiting = true
  /-- nobody sleeps who could go on -/
  notified : ∀ t token notified, s.signallers t = .blocked token notified →
    token ≤ s.received → notified = true
  awake : ∀ timed, s.consumer = .waiting timed .asleep → s.issued = s.received

variable {s s' : State τ}

omit [DecidableEq τ] in
theorem notifyAll_blocked {t : τ} {token : Nat} {notified : Bool} :
    s.notifyAll.signallers t = .blocked token notified → notified = true ∧
      ∃ before, s.signallers t = .blocked token before := by
  intro h
  simp only [State.notifyAll] at h
  split at h
  · rename_i token' before hs
    cases h
    exact ⟨rfl, before, hs⟩
  · cases h

theorem setSignaller_blocked {t u : τ} {x : Signaller} {token : Nat} {notified : Bool}
    (h : (s.setSignaller t x).signallers u = .blocked token notified) :
    x = .blocked token notified ∨ s.signallers u = .blocked token notified := by
  by_cases hu : u = t
  · subst hu
    left
    simpa [State.setSignaller] using h
  · right
    simpa [State.setSignaller, hu] using h

namespace Inv

omit [DecidableEq τ] in
theorem init : Inv ({} : State τ) :=
  ⟨⟨Nat.le_refl 0, Nat.zero_le 1⟩, by simp, nofun, nofun, nofun, nofun⟩

theorem setSignaller (h : Inv s) (t : τ) {x : Signaller}
    (hx : ∀ token notified, x = .blocked token notified → token ≤ s.issued ∧
      (s.received < token → s.waiting = true) ∧
      (token ≤ s.received → notified = true)) : Inv (s.setSignaller t x) := by
  refine ⟨h.le, h.waiting, ?_, ?_, ?_, h.awake⟩
  · intro u token notified hu
    rcases setSignaller_blocked hu with heq | hs
    · exact (hx token notified heq).1
    · exact h.issued u token notified hs
  · intro u token notified hu
    rcases setSignaller_blocked hu with heq | hs
    · exact (hx token notified heq).2.1
    · exact h.inside u token notified hs
  · intro u token notified hu
    rcases setSignaller_blocked hu with heq | hs
    · exact (hx token notified heq).2.2
    · exact h.notified u token notified hs

omit [DecidableEq τ] in
theorem issue (h : Inv s) : Inv s.issue := by
  unfold State.issue
  split
  · rename_i heq
    dsimp only
    split
    · rename_i hwaiting
      refine ⟨⟨?_, ?_⟩, ?_, ?_, ?_, ?_, ?_⟩
      · exact h.le.1.trans (Nat.le_succ _)
      · exact Nat.succ_le_succ heq.le
      · rw [show ({ s with issued := s.issued + 1 } : State τ).notifyAll.waiting =
          s.waiting from rfl, h.waiting]
        cases hc : s.consumer with
        | idle => simp [State.notifyAll]
        | waiting timed sleep => cases sleep <;> simp [State.notifyAll]
      · intro t token notified hs
        rcases notifyAll_blocked hs with ⟨-, before, hbefore⟩
        exact (h.issued t token before hbefore).trans (Nat.le_succ _)
      · intro t token notified hs _
        exact hwaiting
      · intro t token notified hs _
        exact (notifyAll_blocked hs).1
      · intro timed hs
        simp only [State.notifyAll] at hs
        cases hc : s.consumer with
        | idle => simp [hc] at hs
        | waiting timed' sleep => cases sleep <;> simp [hc] at hs
    · rename_i hwaiting
      refine ⟨⟨h.le.1.trans (Nat.le_succ _), Nat.succ_le_succ heq.le⟩, h.waiting, ?_,
        h.inside, h.notified, ?_⟩
      · intro t token notified hs
        exact (h.issued t token notified hs).trans (Nat.le_succ _)
      · intro timed hs
        refine absurd (h.waiting.mpr ?_) hwaiting
        rw [show s.consumer = _ from hs]
        exact nofun
  · exact h

omit [DecidableEq τ] in
theorem issue_pending (h : Inv s) : s.issue.pending := by
  unfold State.issue State.pending
  split
  · rename_i heq
    dsimp only
    split
    · exact Nat.lt_succ_of_le heq.ge
    · exact Nat.lt_succ_of_le heq.ge
  · rename_i hne
    exact Nat.lt_of_le_of_ne h.le.1 (Ne.symm hne)

theorem wakeup (h : Inv s) (t : τ) : Inv (s.wakeup t) ∧ (s.wakeup t).pending := by
  have hi := h.issue
  have hpending : s.issue.received < s.issue.issued := h.issue_pending
  unfold State.wakeup
  dsimp only
  split
  · rename_i hwaiting
    rw [if_neg (Nat.not_le.mpr hpending)]
    refine ⟨hi.setSignaller t fun token notified heq => ?_, hpending⟩
    cases heq
    exact ⟨Nat.le_refl _, fun _ => hwaiting, fun hle => absurd hpending (Nat.not_lt.mpr hle)⟩
  · exact ⟨hi, hpending⟩

omit [DecidableEq τ] in
theorem claim (h : Inv s) : Inv s.claim := by
  refine ⟨⟨Nat.le_refl _, Nat.le_succ _⟩, by simp [State.claim], ?_, ?_, ?_, nofun⟩
  · intro t token notified hs
    rcases notifyAll_blocked (s := { s with received := s.issued }) hs with ⟨-, before, hbefore⟩
    exact h.issued t token before hbefore
  · intro t token notified hs hlt
    rcases notifyAll_blocked (s := { s with received := s.issued }) hs with ⟨-, before, hbefore⟩
    exact absurd (h.issued t token before hbefore) (Nat.not_le.mpr hlt)
  · intro t token notified hs _
    exact (notifyAll_blocked (s := { s with received := s.issued }) hs).1

omit [DecidableEq τ] in
theorem equal (h : Inv s) (hp : ¬ s.pending) : s.issued = s.received :=
  Nat.le_antisymm (Nat.not_lt.mp hp) h.le.1

omit [DecidableEq τ] in
theorem setConsumer (h : Inv s) (hp : ¬ s.pending) (b : Bool) (c : Consumer) (hc : b = true ↔ c ≠ .idle) :
    Inv { s with waiting := b, consumer := c } := by
  refine ⟨h.le, hc, h.issued, ?_, h.notified, fun _ _ => h.equal hp⟩
  intro t token notified hs hlt
  have hle := h.issued t token notified hs
  rw [h.equal hp] at hle
  exact absurd hle (Nat.not_le.mpr hlt)

/-- A token is received by the wait in progress, or by the next. -/
theorem step {a : Action τ} (h : Inv s) (hs : Token.step s a = some s') : Inv s' := by
  cases a with
  | wakeup t =>
    simp only [Token.step] at hs
    split at hs
    · cases hs
      exact (h.wakeup t).1
    · cases hs
  | rejoin t =>
    simp only [Token.step] at hs
    split at hs
    · rename_i token ht
      cases hs
      split
      · exact h.setSignaller t nofun
      · rename_i hlt
        refine h.setSignaller t fun token' notified heq => ?_
        cases heq
        exact ⟨h.issued t _ _ ht, h.inside t _ _ ht, fun hle => absurd hle hlt⟩
    · cases hs
  | wait timed =>
    simp only [Token.step] at hs
    split at hs
    · cases hs
      split
      · exact h.claim
      · rename_i hp
        exact h.setConsumer hp true _ (by simp)
    · cases hs
  | expire =>
    simp only [Token.step] at hs
    split at hs
    · rename_i hc
      cases hs
      refine ⟨h.le, ?_, h.issued, h.inside, h.notified, nofun⟩
      have hwaiting : s.waiting = true := h.waiting.mpr (by rw [hc]; exact nofun)
      simp [hwaiting]
    · cases hs
  | resume late =>
    simp only [Token.step] at hs
    split at hs
    · cases hs
    · cases hs
    · rename_i timed sleep _ hc
      cases hs
      split
      · exact h.claim
      · rename_i hp
        split
        · exact h.setConsumer hp false _ (by simp)
        · have hwaiting : s.waiting = true := h.waiting.mpr (by rw [hc]; exact nofun)
          have hagain := h.setConsumer hp true (.waiting timed .asleep) (by simp)
          rwa [← hwaiting] at hagain
  | poll =>
    simp only [Token.step] at hs
    split at hs
    · rename_i hidle
      cases hs
      split
      · -- no signaller waits for the token that is consumed
        have hout : ∀ t token notified, s.signallers t = .blocked token notified → token ≤ s.received := by
          intro t token notified ht
          by_contra hlt
          exact h.waiting.mp (h.inside t token notified ht (Nat.not_le.mp hlt)) hidle
        refine ⟨⟨Nat.le_refl _, Nat.le_succ _⟩, h.waiting, h.issued, ?_, ?_, fun _ _ => rfl⟩
        · intro t token notified ht hlt
          exact absurd (h.issued t token notified ht) (Nat.not_le.mpr hlt)
        · intro t token notified ht _
          exact h.notified t token notified ht (hout t token notified ht)
      · exact h
    · cases hs

end Inv

/-! ### What is pending is returned -/

theorem pending_step {a : Action τ} (hp : s.pending) (hs : step s a = some s') :
    reply s a = some true ∨ reply s a = none ∧ s'.pending := by
  cases a with
  | wakeup t =>
    simp only [step] at hs
    split at hs
    · cases hs
      refine .inr ⟨rfl, ?_⟩
      have hne : s.issued ≠ s.received := (Nat.ne_of_lt hp).symm
      unfold State.wakeup State.issue
      rw [if_neg hne]
      dsimp only
      split
      · split <;> exact hp
      · exact hp
    · cases hs
  | rejoin t =>
    simp only [step] at hs
    split at hs
    · cases hs
      refine .inr ⟨rfl, ?_⟩
      split <;> exact hp
    · cases hs
  | wait timed => exact .inl (if_pos hp)
  | expire =>
    simp only [step] at hs
    split at hs
    · cases hs
      exact .inr ⟨rfl, hp⟩
    · cases hs
  | resume late =>
    left
    simp only [step] at hs
    split at hs
    · cases hs
    · cases hs
    · rename_i timed sleep _ hc
      simp only [reply, hc, if_pos hp]
  | poll => exact .inl (by simp [reply, hp])

theorem Inv.heard (h : Inv s) : Heard s := by
  refine ⟨h.le, ?_, ?_, ?_, ?_⟩
  · intro t s₁ hs as s₂ he
    have hpending : s₁.pending := by
      simp only [Token.step] at hs
      split at hs
      · cases hs
        exact (h.wakeup t).2
      · cases hs
    exact Replies.kept (P := State.pending) (fun _ _ _ hp hs =>
      (pending_step hp hs).imp_right And.right) hpending he
  · intro hp
    refine ⟨sure_of (P := State.pending) (fun _ _ _ hp hs => pending_step hp hs) hp,
      fun _ => ⟨?_, fun _ => if_pos hp⟩⟩
    simp [reply, hp]
  · intro t token notified ht
    by_cases hle : token ≤ s.received
    · exact .inl hle
    · right
      have hlt := Nat.not_le.mp hle
      have hp : s.pending := hlt.trans_le (h.issued t token notified ht)
      refine ⟨hp, ?_⟩
      have hc := h.waiting.mp (h.inside t token notified ht hlt)
      cases hcons : s.consumer with
      | idle => exact absurd hcons hc
      | waiting timed sleep =>
        refine ⟨timed, sleep, rfl, ?_⟩
        rintro rfl
        exact absurd (h.awake timed hcons) (Nat.ne_of_gt hp)
  · intro hidle t token notified ht
    -- the consumer has left, and so the token was received
    have hle : token ≤ s.received := by
      by_contra hlt
      exact h.waiting.mp (h.inside t token notified ht (Nat.not_le.mp hlt)) hidle
    cases h.notified t token notified ht hle
    refine ⟨s.setSignaller t .idle, ?_, by simp [State.setSignaller]⟩
    simp only [Token.step, ht, if_pos hle]

end Token

/-! ## An event -/

namespace Event

/-- Where the consumer is. -/
inductive Consumer
  | idle
  /-- in `Event.wait` -/
  | waiting (timed : Bool)
  /-- it has found the event set, and clears it next -/
  | woke
  /-- it has cleared the event -/
  | cleared
  /-- its time was up, or the event was not set -/
  | missed
  deriving DecidableEq, Repr

structure State where
  flag : Bool := false
  consumer : Consumer := .idle
  deriving DecidableEq, Repr

inductive Action
  /-- of any thread -/
  | wakeup
  /-- `Event.wait` is called -/
  | wait (timed : Bool)
  /-- `Event.wait` returns `True` to a consumer that has slept -/
  | rouse
  /-- and `False`; the event may have been set since the time was up -/
  | expire
  /-- `is_set`, in `poll` -/
  | poll
  | clear
  | leave
  deriving DecidableEq, Repr

def step (s : State) : Action → Option State
  | .wakeup => some { s with flag := true }
  | .wait timed =>
    if s.consumer = .idle then
      some { s with consumer := if s.flag then .woke else .waiting timed } else none
  | .rouse =>
    match s.consumer with
    | .waiting _ => if s.flag then some { s with consumer := .woke } else none
    | _ => none
  | .expire => if s.consumer = .waiting true then some { s with consumer := .missed } else none
  | .poll =>
    if s.consumer = .idle then some { s with consumer := if s.flag then .woke else .missed } else
      none
  | .clear => if s.consumer = .woke then some { flag := false, consumer := .cleared } else none
  | .leave =>
    if s.consumer = .cleared ∨ s.consumer = .missed then some { s with consumer := .idle } else none

/-- What a step returns to the consumer. -/
def reply (s : State) : Action → Option Bool
  | .leave =>
    match s.consumer with
    | .cleared => some true
    | .missed => some false
    | _ => none
  | _ => none

/-- A call has found the event set. -/
def State.taking (s : State) : Prop :=
  s.consumer = .woke ∨ s.consumer = .cleared

/-- No wake-up is lost. -/
structure Heard (s : State) : Prop where
  /-- a `wakeup` leaves the event set, until a call has found it or returns `True` -/
  kept : ∀ s₁, step s .wakeup = some s₁ → ∀ as s₂, exec step s₁ as = some s₂ →
    true ∈ replies step reply s₁ as ∨ s₂.flag = true ∨ s₂.taking
  /-- the next call finds it -/
  next : s.flag = true → s.consumer = .idle → Sure step reply s ∧
    (∃ s', step s .poll = some s' ∧ s'.taking) ∧ ∀ timed, ∃ s', step s (.wait timed) = some s' ∧ s'.taking
  /-- and a call that sleeps can go on -/
  asleep : s.flag = true → ∀ timed, s.consumer = .waiting timed → ∃ s', step s .rouse = some s' ∧ s'.taking
  /-- a call that has found it returns `True` -/
  found : s.taking → Sure step reply s ∧ (s.consumer = .woke → ∃ s', step s .clear = some s' ∧
    s'.consumer = .cleared) ∧
    (s.consumer = .cleared → reply s .leave = some true)

variable {s s' : State} {a : Action}

theorem taking_step (h : s.taking) (hs : step s a = some s') : reply s a = some true ∨
    reply s a = none ∧ s'.taking := by
  rcases s with ⟨flag, consumer⟩
  simp only [State.taking] at h
  rcases h with rfl | rfl
  · -- nothing but the clear is possible for the consumer
    cases a <;> simp only [step, reduceCtorEq, if_false, if_true, or_self, Option.some.injEq] at hs
    · exact .inr ⟨rfl, hs ▸ .inl rfl⟩
    · exact .inr ⟨rfl, hs ▸ .inr rfl⟩
  · cases a <;> simp only [step, reduceCtorEq, if_false, Option.some.injEq] at hs
    · exact .inr ⟨rfl, hs ▸ .inr rfl⟩
    · exact .inl rfl

theorem set_step (h : s.flag = true ∨ s.taking) (hs : step s a = some s') :
    reply s a = some true ∨ s'.flag = true ∨ s'.taking := by
  by_cases ht : s.taking
  · exact (taking_step ht hs).imp_right fun h => .inr h.2
  · have hflag : s.flag = true := h.resolve_right ht
    right
    cases a with
    | wakeup =>
      cases hs
      exact .inl rfl
    | clear =>
      simp only [step] at hs
      split at hs
      · rename_i hwoke
        exact absurd (.inl hwoke) ht
      · cases hs
    | rouse =>
      simp only [step, hflag, if_true] at hs
      split at hs
      · cases hs
        exact .inl rfl
      · cases hs
    | _ =>
      simp only [step] at hs
      split at hs
      · cases hs
        exact .inl hflag
      · cases hs

theorem ready_step (h : s.flag = true ∧ s.consumer = .idle ∨ s.taking) (hs : step s a = some s') :
    reply s a = some true ∨ reply s a = none ∧ (s'.flag = true ∧ s'.consumer = .idle ∨ s'.taking) := by
  rcases h with ⟨hflag, hidle⟩ | ht
  · right
    rcases s with ⟨flag, consumer⟩
    cases hflag
    cases hidle
    cases a <;> simp only [step, reduceCtorEq, if_false, if_true, or_self, Option.some.injEq] at hs
    · exact ⟨rfl, hs ▸ .inl ⟨rfl, rfl⟩⟩
    · exact ⟨rfl, hs ▸ .inr (.inl rfl)⟩
    · exact ⟨rfl, hs ▸ .inr (.inl rfl)⟩
  · exact (taking_step ht hs).imp_right fun h => ⟨h.1, .inr h.2⟩

theorem heard (s : State) : Heard s := by
  refine ⟨?_, ?_, ?_, ?_⟩
  · intro s₁ hs as s₂ he
    cases hs
    exact Replies.kept (P := fun s => s.flag = true ∨ s.taking) (fun _ _ _ h hs => set_step h hs)
      (.inl rfl) he
  · intro hflag hidle
    refine ⟨sure_of (fun _ _ _ h hs => ready_step h hs) (.inl ⟨hflag, hidle⟩), ?_, fun timed => ?_⟩
    · refine ⟨_, if_pos hidle, .inl ?_⟩
      simp [hflag]
    · refine ⟨_, if_pos hidle, .inl ?_⟩
      simp [hflag]
  · intro hflag timed hc
    refine ⟨{ s with consumer := .woke }, ?_, .inl rfl⟩
    simp [step, hc, hflag]
  · intro ht
    refine ⟨sure_of (fun _ _ _ h hs => taking_step h hs) ht, fun hc => ⟨_, if_pos hc, rfl⟩, fun hc => ?_⟩
    simp [reply, hc]

end Event

/-! ## Both -/

end Pytealet.Scheduler.Wakeup
