import Mathlib.Data.List.Basic
import Mathlib.Logic.Function.Basic
import Pytealet.Lib.Transition

/-!
# CrossThread — `CrossThreadCondition` and `CrossThreadEvent` of `locks.py`

The lock is a `threading.Lock`, and what it guards is read and written by the tealets of one
scheduler and by other threads.  A call of `swait` has an event of its own.  `CrossThreadEvent.set`
runs `_set` at once in a live turn of the scheduler, and elsewhere leaves it to the scheduler's
callbacks.

`_set` runs on the thread of the tealets that wait, and so does not come between the test of an
event and the switch.  A tealet that waits for the lock stops its thread; here the other tealets may
go on, so that there are more runs.
-/

namespace Pytealet.Locks.CrossThread

open Lib.Transition Function List Option

/-- Where a tealet or a thread is with the lock, and with its call of `swait_for`. -/
inductive Phase
  | outside
  | holding
  /-- it has given up the lock, and has not tested its event -/
  | released (e : Nat)
  | parked (e : Nat)
  /-- in the `finally`: its event was set, or an exception has been thrown -/
  | leaving (e : Nat)
  | reacquiring
  deriving DecidableEq

structure State (τ σ : Type*) where
  data : σ
  /-- The data were changed, and not all that wait have been notified since. -/
  changed : Bool := false
  lock : Option τ := none
  waiters : List Nat := []
  /-- the events made so far -/
  events : Nat := 0
  isSet : Nat → Bool := fun _ => false
  /-- the calls of `_set` that the scheduler has queued -/
  queue : List Nat := []
  phase : τ → Phase := fun _ => .outside

inductive Act (τ σ : Type*)
  | acquire (t : τ)
  | release (t : τ)
  /-- the holder changes the data -/
  | publish (t : τ) (x : σ)
  /-- the holder changes the data, and makes no predicate true -/
  | consume (t : τ) (x : σ)
  /-- `live` says whether it is called in a live turn of the scheduler -/
  | notify (t : τ) (n : Nat) (live : Bool)
  /-- `swait`, where the predicate of `swait_for` does not hold -/
  | swait (t : τ)
  /-- `CrossThreadEvent.swait` -/
  | park (t : τ)
  /-- the scheduler runs the first `_set` of its queue -/
  | drain
  /-- an exception ends the wait -/
  | throw (t : τ)
  /-- the waiter is removed from `_waiters` -/
  | leave (t : τ)
  | reacquire (t : τ)

variable {τ σ : Type*} [DecidableEq τ]

namespace State

variable (s : State τ σ)

def go (t : τ) (p : Phase) : State τ σ :=
  { s with phase := update s.phase t p }

/-- `_set` of these events. -/
def sets (es : List Nat) : State τ σ :=
  { s with
    isSet := fun e => s.isSet e || e ∈ es
    phase := fun t =>
      match s.phase t with
      | .parked e => if e ∈ es then .leaving e else .parked e
      | p => p }

def notify (n : Nat) (live : Bool) : State τ σ :=
  let s' := { s with waiters := s.waiters.drop n, changed := s.changed && n < s.waiters.length }
  if live then s'.sets (s.waiters.take n) else { s' with queue := s.queue ++ s.waiters.take n }

end State

def init (data : σ) : State τ σ := { data := data }

/-- `ready` is the predicate that a tealet waits for. -/
def step (ready : τ → σ → Bool) (s : State τ σ) : Act τ σ → Option (State τ σ)
  | .acquire t => if s.lock = none ∧ s.phase t = .outside then
      some { s.go t .holding with lock := some t } else none
  | .release t => if s.lock = some t then some { s.go t .outside with lock := none } else none
  | .publish t x => if s.lock = some t then some { s with data := x, changed := true } else none
  | .consume t x => if s.lock = some t then some { s with data := x } else none
  | .notify t n live => if s.lock = some t then some (s.notify n live) else none
  | .swait t =>
    if s.lock = some t ∧ ready t s.data = false then
      some { s.go t (.released s.events) with
        waiters := s.waiters ++ [s.events], events := s.events + 1, lock := none }
    else none
  | .park t =>
    match s.phase t with
    | .released e => some (s.go t (if s.isSet e then .leaving e else .parked e))
    | _ => none
  | .drain =>
    match s.queue with
    | [] => none
    | e :: queue => some ({ s with queue := queue }.sets [e])
  | .throw t =>
    match s.phase t with
    | .released e | .parked e => some (s.go t (.leaving e))
    | _ => none
  | .leave t =>
    match s.phase t with
    | .leaving e => some { s.go t .reacquiring with waiters := s.waiters.erase e }
    | _ => none
  | .reacquire t =>
    if s.lock = none ∧ s.phase t = .reacquiring then some { s.go t .holding with lock := some t } else none

/-- All that wait are notified of a change before the lock is given up. -/
def Announces (ready : τ → σ → Bool) (s : State τ σ) : Act τ σ → Prop
  | .release _ | .swait _ => s.changed = false
  | .consume _ x => ∀ t, ready t x = true → ready t s.data = true
  | _ => True

/-- Nobody sleeps over a change: one that is parked has not been notified or its event is about to
be set, and where it has not been notified, and the lock is free, its predicate does not hold. -/
structure Sound (ready : τ → σ → Bool) (s : State τ σ) : Prop where
  exclusive : ∀ t, s.phase t = .holding ↔ s.lock = some t
  awaited : ∀ t e, s.phase t = .parked e → e ∈ s.waiters ∨ e ∈ s.queue
  idle : s.lock = none → ∀ t e, s.phase t = .parked e → e ∈ s.waiters → ready t s.data = false

/-! ## The invariant -/

/-- The tealet is in the call with this event. -/
def State.Calls (s : State τ σ) (t : τ) (e : Nat) : Prop :=
  s.phase t = .released e ∨ s.phase t = .parked e ∨ s.phase t = .leaving e

/-- A call with an event that is not set finds its event in one of the two lists. -/
structure Inv (ready : τ → σ → Bool) (s : State τ σ) : Prop where
  exclusive : ∀ t, s.phase t = .holding ↔ s.lock = some t
  settled : s.lock = none → s.changed = false
  known : ∀ t e, s.Calls t e → e < s.events
  own : ∀ t u e, s.Calls t e → s.Calls u e → t = u
  parked : ∀ t e, s.phase t = .parked e → e ∈ s.waiters ∨ e ∈ s.queue
  released : ∀ t e, s.phase t = .released e → e ∈ s.waiters ∨ e ∈ s.queue ∨ s.isSet e = true
  idle : s.changed = false → ∀ t e, s.phase t = .released e ∨ s.phase t = .parked e → e ∈ s.waiters →
    ready t s.data = false

section

variable {ready : τ → σ → Bool} {s s' : State τ σ}

omit [DecidableEq τ] in
theorem sets_phase (es : List Nat) (t : τ) :
    ((s.sets es).phase t = .holding ↔ s.phase t = .holding) ∧
      ∀ e, ((s.sets es).phase t = .released e ↔ s.phase t = .released e) ∧
        ((s.sets es).phase t = .parked e ↔ s.phase t = .parked e ∧ e ∉ es) ∧
        ((s.sets es).phase t = .leaving e ↔ s.phase t = .leaving e ∨ s.phase t = .parked e ∧ e ∈ es) := by
  simp only [State.sets]
  cases s.phase t <;> grind -ring -linarith

omit [DecidableEq τ] in
theorem Inv.sound (h : Inv ready s) : Sound ready s :=
  ⟨h.exclusive, h.parked, fun hlock t e hp he => h.idle (h.settled hlock) t e (.inr hp) he⟩

theorem phase_go (t : τ) (p : Phase) (u : τ) : (s.go t p).phase u = if u = t then p else s.phase u :=
  update_apply ..

/-- `t` goes on, in no call of `swait` but the one that it was in. -/
theorem Inv.moves (h : Inv ready s) {t : τ} {p : Phase} {lock : Option τ}
    (hex : ∀ u, (s.go t p).phase u = .holding ↔ lock = some u) (hset : lock = none → s.changed = false)
    (hp : ∀ e, p ≠ .released e ∧ (p = .leaving e → s.Calls t e) ∧
      (p = .parked e → s.phase t = .released e ∧ (e ∈ s.waiters ∨ e ∈ s.queue))) :
    Inv ready { s.go t p with lock := lock } := by
  have hreleased : ∀ u e, (s.go t p).phase u = .released e → s.phase u = .released e := by
    intro u e
    rw [phase_go]
    grind -ring -linarith
  have hparked : ∀ u e, (s.go t p).phase u = .parked e →
      s.phase u = .parked e ∨ s.phase u = .released e ∧ (e ∈ s.waiters ∨ e ∈ s.queue) := by
    intro u e
    rw [phase_go]
    grind -ring -linarith
  have hcalls : ∀ u e, (s.go t p).Calls u e → s.Calls u e := by
    rintro u e (hu | hu | hu)
    · exact .inl (hreleased u e hu)
    · exact (hparked u e hu).elim (fun hu => .inr (.inl hu)) fun hu => .inl hu.1
    · rw [phase_go] at hu
      grind -ring -linarith [State.Calls]
  exact {
    exclusive := hex
    settled := hset
    known := fun u e hu => h.known u e (hcalls u e hu)
    own := fun u v e hu hv => h.own u v e (hcalls u e hu) (hcalls v e hv)
    parked := fun u e hu => (hparked u e hu).elim (h.parked u e) And.right
    released := fun u e hu => h.released u e (hreleased u e hu)
    idle := fun hc u e hu => h.idle hc u e (hu.elim (fun hu => .inl (hreleased u e hu)) fun hu =>
      (hparked u e hu).elim .inr fun hu => .inl hu.1) }

theorem Inv.take (h : Inv ready s) {t : τ} (hlock : s.lock = none) :
    Inv ready { s.go t .holding with lock := some t } := by
  refine h.moves (fun u => ?_) (by simp) fun e => by simp
  have hu := h.exclusive u
  rw [phase_go]
  grind -ring -linarith

theorem Inv.release (h : Inv ready s) {t : τ} (hlock : s.lock = some t) (hchanged : s.changed = false) :
    Inv ready { s.go t .outside with lock := none } := by
  refine h.moves (fun u => ?_) (fun _ => hchanged) fun e => by simp
  have hu := h.exclusive u
  rw [phase_go]
  grind -ring -linarith

theorem Inv.swait (h : Inv ready s) {t : τ} (hlock : s.lock = some t) (hready : ready t s.data = false)
    (hchanged : s.changed = false) :
    Inv ready { s.go t (.released s.events) with
      waiters := s.waiters ++ [s.events], events := s.events + 1, lock := none } := by
  have hcalls : ∀ u e, (s.go t (.released s.events)).Calls u e → u = t ∧ e = s.events ∨ s.Calls u e := by
    intro u e
    simp only [State.Calls, phase_go]
    grind -ring -linarith
  -- the new event is in no other call
  have hother : ∀ u e, s.Calls u e → e ≠ s.events := fun u e hu => Nat.ne_of_lt (h.known u e hu)
  constructor
  case exclusive =>
    intro u
    have hu := h.exclusive u
    simp only [phase_go]
    grind -ring -linarith
  case settled => exact fun _ => hchanged
  case known =>
    intro u e hu
    rcases hcalls u e hu with ⟨-, rfl⟩ | hu
    · exact Nat.lt_succ_self _
    · exact Nat.lt_succ_of_lt (h.known u e hu)
  case own =>
    intro u v e hu hv
    rcases hcalls u e hu with ⟨hut, he⟩ | hu <;> rcases hcalls v e hv with ⟨hvt, he⟩ | hv
    · exact hut.trans hvt.symm
    · exact absurd he (hother v e hv)
    · exact absurd he (hother u e hu)
    · exact h.own u v e hu hv
  case parked =>
    intro u e hu
    rw [phase_go] at hu
    split at hu
    · cases hu
    · exact (h.parked u e hu).imp_left (mem_append_left _)
  case released =>
    intro u e hu
    rw [phase_go] at hu
    split at hu
    · exact .inl (mem_append_right _ (by simpa using hu.symm))
    · exact (h.released u e hu).imp_left (mem_append_left _)
  case idle =>
    intro _ u e hu he
    by_cases hut : u = t
    · exact hut ▸ hready
    · simp only [phase_go, if_neg hut] at hu
      refine h.idle hchanged u e hu ((mem_append.1 he).resolve_right fun he => ?_)
      exact hother u e (hu.imp_right .inl) (mem_singleton.1 he)

theorem Inv.goes (h : Inv ready s) {t : τ} {e : Nat} (hcall : s.Calls t e) {p : Phase}
    (hp : p = .reacquiring ∨ p = .leaving e ∨
      p = .parked e ∧ s.phase t = .released e ∧ (e ∈ s.waiters ∨ e ∈ s.queue)) : Inv ready (s.go t p) := by
  refine h.moves (fun u => ?_) h.settled fun d => ?_
  · -- one that is in a call does not hold the lock
    have hu := h.exclusive u
    rw [phase_go]
    grind -ring -linarith [State.Calls]
  · rcases hp with rfl | rfl | ⟨rfl, hp⟩
    · exact by simp
    · exact ⟨by simp, fun hd => Phase.leaving.inj hd ▸ hcall, by simp⟩
    · exact ⟨by simp, by simp, fun hd => Phase.parked.inj hd ▸ hp⟩

omit [DecidableEq τ] in
theorem sets_over {es : List Nat} {e : Nat} (he : e ∈ es) (t : τ) :
    (s.sets es).phase t ≠ .parked e ∧ ((s.sets es).phase t = .released e → (s.sets es).isSet e = true) :=
  ⟨fun hp => (((sets_phase es t).2 e).2.1.1 hp).2 he, fun _ => by simp [State.sets, he]⟩

omit [DecidableEq τ] in
theorem calls_of_sets {es : List Nat} {t : τ} {e : Nat} (h : (s.sets es).Calls t e) : s.Calls t e := by
  have hphase := (sets_phase (s := s) es t).2 e
  unfold State.Calls at h ⊢
  tauto

omit [DecidableEq τ] in
theorem Inv.sets (h : Inv ready s) (es : List Nat) : Inv ready (s.sets es) where
  exclusive t := (sets_phase es t).1.trans (h.exclusive t)
  settled := h.settled
  known t e hc := h.known t e (calls_of_sets hc)
  own t u e ht hu := h.own t u e (calls_of_sets ht) (calls_of_sets hu)
  parked t e hp := h.parked t e (((sets_phase es t).2 e).2.1.1 hp).1
  released t e hp :=
    (h.released t e (((sets_phase es t).2 e).1.1 hp)).imp_right
      (.imp_right fun hset => by simp [State.sets, hset])
  idle hc t e hp :=
    h.idle hc t e (hp.imp ((sets_phase es t).2 e).1.1 fun hp => (((sets_phase es t).2 e).2.1.1 hp).1)

omit [DecidableEq τ] in
/-- The lists change.  An event that has left both is set, or nobody is going to sleep on it. -/
theorem Inv.relist (h : Inv ready s) {w q : List Nat} {c : Bool}
    (hleft : ∀ e, e ∈ s.waiters ∨ e ∈ s.queue → e ∈ w ∨ e ∈ q ∨
      ∀ t, s.phase t ≠ .parked e ∧ (s.phase t = .released e → s.isSet e = true))
    (hset : s.lock = none → c = false) (hidle : c = false → ∀ e ∈ w, s.changed = false ∧ e ∈ s.waiters) :
    Inv ready { s with waiters := w, queue := q, changed := c } :=
  ⟨h.exclusive, hset, h.known, h.own, by grind [h.parked], by grind [h.released],
    fun hc t e hp he => h.idle (hidle hc e he).1 t e hp (hidle hc e he).2⟩

omit [DecidableEq τ] in
theorem Inv.notify (h : Inv ready s) {t : τ} (hlock : s.lock = some t) (n : Nat) (live : Bool) :
    Inv ready (s.notify n live) := by
  have hmem : ∀ e, e ∈ s.waiters ↔ e ∈ s.waiters.take n ∨ e ∈ s.waiters.drop n := by
    intro e
    rw [← mem_append, take_append_drop]
  have hset : s.lock = none → (s.changed && decide (n < s.waiters.length)) = false := by simp [hlock]
  have hidle : (s.changed && decide (n < s.waiters.length)) = false → ∀ e ∈ s.waiters.drop n,
      s.changed = false ∧ e ∈ s.waiters := by
    intro hc e he
    have hn : n < s.waiters.length := by
      by_contra hn
      simp [drop_eq_nil_of_le (Nat.not_lt.1 hn)] at he
    simpa [hn, (hmem e).2 (.inr he)] using hc
  cases live with
  | true =>
    refine (h.sets (s.waiters.take n)).relist (q := s.queue) (fun e he => ?_) hset hidle
    rcases he with he | he
    · exact ((hmem e).1 he).elim (fun he => .inr (.inr (sets_over he))) .inl
    · exact .inr (.inl he)
  | false => exact h.relist (by grind) hset hidle

/-- A change is announced before the lock is given up, so that nobody parks behind it. -/
theorem Inv.step (h : Inv ready s) {a : Act τ σ} (hok : Announces ready s a)
    (hs : step ready s a = some s') :
    Inv ready s' := by
  cases a with
  | acquire t =>
    obtain ⟨⟨hlock, -⟩, ⟨⟩⟩ := ite_none_right_eq_some.1 hs
    exact h.take hlock
  | release t =>
    obtain ⟨hlock, ⟨⟩⟩ := ite_none_right_eq_some.1 hs
    exact h.release hlock hok
  | publish t x =>
    obtain ⟨hlock, ⟨⟩⟩ := ite_none_right_eq_some.1 hs
    exact ⟨h.exclusive, by simp [hlock], h.known, h.own, h.parked, h.released, by simp⟩
  | consume t x =>
    obtain ⟨hlock, ⟨⟩⟩ := ite_none_right_eq_some.1 hs
    refine ⟨h.exclusive, h.settled, h.known, h.own, h.parked, h.released, fun hc u e hp he => ?_⟩
    exact Bool.eq_false_iff.2 fun hready => Bool.eq_false_iff.1 (h.idle hc u e hp he) (hok u hready)
  | notify t n live =>
    obtain ⟨hlock, ⟨⟩⟩ := ite_none_right_eq_some.1 hs
    exact h.notify hlock n live
  | swait t =>
    obtain ⟨⟨hlock, hready⟩, ⟨⟩⟩ := ite_none_right_eq_some.1 hs
    exact h.swait hlock hready hok
  | park t =>
    simp only [CrossThread.step] at hs
    split at hs <;> cases hs
    rename_i e hphase
    have hreleased := h.released t e hphase
    exact h.goes (.inl hphase) (by grind)
  | drain =>
    simp only [CrossThread.step] at hs
    split at hs <;> cases hs
    rename_i e queue hqueue
    have hover := sets_over (s := s) (mem_singleton_self e)
    refine (h.sets [e]).relist (w := s.waiters) (fun d hd => ?_) h.settled fun hc _ he => ⟨hc, he⟩
    rcases hd with hd | hd
    · exact .inl hd
    · rw [show (s.sets [e]).queue = e :: queue from hqueue] at hd
      exact (mem_cons.1 hd).elim (fun hd => .inr (.inr (hd ▸ hover))) fun hd => .inr (.inl hd)
  | throw t =>
    simp only [CrossThread.step] at hs
    split at hs <;> cases hs
    · exact h.goes (.inl ‹_›) (.inr (.inl rfl))
    · exact h.goes (.inr (.inl ‹_›)) (.inr (.inl rfl))
  | leave t =>
    simp only [CrossThread.step] at hs
    split at hs <;> cases hs
    rename_i e hphase
    refine (h.goes (p := .reacquiring) (.inr (.inr hphase)) (.inl rfl)).relist
      (q := s.queue) (fun d hd => ?_)
      h.settled fun hc d hd => ⟨hc, mem_of_mem_erase hd⟩
    rcases hd with hd | hd
    · by_cases hde : d = e
      · -- nobody else is in the call with this event
        refine .inr (.inr fun u => ?_)
        have hown := h.own u t d
        simp only [State.go, update_apply]
        grind [State.Calls]
      · exact .inl ((mem_erase_of_ne hde).2 hd)
    · exact .inr (.inl hd)
  | reacquire t =>
    obtain ⟨⟨hlock, -⟩, ⟨⟩⟩ := ite_none_right_eq_some.1 hs
    exact h.take hlock

end

/-- In every run in which all that wait are notified of each change, nobody sleeps over one. -/
theorem nobody_sleeps_over_a_change (ready : τ → σ → Bool) (data : σ) (as : List (Act τ σ))
    (hannounced : Along (step ready) (Announces ready) (init data) as) :
    Always (step ready) (Sound ready) (init data) as :=
  always_of_along (I := Inv ready) (fun _ hI => hI.sound) (fun _ _ _ hI hok hs => hI.step hok hs) as _
    (by constructor <;> simp [init, State.Calls]) hannounced

/-- A tealet waits for a number; a thread puts one before the tealet has parked. -/
theorem nobody_sleeps_over_a_change_early :
    Played (step fun _ x => 0 < x) (Always (step fun _ x => 0 < x) (Sound fun _ x => 0 < x))
      (init 0 : State Bool Nat)
      [.acquire true, .swait true, .acquire false, .publish false 7, .notify false 1 false,
        .release false, .park true,
        .drain, .leave true, .reacquire true, .consume true 0, .release true] := by
  refine ⟨nobody_sleeps_over_a_change _ _ _ ?_, rfl⟩
  simp [Along, step, init, Announces, State.go, State.notify, State.sets, update]

end Pytealet.Locks.CrossThread
