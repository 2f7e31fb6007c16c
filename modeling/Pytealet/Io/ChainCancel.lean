import Mathlib.Data.List.Perm.Basic
import Pytealet.Io.ChainOwnership

/-!
# ChainCancel — an interrupted `wait` leaves no leg in flight

A leg is open from `new_leg` until it has completed, failed or been cancelled.  As long as a leg is
started, and a completion stored, only while no leg is open, there is one open leg at most, and it
is the last one made.  So the `wait` that closes the chain finds it at the end of `_legs`; or it is
inside `follow`, which finds the chain closed and cancels it there.
-/

namespace Pytealet.Io.WaitChain

open Lib Lib.Transition List

/-- The leg may still be in flight, now or later, and no cancel has been asked for. -/
def Leg.isOpen (leg : Leg) : Bool :=
  (leg.phase = .created || leg.phase.armed) && !leg.cancelled

/-- The leg a frame is about. -/
def Frame.leg? : Frame → Option Nat
  | .created l | .submitting l | .cancelling l | .dropping l | .failing l => some l
  | _ => none

theorem Leg.isOpen_submitted (leg : Leg) :
    ({ leg with phase := leg.phase.submitted } : Leg).isOpen = leg.isOpen := by
  cases hphase : leg.phase <;> simp [Leg.isOpen, hphase, Phase.submitted, Phase.armed]

theorem Phase.submitted_ne (p : Phase) : p.submitted ≠ .submitting := by
  cases p <;> simp [Phase.submitted]

theorem Phase.of_submitted_ended {p : Phase} (hended : p.submitted = .completed ∨ p.submitted = .failed) :
    p = .completed ∨ p = .failed := by
  cases p <;> simp_all [Phase.submitted]

namespace State

/-- Some task is at `f`. -/
def doing (s : State) (f : Frame) : Prop :=
  ∃ t ∈ s.tasks, t.frame = f

instance (s : State) (f : Frame) : Decidable (s.doing f) :=
  inferInstanceAs (Decidable (∃ t ∈ s.tasks, t.frame = f))

/-- No leg is open. -/
def Clear (s : State) : Prop :=
  ∀ leg ∈ s.legs, leg.isOpen = false
deriving Decidable

/-- A leg is started, and a completion stored, while no leg is open; and a `follow` that has been
refused finds nothing stored. -/
def Linear (s : State) : Action → Prop
  | .follow _ _ => s.closed = false → s.completion = none → s.Clear
  | .check _ => s.completion = none
  | .settle _ | .finish _ _ | .err _ => s.completion = none → s.Clear
  | _ => True

instance (s : State) (a : Action) : Decidable (s.Linear a) := by
  unfold Linear
  split <;> infer_instance

/-- Where a leg stands. -/
structure LegOk (s : State) (l : Nat) (leg : Leg) : Prop where
  last : leg.isOpen = true → l + 1 = s.legs.length
  unsettled : leg.isOpen = true → s.completion = none
  handle : leg.phase = .inFlight → s.closed = false → s.completion = none → leg.handle = true
  submitting : leg.phase = .submitting → s.doing (.submitting l) ∨ l = 0 ∧ s.bound = false
  /-- who is going to cancel it, once the chain is closed -/
  closing : leg.isOpen = true → s.closed = true → leg.phase = .created ∨ s.doing (.submitting l) ∨
    s.doing (.cancelling l) ∨ s.waiter = .taking (some l) ∧ leg.handle = true ∨ s.waiter = .cancelling l
  /-- a leg that has ended is going to be cleaned up, or owns nothing -/
  ended : leg.phase = .completed ∨ leg.phase = .failed →
    leg.owned = [] ∨ s.doing (.failing l) ∨ s.doing (.dropping l)

structure Closing (s : State) : Prop where
  stored : s.stored = if s.completion.isSome then 1 else 0
  leg : ∀ l leg, s.legs[l]? = some leg → s.LegOk l leg
  tracked : s.closed = false → s.completion = none → s.tracked = List.range s.legs.length
  start : s.legs = [] → s.completion = none ∧ s.tasks = [] ∧ s.bound = false
  unbound : s.bound = false → s.closed = false ∧ s.interrupted = false ∧ s.waiter = .idle
  taking : ∀ l, s.waiter = .taking (some l) → s.closed = true
  ends : (∃ tail, s.waiter = .taking tail) ∨ (∃ l, s.waiter = .cancelling l) ∨ s.waiter = .leaving ∨
    s.interrupted = true → s.closed = true ∨ s.completion.isSome = true
  released : s.interrupted = true → s.tracked = [] ∧ (∀ l, s.waiter ≠ .taking (some l)) ∧
    ∀ l, s.waiter ≠ .cancelling l

variable {s s' : State} {i l : Nat} {t t' : Task} {leg leg' : Leg} {f : Frame}

/-! ## Tasks -/

theorem doing_set (ht : s.tasks[i]? = some t) (hne : f ≠ t.frame) (hd : s.doing f) (t' : Task) :
    ∃ u ∈ s.tasks.set i t', u.frame = f := by
  rcases hd with ⟨u, hu, rfl⟩
  rcases List.getElem?_of_mem hu with ⟨j, hj⟩
  have hij : i ≠ j := by
    rintro rfl
    rw [ht] at hj
    cases hj
    exact hne rfl
  exact ⟨u, mem_of_getElem? (by rw [List.getElem?_set_ne hij]; exact hj), rfl⟩

theorem doing_set_self (ht : s.tasks[i]? = some t) (t' : Task) :
    ∃ u ∈ s.tasks.set i t', u.frame = t'.frame := by
  rcases List.getElem?_eq_some_iff.1 ht with ⟨hi, -⟩
  exact ⟨t', mem_of_getElem? (List.getElem?_set_self hi), rfl⟩

theorem doing_erase (ht : s.tasks[i]? = some t) (hne : f ≠ t.frame) (hd : s.doing f) :
    ∃ u ∈ s.tasks.eraseIdx i, u.frame = f := by
  rcases hd with ⟨u, hu, rfl⟩
  rcases List.getElem?_eq_some_iff.1 ht with ⟨hi, hget⟩
  have hperm := getElem_cons_eraseIdx_perm hi
  rw [hget] at hperm
  rcases mem_cons.1 (hperm.mem_iff.2 hu) with rfl | hmem
  · exact absurd rfl hne
  · exact ⟨u, hmem, rfl⟩

/-! ## Legs -/

theorem LegOk.mono (hL : s.LegOk l leg) (hdoing : ∀ f, f.leg? = some l → s.doing f → s'.doing f)
    (hclosed : s'.closed = s.closed) (hcompletion : s'.completion = s.completion)
    (hbound : s'.bound = s.bound)
    (hwaiter : s'.waiter = s.waiter) (hlen : s'.legs.length = s.legs.length) : s'.LegOk l leg where
  last := by
    rw [hlen]
    exact hL.last
  unsettled := by
    rw [hcompletion]
    exact hL.unsettled
  handle := by
    rw [hclosed, hcompletion]
    exact hL.handle
  submitting := fun hphase => by
    rw [hbound]
    exact (hL.submitting hphase).imp_left (hdoing _ rfl)
  closing := fun hopen hclose => by
    rw [hclosed] at hclose
    rw [hwaiter]
    exact (hL.closing hopen hclose).imp_right (Or.imp (hdoing _ rfl) (Or.imp_left (hdoing _ rfl)))
  ended := fun hphase => (hL.ended hphase).imp_right (Or.imp (hdoing _ rfl) (hdoing _ rfl))

theorem LegOk.of_ended (hopen : leg.isOpen = false) (harmed : leg.phase.armed = false)
    (hended : leg.owned = [] ∨ s.doing (.failing l) ∨ s.doing (.dropping l)) : s.LegOk l leg where
  last := by simp [hopen]
  unsettled := by simp [hopen]
  handle := fun hphase => by simp [hphase, Phase.armed] at harmed
  submitting := fun hphase => by simp [hphase, Phase.armed] at harmed
  closing := by simp [hopen]
  ended := fun _ => hended

namespace Closing

theorem of_legs (hC : s.Closing) (hstored : s'.stored = s.stored) (hclosed : s'.closed = s.closed)
    (hcompletion : s'.completion = s.completion) (hbound : s'.bound = s.bound)
    (hwaiter : s'.waiter = s.waiter)
    (hinterrupted : s'.interrupted = s.interrupted) (htracked : s'.tracked = s.tracked)
    (hlen : s'.legs.length = s.legs.length) (hne : s.legs ≠ [])
    (hleg : ∀ l leg, s'.legs[l]? = some leg → s'.LegOk l leg) : s'.Closing where
  stored := by
    rw [hstored, hcompletion]
    exact hC.stored
  leg := hleg
  tracked := by
    rw [hclosed, hcompletion, htracked, hlen]
    exact hC.tracked
  start := fun hnil => by
    rw [hnil, length_nil] at hlen
    exact absurd (length_eq_zero_iff.1 hlen.symm) hne
  unbound := by
    rw [hbound, hclosed, hinterrupted, hwaiter]
    exact hC.unbound
  taking := by
    rw [hwaiter, hclosed]
    exact hC.taking
  ends := by
    rw [hwaiter, hinterrupted, hclosed, hcompletion]
    exact hC.ends
  released := by
    rw [hinterrupted, htracked, hwaiter]
    exact hC.released

theorem ne_nil (hl : s.legs[l]? = some leg) : s.legs ≠ [] := by
  rintro hnil
  simp [hnil] at hl

theorem ne_nil_of_task (hC : s.Closing) (ht : s.tasks[i]? = some t) : s.legs ≠ [] := by
  intro hnil
  have htasks := (hC.start hnil).2.1
  simp [htasks] at ht

theorem plainTask (hC : s.Closing) (ht : s.tasks[i]? = some t) (hframe : t.frame.leg? = none) (t' : Task) :
    (s.setTask i t').Closing := by
  refine hC.of_legs rfl rfl rfl rfl rfl rfl rfl rfl (hC.ne_nil_of_task ht) fun l leg hl => ?_
  refine (hC.leg l leg hl).mono (fun f hf hd => ?_) rfl rfl rfl rfl rfl
  refine doing_set ht ?_ hd t'
  rintro rfl
  rw [hframe] at hf
  cases hf

theorem erase (hC : s.Closing) (ht : s.tasks[i]? = some t) (hframe : t.frame.leg? = none) :
    ({ s with tasks := s.tasks.eraseIdx i } : State).Closing := by
  refine hC.of_legs rfl rfl rfl rfl rfl rfl rfl rfl (hC.ne_nil_of_task ht) fun l leg hl => ?_
  refine (hC.leg l leg hl).mono (fun f hf hd => ?_) rfl rfl rfl rfl rfl
  refine doing_erase ht ?_ hd
  rintro rfl
  rw [hframe] at hf
  cases hf

theorem legTask (hC : s.Closing) (ht : s.tasks[i]? = some t) (hframe : t.frame.leg? = some l)
    (hl : s.legs[l]? = some leg) (hown : ((s.setLeg l leg').setTask i t').LegOk l leg') :
    ((s.setLeg l leg').setTask i t').Closing := by
  refine hC.of_legs rfl rfl rfl rfl rfl rfl rfl (length_set ..) (ne_nil hl) fun k leg₁ hk => ?_
  by_cases hkl : l = k
  · subst hkl
    rcases List.getElem?_eq_some_iff.1 hl with ⟨hlt, -⟩
    have hleg : leg' = leg₁ := by
      have hset : (s.legs.set l leg')[l]? = some leg' := List.getElem?_set_self hlt
      exact Option.some.inj (hset.symm.trans hk)
    subst hleg
    exact hown
  · have hk' : s.legs[k]? = some leg₁ := by
      have hset : (s.legs.set l leg')[k]? = s.legs[k]? := List.getElem?_set_ne hkl
      exact hset.symm.trans hk
    refine (hC.leg k leg₁ hk').mono (fun f hf hd => ?_) rfl rfl rfl rfl (length_set ..)
    refine doing_set ht ?_ hd t'
    rintro rfl
    rw [hframe] at hf
    exact hkl (Option.some.inj hf)

theorem complete (hC : s.Closing) (hl : s.legs[l]? = some leg) (hphase : leg'.phase = .completed)
    (htask : t'.frame = .failing l ∨ leg'.owned = []) (n : Nat) :
    ({ s.setLeg l leg' with tasks := s.tasks ++ [t'], tokens := n } : State).Closing := by
  have hdoing : ∀ f, s.doing f → ∃ u ∈ s.tasks ++ [t'], u.frame = f := by
    rintro f ⟨u, hu, hf⟩
    exact ⟨u, mem_append_left _ hu, hf⟩
  refine hC.of_legs rfl rfl rfl rfl rfl rfl rfl (length_set ..) (ne_nil hl) fun k leg₁ hk => ?_
  change (s.legs.set l leg')[k]? = some leg₁ at hk
  by_cases hkl : l = k
  · subst hkl
    rcases List.getElem?_eq_some_iff.1 hl with ⟨hlt, -⟩
    rw [List.getElem?_set_self hlt] at hk
    cases hk
    refine LegOk.of_ended (by simp [Leg.isOpen, hphase, Phase.armed]) (by simp [hphase, Phase.armed]) ?_
    rcases htask with hframe | hnil
    · exact .inr (.inl ⟨t', mem_append_right _ (mem_cons_self ..), hframe⟩)
    · exact .inl hnil
  · rw [List.getElem?_set_ne hkl] at hk
    exact (hC.leg k leg₁ hk).mono (fun f _ => hdoing f) rfl rfl rfl rfl (length_set ..)

theorem store {c : Completion} (hC : s.Closing) (hclear : s.completion = none → s.Clear)
    (hne : s.legs ≠ []) :
    (s.store c).Closing := by
  cases hcompletion : s.completion with
  | some c' =>
    have heq : s.store c = s := by simp [State.store, hcompletion]
    rw [heq]
    exact hC
  | none =>
    have heq : s.store c = { s with completion := some c, stored := s.stored + 1 } := by
      simp [State.store, hcompletion]
    have hshut : ∀ {l : Nat} {leg : Leg}, s.legs[l]? = some leg → leg.isOpen = false := fun hl =>
      hclear hcompletion _ (mem_of_getElem? hl)
    rw [heq]
    refine ⟨?_, fun l leg hl => ?_, (fun _ hnone => by cases hnone), fun hnil => absurd hnil hne,
      hC.unbound, hC.taking,
      fun _ => .inr rfl, hC.released⟩
    · have hstored := hC.stored
      simp only [hcompletion] at hstored
      simp [hstored]
    · have hopen := hshut hl
      have hL := hC.leg l leg hl
      exact ⟨by simp [hopen], by simp [hopen], (fun _ _ hnone => by cases hnone), hL.submitting, by simp [hopen], hL.ended⟩

theorem release (hC : s.Closing) (hover : s.closed = true ∨ s.completion.isSome = true)
    (htaking : ∀ l, s.waiter ≠ .taking (some l)) : s.release.Closing := by
  have hlen : s.release.legs.length = s.legs.length := length_mapIdx ..
  refine ⟨hC.stored, fun l leg hl => ?_, fun hclosed hnone => ?_, fun hnil => ?_,
    hC.unbound, hC.taking, hC.ends,
    fun hint => ⟨rfl, (hC.released hint).2⟩⟩
  · have hget : s.release.legs[l]? = s.legs[l]?.map fun leg => if l ∈ s.tracked then
        { leg with handle := false } else leg :=
      List.getElem?_mapIdx ..
    rw [hget, Option.map_eq_some_iff] at hl
    rcases hl with ⟨leg₁, hl₁, rfl⟩
    have hL := hC.leg l leg₁ hl₁
    have hkeep : (if l ∈ s.tracked then { leg₁ with handle := false } else leg₁).isOpen = leg₁.isOpen ∧
        (if l ∈ s.tracked then { leg₁ with handle := false } else leg₁).phase = leg₁.phase ∧
        (if l ∈ s.tracked then { leg₁ with handle := false } else leg₁).owned = leg₁.owned := by
      split_ifs
      · exact ⟨rfl, rfl, rfl⟩
      · exact ⟨rfl, rfl, rfl⟩
    rcases hkeep with ⟨hopen, hphase, howned⟩
    refine ⟨?_, ?_, fun _ hclosed hnone => ?_, ?_, fun ho hc => ?_, ?_⟩
    · rw [hopen, hlen]
      exact hL.last
    · rw [hopen]
      exact hL.unsettled
    · rcases hover with hover | hover
      · rw [show s.closed = false from hclosed] at hover
        cases hover
      · rw [show s.completion = none from hnone] at hover
        cases hover
    · rw [hphase]
      exact hL.submitting
    · rw [hopen] at ho
      rw [hphase]
      rcases hL.closing ho hc with h | h | h | ⟨h, -⟩ | h
      · exact .inl h
      · exact .inr (.inl h)
      · exact .inr (.inr (.inl h))
      · exact absurd h (htaking l)
      · exact .inr (.inr (.inr (.inr h)))
    · rw [hphase, howned]
      exact hL.ended
  · rcases hover with hover | hover
    · rw [show s.closed = false from hclosed] at hover
      cases hover
    · rw [show s.completion = none from hnone] at hover
      cases hover
  · rw [hnil, length_nil] at hlen
    exact hC.start (length_eq_zero_iff.1 hlen.symm)

theorem waiting {w : Wait} (hC : s.Closing) (hbound : s.bound = true)
    (hfrom : ∀ l, s.waiter ≠ .taking (some l) ∧ s.waiter ≠ .cancelling l)
    (hto : ∀ l, w ≠ .taking (some l) ∧ w ≠ .cancelling l)
    (hends : (∃ tail, w = .taking tail) ∨ w = .leaving → s.closed = true ∨ s.completion.isSome = true) :
    ({ s with waiter := w } : State).Closing where
  stored := hC.stored
  leg := by
    intro l leg hl
    have hL := hC.leg l leg hl
    refine ⟨hL.last, hL.unsettled, hL.handle, hL.submitting, fun hopen hclosed => ?_, hL.ended⟩
    rcases hL.closing hopen hclosed with h | h | h | ⟨h, -⟩ | h
    · exact .inl h
    · exact .inr (.inl h)
    · exact .inr (.inr (.inl h))
    · exact absurd h (hfrom l).1
    · exact absurd h (hfrom l).2
  tracked := hC.tracked
  start := hC.start
  unbound := fun hnot => by
    rw [show s.bound = false from hnot] at hbound
    cases hbound
  taking := fun l heq => absurd heq (hto l).1
  ends := by
    rintro (⟨tail, heq⟩ | ⟨l, heq⟩ | heq | hint)
    · exact hends (.inl ⟨tail, heq⟩)
    · exact absurd heq (hto l).2
    · exact hends (.inr heq)
    · exact hC.ends (.inr (.inr (.inr hint)))
  released := fun hint => ⟨(hC.released hint).1, fun l => (hto l).1, fun l => (hto l).2⟩

theorem interrupted (hC : s.Closing) (hwaiter : s.waiter = .idle)
    (hover : s.closed = true ∨ s.completion.isSome = true) (htracked : s.tracked = [])
    (hbound : s.bound = true) :
    ({ s with interrupted := true } : State).Closing where
  stored := hC.stored
  leg := fun l leg hl => by
    have hL := hC.leg l leg hl
    exact ⟨hL.last, hL.unsettled, hL.handle, hL.submitting, hL.closing, hL.ended⟩
  tracked := hC.tracked
  start := hC.start
  unbound := fun hnot => by
    rw [show s.bound = false from hnot] at hbound
    cases hbound
  taking := hC.taking
  ends := fun _ => hover
  released := fun _ => by
    refine ⟨htracked, fun l heq => ?_, fun l heq => ?_⟩
    · rw [show s.waiter = _ from heq] at hwaiter
      cases hwaiter
    · rw [show s.waiter = _ from heq] at hwaiter
      cases hwaiter

/-- An interrupted `wait` closes the chain.  The open leg is the last one, and it is at the end of
`_legs`, unless an earlier `wait` has closed the chain before. -/
theorem close (hC : s.Closing) (hnone : s.completion = none) (hwaiter : s.waiter = .thrown) :
    ({ s with closed := true, waiter := .taking s.tracked.getLast? } : State).Closing := by
  have hbound : s.bound = true := by
    cases hb : s.bound with
    | true => rfl
    | false =>
      rw [(hC.unbound hb).2.2] at hwaiter
      cases hwaiter
  refine ⟨hC.stored, fun l leg hl => ?_, nofun, hC.start, fun hnot => ?_, fun _ _ => rfl, fun _ => .inl rfl,
    fun hint => ?_⟩
  · have hL := hC.leg l leg hl
    refine ⟨hL.last, hL.unsettled, nofun, hL.submitting, fun hopen _ => ?_, hL.ended⟩
    cases hclosed : s.closed with
    | true =>
      rcases hL.closing hopen hclosed with h | h | h | ⟨h, -⟩ | h
      · exact .inl h
      · exact .inr (.inl h)
      · exact .inr (.inr (.inl h))
      · rw [hwaiter] at h
        cases h
      · rw [hwaiter] at h
        cases h
    | false =>
      have hlast := hL.last hopen
      have htail : s.tracked.getLast? = some l := by
        rw [hC.tracked hclosed hnone, ← hlast]
        simp [List.getLast?_range]
      cases hphase : leg.phase with
      | created => exact .inl rfl
      | submitting =>
        rcases hL.submitting hphase with hd | ⟨-, hnot⟩
        · exact .inr (.inl hd)
        · rw [hbound] at hnot
          cases hnot
      | inFlight =>
        exact .inr (.inr (.inr (.inl ⟨congrArg Wait.taking htail, hL.handle hphase hclosed hnone⟩)))
      | completed | failed => simp [Leg.isOpen, hphase, Phase.armed] at hopen
  · rw [show s.bound = false from hnot] at hbound
    cases hbound
  · have htracked := (hC.released hint).1
    have hnil : s.tracked.getLast? = none := by rw [htracked]; rfl
    refine ⟨htracked, fun l heq => ?_, nofun⟩
    have htail : s.tracked.getLast? = some l := Wait.taking.inj heq
    rw [hnil] at htail
    cases htail

theorem take (hC : s.Closing) (hwaiter : s.waiter = .taking (some l)) (hl : s.legs[l]? = some leg) :
    ({ s.setLeg l { leg with handle := false } with
        waiter := if leg.handle then .cancelling l else .leaving } : State).Closing := by
  have hclosed := hC.taking l hwaiter
  have hover : s.closed = true ∨ s.completion.isSome = true := .inl hclosed
  have hbound : s.bound = true := by
    cases hb : s.bound with
    | true => rfl
    | false =>
      rw [(hC.unbound hb).2.2] at hwaiter
      cases hwaiter
  have hfresh : s.interrupted = false := by
    cases hint : s.interrupted with
    | false => rfl
    | true => exact absurd hwaiter ((hC.released hint).2.1 l)
  refine ⟨hC.stored, fun k leg₁ hk => ?_, fun hnot => ?_, fun hnil => ?_, fun hnot => ?_, fun k heq => ?_,
    fun _ => hover, fun hint => ?_⟩
  · change (s.legs.set l _)[k]? = some leg₁ at hk
    by_cases hkl : l = k
    · subst hkl
      rcases List.getElem?_eq_some_iff.1 hl with ⟨hlt, -⟩
      rw [List.getElem?_set_self hlt] at hk
      cases hk
      have hL := hC.leg l leg hl
      refine ⟨fun ho => (hL.last ho).trans (length_set ..).symm, hL.unsettled,
        fun _ hnot => ?_, hL.submitting,
        fun hopen _ => ?_, hL.ended⟩
      · rw [show s.closed = false from hnot] at hclosed
        cases hclosed
      · rcases hL.closing hopen hclosed with h | h | h | ⟨-, h⟩ | h
        · exact .inl h
        · exact .inr (.inl h)
        · exact .inr (.inr (.inl h))
        · exact .inr (.inr (.inr (.inr (if_pos h))))
        · rw [hwaiter] at h
          cases h
    · rw [List.getElem?_set_ne hkl] at hk
      have hL := hC.leg k leg₁ hk
      refine ⟨fun ho => (hL.last ho).trans (length_set ..).symm, hL.unsettled, hL.handle, hL.submitting,
        fun hopen _ => ?_, hL.ended⟩
      rcases hL.closing hopen hclosed with h | h | h | ⟨h, -⟩ | h
      · exact .inl h
      · exact .inr (.inl h)
      · exact .inr (.inr (.inl h))
      · rw [hwaiter] at h
        exact absurd (Option.some.inj (Wait.taking.inj h)) hkl
      · rw [hwaiter] at h
        cases h
  · rw [show s.closed = false from hnot] at hclosed
    cases hclosed
  · have hlen : (s.legs.set l { leg with handle := false }).length = 0 :=
    by rw [show s.legs.set l _ = [] from hnil]; rfl
    rw [length_set] at hlen
    exact hC.start (length_eq_zero_iff.1 hlen)
  · rw [show s.bound = false from hnot] at hbound
    cases hbound
  · exact hclosed
  · rw [show s.interrupted = true from hint] at hfresh
    cases hfresh

theorem cancelTail (hC : s.Closing) (hwaiter : s.waiter = .cancelling l) (hl : s.legs[l]? = some leg) :
    ({ s.setLeg l { leg with cancelled := true } with waiter := .leaving } : State).Closing := by
  have hover := hC.ends (.inr (.inl ⟨l, hwaiter⟩))
  refine ⟨hC.stored, fun k leg₁ hk => ?_, fun hclosed hnone => ?_, fun hnil => ?_, fun hnot => ?_, nofun,
    fun _ => hover, fun hint => ?_⟩
  · change (s.legs.set l _)[k]? = some leg₁ at hk
    by_cases hkl : l = k
    · subst hkl
      rcases List.getElem?_eq_some_iff.1 hl with ⟨hlt, -⟩
      rw [List.getElem?_set_self hlt] at hk
      cases hk
      have hL := hC.leg l leg hl
      have hshut : ({ leg with cancelled := true } : Leg).isOpen = false := by simp [Leg.isOpen]
      exact ⟨by simp [hshut], by simp [hshut], hL.handle, hL.submitting, by simp [hshut], hL.ended⟩
    · rw [List.getElem?_set_ne hkl] at hk
      have hL := hC.leg k leg₁ hk
      refine ⟨fun ho => (hL.last ho).trans (length_set ..).symm, hL.unsettled, hL.handle, hL.submitting,
        fun hopen hclosed => ?_, hL.ended⟩
      rcases hL.closing hopen hclosed with h | h | h | ⟨h, -⟩ | h
      · exact .inl h
      · exact .inr (.inl h)
      · exact .inr (.inr (.inl h))
      · rw [hwaiter] at h
        cases h
      · rw [hwaiter] at h
        exact absurd (Wait.cancelling.inj h) hkl
  · change s.tracked = List.range (s.legs.set l _).length
    rw [length_set]
    exact hC.tracked hclosed hnone
  · have hlen : (s.legs.set l { leg with cancelled := true }).length = 0 :=
    by rw [show s.legs.set l _ = [] from hnil]; rfl
    rw [length_set] at hlen
    exact hC.start (length_eq_zero_iff.1 hlen)
  · rw [(hC.unbound hnot).2.2] at hwaiter
    cases hwaiter
  · exact absurd hwaiter ((hC.released hint).2.2 l)

theorem ledger (hC : s.Closing) (cleaned disposed : List Nat) :
    ({ s with cleaned := cleaned, disposed := disposed } : State).Closing where
  stored := hC.stored
  leg := fun l leg hl => by
    have hL := hC.leg l leg hl
    exact ⟨hL.last, hL.unsettled, hL.handle, hL.submitting, hL.closing, hL.ended⟩
  tracked := hC.tracked
  start := hC.start
  unbound := hC.unbound
  taking := hC.taking
  ends := hC.ends
  released := hC.released

theorem bound_of_waiter (hC : s.Closing) (hwaiter : s.waiter ≠ .idle) : s.bound = true := by
  cases hb : s.bound with
  | true => rfl
  | false => exact absurd (hC.unbound hb).2.2 hwaiter

/-! ## Starting a leg -/

theorem begin (hC : s.Closing) (hlegs : s.legs = []) (n : Nat) :
    ({ s with legs := [{ phase := .submitting, owned := s.fresh n }], tracked := [0], tokens := s.tokens + n } :
      State).Closing := by
  rcases hC.start hlegs with ⟨hnone, -, hunbound⟩
  rcases hC.unbound hunbound with ⟨hclosed, hint, -⟩
  refine ⟨hC.stored, fun l leg hl => ?_, fun _ _ => rfl, nofun, hC.unbound,
    hC.taking, hC.ends, fun hnot => ?_⟩
  · rcases List.getElem?_eq_some_iff.1 hl with ⟨hlt, hget⟩
    have hzero : l = 0 := Nat.lt_one_iff.1 hlt
    subst hzero
    change ({ phase := .submitting, owned := s.fresh n } : Leg) = leg at hget
    subst hget
    refine ⟨fun _ => rfl, fun _ => hnone, nofun, fun _ => .inr ⟨rfl, hunbound⟩, fun _ hnot => ?_, by simp⟩
    rw [show s.closed = true from hnot] at hclosed
    cases hclosed
  · rw [show s.interrupted = true from hnot] at hint
    cases hint

theorem bind (hC : s.Closing) (hl : s.legs[0]? = some leg) (hbound : s.bound = false) :
    ({ s.setLeg 0 { leg with phase := leg.phase.submitted, handle := true } with bound := true } :
      State).Closing := by
  rcases hC.unbound hbound with ⟨hclosed, hint, -⟩
  have hlen : (s.legs.set 0 { leg with phase := leg.phase.submitted, handle := true }).length =
      s.legs.length :=
    length_set ..
  refine ⟨hC.stored, fun k leg₁ hk => ?_, fun hclosed hnone => ?_, fun hnil => ?_,
    nofun, hC.taking, hC.ends,
    fun hnot => ?_⟩
  · change (s.legs.set 0 _)[k]? = some leg₁ at hk
    have hopened : ∀ {P : Prop}, s.closed = true → P := fun hnot => by
      rw [hclosed] at hnot
      cases hnot
    by_cases hk0 : 0 = k
    · subst hk0
      rcases List.getElem?_eq_some_iff.1 hl with ⟨hlt, -⟩
      rw [List.getElem?_set_self hlt] at hk
      cases hk
      have hL := hC.leg 0 leg hl
      refine ⟨fun ho => ?_, fun ho => ?_, fun _ _ _ => rfl, fun hphase => ?_,
        fun _ => hopened, fun hphase => ?_⟩
      · exact (hL.last ((Leg.isOpen_submitted leg).symm.trans ho)).trans hlen.symm
      · exact hL.unsettled ((Leg.isOpen_submitted leg).symm.trans ho)
      · exact absurd hphase (Phase.submitted_ne _)
      · exact hL.ended (Phase.of_submitted_ended hphase)
    · rw [List.getElem?_set_ne hk0] at hk
      have hL := hC.leg k leg₁ hk
      refine ⟨fun ho => (hL.last ho).trans hlen.symm, hL.unsettled, hL.handle,
        fun hphase => ?_, fun _ => hopened,
        hL.ended⟩
      rcases hL.submitting hphase with hd | ⟨hzero, -⟩
      · exact .inl hd
      · exact absurd hzero.symm hk0
  · change s.tracked = List.range (s.legs.set 0 _).length
    rw [hlen]
    exact hC.tracked hclosed hnone
  · rw [show s.legs.set 0 _ = [] from hnil] at hlen
    exact absurd (length_eq_zero_iff.1 hlen.symm) (ne_nil hl)
  · rw [show s.interrupted = true from hnot] at hint
    cases hint

theorem follow (hC : s.Closing) (ht : s.tasks[i]? = some t) (hhook : t.frame = .hook)
    (hlinear : s.closed = false → s.completion = none → s.Clear) (n : Nat) : (s.follow i t n).Closing := by
  have hframe : t.frame.leg? = none := by simp [hhook, Frame.leg?]
  unfold State.follow
  split_ifs with hover
  · exact hC.plainTask ht hframe _
  · simp only [Bool.or_eq_true, not_or, Bool.not_eq_true] at hover
    rcases hover with ⟨hclosed, hsome⟩
    have hnone : s.completion = none := by simpa using hsome
    have hclear := hlinear hclosed hnone
    have hdoing : ∀ f, f ≠ .hook → s.doing f →
        ∃ u ∈ s.tasks.set i { t with frame := .created s.legs.length, hand := t.hand.drop n },
        u.frame = f := fun f hne hd => doing_set ht (by rw [hhook]; exact hne) hd _
    refine ⟨hC.stored, fun k leg hk => ?_, fun _ _ => ?_, fun hnil => ?_, hC.unbound,
      hC.taking, hC.ends, fun hint => ?_⟩
    · change (s.legs ++ [_])[k]? = some leg at hk
      by_cases hlt : k < s.legs.length
      · rw [List.getElem?_append_left hlt] at hk
        have hshut := hclear leg (mem_of_getElem? hk)
        have hL := hC.leg k leg hk
        refine ⟨by simp [hshut], by simp [hshut], hL.handle, fun hphase => ?_, by simp [hshut], fun hphase => ?_⟩
        · exact (hL.submitting hphase).imp_left (hdoing _ nofun)
        · exact (hL.ended hphase).imp_right (Or.imp (hdoing _ nofun) (hdoing _ nofun))
      · rcases List.getElem?_eq_some_iff.1 hk with ⟨hk', -⟩
        rw [length_append, length_singleton] at hk'
        have hkl : k = s.legs.length := by omega
        subst hkl
        rw [List.getElem?_concat_length] at hk
        cases hk
        have hlen : (s.legs ++ [({ phase := .created, owned := t.hand.take n } : Leg)]).length =
            s.legs.length + 1 :=
          length_append ..
        exact ⟨fun _ => hlen.symm, fun _ => hnone, nofun, nofun, fun _ _ => .inl rfl, by simp⟩
    · change s.tracked ++ [s.legs.length] = List.range (s.legs ++ [_]).length
      rw [hC.tracked hclosed hnone, length_append, length_singleton, range_succ]
    · exact absurd (append_eq_nil_iff.1 hnil).2 (cons_ne_nil _ _)
    · rcases hC.ends (.inr (.inr (.inr hint))) with hover | hover
      · rw [hclosed] at hover
        cases hover
      · rw [hnone] at hover
        cases hover

/-! ## Going on with a leg -/

theorem submit (hC : s.Closing) (ht : s.tasks[i]? = some t) (hframe : t.frame = .created l)
    (hl : s.legs[l]? = some leg) (hphase : leg.phase = .created) :
    ((s.setLeg l { leg with phase := .submitting }).setTask i
      { t with frame := .submitting l }).Closing := by
  have hL := hC.leg l leg hl
  have hself := doing_set_self ht { t with frame := .submitting l }
  have hopen : ({ leg with phase := .submitting } : Leg).isOpen = leg.isOpen := by
    simp [Leg.isOpen, hphase, Phase.armed]
  refine hC.legTask ht (by simp [hframe, Frame.leg?]) hl ⟨fun ho => ?_, fun ho => ?_,
    nofun, fun _ => .inl hself,
    fun _ _ => .inr (.inl hself), by simp⟩
  · exact (hL.last (hopen.symm.trans ho)).trans (length_set ..).symm
  · exact hL.unsettled (hopen.symm.trans ho)

theorem submitted (hC : s.Closing) (ht : s.tasks[i]? = some t) (hframe : t.frame = .submitting l)
    (hl : s.legs[l]? = some leg) {handle : Bool} {f : Frame}
    (hcases : s.closed = true ∧ f = .cancelling l ∨ s.closed = false ∧ handle = true) :
    ((s.setLeg l { leg with phase := leg.phase.submitted, handle := handle }).setTask i
      { t with frame := f }).Closing := by
  have hL := hC.leg l leg hl
  have hself := doing_set_self ht { t with frame := f }
  refine hC.legTask ht (by simp [hframe, Frame.leg?]) hl ⟨fun ho => ?_, fun ho => ?_, fun _ hopened _ => ?_,
    fun hphase => ?_, fun _ hclosed => ?_, fun hphase => ?_⟩
  · exact (hL.last ((Leg.isOpen_submitted leg).symm.trans ho)).trans (length_set ..).symm
  · exact hL.unsettled ((Leg.isOpen_submitted leg).symm.trans ho)
  · rcases hcases with ⟨hclosed, -⟩ | ⟨-, hhandle⟩
    · rw [show s.closed = false from hopened] at hclosed
      cases hclosed
    · exact hhandle
  · exact absurd hphase (Phase.submitted_ne _)
  · rcases hcases with ⟨-, rfl⟩ | ⟨hopened, -⟩
    · exact .inr (.inr (.inl hself))
    · rw [show s.closed = true from hclosed] at hopened
      cases hopened
  · refine (hL.ended (Phase.of_submitted_ended hphase)).imp_right (Or.imp ?_ ?_)
    · exact fun hd => doing_set ht (by simp [hframe]) hd _
    · exact fun hd => doing_set ht (by simp [hframe]) hd _

theorem submitRaises (hC : s.Closing) (ht : s.tasks[i]? = some t) (hframe : t.frame = .submitting l)
    (hl : s.legs[l]? = some leg) :
    ((s.setLeg l { leg with phase := .failed }).setTask i { t with frame := .dropping l }).Closing := by
  refine hC.legTask ht (by simp [hframe, Frame.leg?]) hl (LegOk.of_ended ?_ rfl (.inr (.inr ?_)))
  · simp [Leg.isOpen, Phase.armed]
  · exact doing_set_self ht { t with frame := .dropping l }

theorem cancel (hC : s.Closing) (ht : s.tasks[i]? = some t) (hframe : t.frame = .cancelling l)
    (hl : s.legs[l]? = some leg) (f : Frame) :
    ((s.setLeg l { leg with cancelled := true }).setTask i { t with frame := f }).Closing := by
  have hL := hC.leg l leg hl
  have hshut : ({ leg with cancelled := true } : Leg).isOpen = false := by simp [Leg.isOpen]
  refine hC.legTask ht (by simp [hframe, Frame.leg?]) hl ⟨by simp [hshut], by simp [hshut], hL.handle,
    fun hphase => ?_, by simp [hshut], fun hphase => ?_⟩
  · exact (hL.submitting hphase).imp_left fun hd => doing_set ht (by simp [hframe]) hd _
  · refine (hL.ended hphase).imp_right (Or.imp ?_ ?_)
    · exact fun hd => doing_set ht (by simp [hframe]) hd _
    · exact fun hd => doing_set ht (by simp [hframe]) hd _

theorem cleanup (hC : s.Closing) (ht : s.tasks[i]? = some t)
    (hframe : t.frame = .failing l ∨ t.frame = .dropping l)
    (hl : s.legs[l]? = some leg) (f : Frame) :
      ((s.cleanup l leg).setTask i { t with frame := f }).Closing := by
  have hL := hC.leg l leg hl
  have hkeep : ∀ g, g = .submitting l ∨ g = .cancelling l → s.doing g →
      ∃ u ∈ s.tasks.set i { t with frame := f }, u.frame = g := by
    intro g hg hd
    refine doing_set ht ?_ hd _
    rcases hframe with hframe | hframe <;> rcases hg with rfl | rfl <;> simp [hframe]
  have hleg : t.frame.leg? = some l := by rcases hframe with hframe | hframe <;> simp [hframe, Frame.leg?]
  have hset : ((s.setLeg l { leg with owned := [] }).setTask i { t with frame := f }).Closing := by
    refine hC.legTask ht hleg hl ⟨fun ho => ?_, hL.unsettled, hL.handle, fun hphase =>
      ?_, fun ho hclosed => ?_,
      fun _ => .inl rfl⟩
    · exact (hL.last ho).trans (length_set ..).symm
    · exact (hL.submitting hphase).imp_left (hkeep _ (.inl rfl))
    · exact (hL.closing ho hclosed).imp_right
        (Or.imp (hkeep _ (.inl rfl)) (Or.imp_left (hkeep _ (.inr rfl))))
  exact hset.ledger (s.cleaned ++ leg.owned) s.disposed

/-! ## The invariant over a step -/

theorem finish (hC : s.Closing) (ht : s.tasks[i]? = some t) (hhook : t.frame = .hook)
    (hlinear : s.completion = none → s.Clear) (n : Nat) : (s.finish i t n).Closing := by
  unfold State.finish
  split
  · refine (hC.store hlinear (hC.ne_nil_of_task ht)).plainTask (t := t) ?_ (by simp [hhook, Frame.leg?]) _
    rw [tasks_store]
    exact ht
  · exact hC

end Closing

end State
end Pytealet.Io.WaitChain
