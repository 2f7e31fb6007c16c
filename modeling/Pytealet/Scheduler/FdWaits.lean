import Mathlib.Logic.Function.Basic
import Pytealet.Lib.Transition

/-!
# FdWaits — waiting for a descriptor in a selector scheduler

`wait_readable`, `wait_writable` and `poll` register a wake callback for a descriptor and park.  A
descriptor has one slot for each direction: a registration overwrites what is there, and a removal
clears the slot whoever has registered it.  When the selector reports the descriptor, the callback
in the slot is scheduled; when it runs, it removes the registration and sets the event on which the
wait is parked.  The wake callback of `poll` first probes the descriptor.

Every registration and every removal calls the selector, which may raise.
-/

namespace Pytealet.Scheduler.FdWaits

open Lib Lib.Transition Function List

inductive Dir
  | read
  | write
  deriving DecidableEq, Repr

/-- `_fd_callbacks`: the wait whose callback stands in a slot. -/
abbrev Slots :=
  Nat → Dir → Option Nat

def put (slots : Slots) (fd : Nat) (d : Dir) (callback : Option Nat) : Slots :=
  update slots fd (update (slots fd) d callback)

/-- One call of `wait_readable`, `wait_writable` or `_wait_poll_fd`. -/
structure Wait where
  fd : Nat
  /-- the directions in the order in which they are armed -/
  dirs : List Dir
  /-- `_wait_poll_fd` -/
  polls : Bool
  active : Bool := true
  parked : Bool := true
  /-- its event is set -/
  isSet : Bool := false
  deriving DecidableEq, Repr

structure State where
  slots : Slots
  waits : List Wait := []
  /-- the wake callbacks given to `call_soon` -/
  queue : List Nat := []

/-- What the probe of a `poll` finds. -/
inductive Probe
  | ready
  | wouldBlock
  | raises
  deriving DecidableEq, Repr

/-- What happens next; `fails` says in which directions the selector raises.  A wait whose
registration fails raises without having parked. -/
inductive Action
  | waitReadable (fd : Nat) (fails : Bool)
  | waitWritable (fd : Nat) (fails : Bool)
  | poll (fd : Nat) (read write : Bool) (fails failsLater : Dir → Bool)
  /-- the selector reports the descriptor -/
  | event (fd : Nat) (read write : Bool)
  /-- the `n`-th callback of the queue runs -/
  | wake (n : Nat) (probe : Probe) (fails : Dir → Bool)
  /-- an exception is thrown into the wait -/
  | throw (i : Nat) (fails : Dir → Bool)
  /-- a wait whose event is set goes on -/
  | resume (i : Nat)

/-- `add_reader` and `add_writer`, one after the other: the slots, the directions that count as
armed, and whether the last one raises.  What stood in the slot is put back when the selector
raises. -/
def arm (fails : Dir → Bool) (slots : Slots) (fd i : Nat) : List Dir → Slots × List Dir × Bool
  | [] => (slots, [], false)
  | d :: dirs =>
    if fails d then (slots, [d], true)
    else
      let r := arm fails (put slots fd d (some i)) fd i dirs
      (r.1, d :: r.2.1, r.2.2)

/-- `remove_reader` and `remove_writer`, one after the other: the slot is cleared before the
selector is called. -/
def disarm (fails : Dir → Bool) (slots : Slots) (fd : Nat) : List Dir → Slots × Bool
  | [] => (slots, false)
  | d :: dirs =>
    match slots fd d with
    | none => disarm fails slots fd dirs
    | some _ =>
      if fails d then (put slots fd d none, true) else disarm fails (put slots fd d none) fd dirs

namespace State

def setWait (s : State) (i : Nat) (w : Wait) : State :=
  { s with waits := s.waits.set i w }

/-- `wait_readable` and `wait_writable`: the registration is outside of the `try`. -/
def waitOne (s : State) (fd : Nat) (d : Dir) (fails : Bool) : State :=
  let r := arm (fun _ => fails) s.slots fd s.waits.length [d]
  if r.2.2 then { s with slots := r.1 }
  else { s with slots := r.1, waits := s.waits ++ [{ fd, dirs := [d], polls := false }] }

/-- `_schedule_fd_callback` -/
def schedule (s : State) (fd : Nat) (d : Dir) : State :=
  match s.slots fd d with
  | none => s
  | some i => { s with queue := s.queue ++ [i] }

/-- `_process_selector_events`, for one descriptor. -/
def report (s : State) (fd : Nat) (read write : Bool) : State :=
  if s.slots fd .read ≠ none ∧ s.slots fd .read = s.slots fd .write ∧ (read || write) = true then
    -- the same callback in both slots is scheduled once
    s.schedule fd .read
  else
    let s₁ := if read then s.schedule fd .read else s
    if write then s₁.schedule fd .write else s₁

/-- The wake callback of wait `i`. -/
def wake (s : State) (i : Nat) (probe : Probe) (fails : Dir → Bool) : State :=
  match s.waits[i]? with
  | none => s
  | some w =>
    if w.active = false ∨ (w.polls = true ∧ probe ≠ .ready) then s
    else
      let r := disarm fails s.slots w.fd w.dirs
      -- the event is not set when a removal raises
      { s with slots := r.1 }.setWait i { w with active := false, isSet := !r.2 }

/-- The `finally` of a wait that leaves. -/
def leave (s : State) (i : Nat) (w : Wait) (fails : Dir → Bool) : State :=
  if w.active then
    { s with slots := (disarm fails s.slots w.fd w.dirs).1 }.setWait i
      { w with active := false, parked := false }
  else
    s.setWait i { w with parked := false }

end State

/-- `poll_mask_to_selector_events` -/
def pollDirs (read write : Bool) : List Dir :=
  (if read then [.read] else []) ++ if write then [.write] else []

def step (s : State) : Action → Option State
  | .waitReadable fd fails => some (s.waitOne fd .read fails)
  | .waitWritable fd fails => some (s.waitOne fd .write fails)
  | .poll fd read write fails failsLater =>
    -- an empty mask raises before anything is registered
    if (read || write) = false then none
    else
      let dirs := pollDirs read write
      let r := arm fails s.slots fd s.waits.length dirs
      if r.2.2 then
        -- the `finally` clears the slot of the failed registration too
        some { s with slots := (disarm failsLater r.1 fd r.2.1).1 }
      else some { s with slots := r.1, waits := s.waits ++ [{ fd, dirs, polls := true }] }
  | .event fd read write => some (s.report fd read write)
  | .wake n probe fails =>
    match s.queue[n]? with
    | none => none
    | some i => some ({ s with queue := s.queue.eraseIdx n }.wake i probe fails)
  | .throw i fails =>
    match s.waits[i]? with
    | some w => if w.parked then some (s.leave i w fails) else none
    | none => none
  | .resume i =>
    match s.waits[i]? with
    | some w => if w.parked && w.isSet then some (s.leave i w fun _ => false) else none
    | none => none

def init : State where
  slots := fun _ _ => none

/-! ## The property and the condition -/

/-- The wait has its own callback in every slot that it waits for, of which there is one. -/
def State.registered (s : State) (i : Nat) (w : Wait) : Prop :=
  w.dirs ≠ [] ∧ ∀ d ∈ w.dirs, s.slots w.fd d = some i

instance (s : State) (i : Nat) (w : Wait) : Decidable (s.registered i w) :=
  inferInstanceAs (Decidable (_ ∧ _))

/-- A parked wait is woken, its callback is scheduled, or it is registered. -/
def NoneStranded (s : State) : Prop :=
  ∀ i w, s.waits[i]? = some w → w.parked = true → w.isSet = true ∨ i ∈ s.queue ∨ s.registered i w

/-- A wait finds the slots free that it registers (or its one registration fails), and no removal
raises in a wake callback. -/
def State.Clear (s : State) : Action → Prop
  | .waitReadable fd fails => fails = true ∨ s.slots fd .read = none
  | .waitWritable fd fails => fails = true ∨ s.slots fd .write = none
  | .poll fd read write _ _ => ∀ d ∈ pollDirs read write, s.slots fd d = none
  | .wake n probe fails =>
    match s.queue[n]? with
    | none => True
    | some i =>
      match s.waits[i]? with
      | none => True
      | some w =>
        w.active = true → (w.polls = true → probe = .ready) → ∀ d ∈ w.dirs, fails d = false
  | _ => True

instance (s : State) (a : Action) : Decidable (s.Clear a) := by
  unfold State.Clear
  split
  all_goals first
    | infer_instance
    | (split
       · infer_instance
       · split <;> infer_instance)

/-! ## Slots -/

theorem put_self (slots : Slots) (fd : Nat) (d : Dir) (callback : Option Nat) :
    put slots fd d callback fd d = callback := by
  simp [put]

theorem put_ne {slots : Slots} {fd fd' : Nat} {d d' : Dir} (callback : Option Nat) (h : fd = fd' → d ≠ d') :
    put slots fd d callback fd' d' = slots fd' d' := by
  unfold put
  by_cases hfd : fd' = fd
  · subst hfd
    rw [update_self, update_of_ne (Ne.symm (h rfl))]
  · rw [update_of_ne hfd]

theorem arm_other {fails : Dir → Bool} {fd fd' i : Nat} {d : Dir} (dirs : List Dir) (slots : Slots)
    (h : fd = fd' → d ∉ dirs) : (arm fails slots fd i dirs).1 fd' d = slots fd' d := by
  induction dirs generalizing slots with
  | nil => rfl
  | cons d' dirs ih =>
    unfold arm
    split
    · rfl
    · have htail := ih (put slots fd d' (some i)) fun hfd hmem => h hfd (mem_cons_of_mem d' hmem)
      rw [htail]
      exact put_ne _ fun hfd hd => h hfd (hd ▸ mem_cons_self)

theorem arm_self {fails : Dir → Bool} {fd i : Nat} (dirs : List Dir) (slots : Slots)
    (h : (arm fails slots fd i dirs).2.2 = false) :
      ∀ d ∈ dirs, (arm fails slots fd i dirs).1 fd d = some i := by
  induction dirs generalizing slots with
  | nil => exact fun d hd => absurd hd not_mem_nil
  | cons d' dirs ih =>
    intro d hd
    unfold arm at h ⊢
    split at h
    · cases h
    · rename_i hfails
      rw [if_neg hfails]
      by_cases hmem : d ∈ dirs
      · exact ih _ h d hmem
      · have heq : d = d' := (mem_cons.1 hd).resolve_right hmem
        subst heq
        show (arm fails (put slots fd d (some i)) fd i dirs).1 fd d = some i
        rw [arm_other dirs _ fun _ => hmem]
        exact put_self slots fd d (some i)

theorem disarm_other (fails : Dir → Bool) {fd fd' : Nat} {d : Dir} (dirs : List Dir) (slots : Slots)
    (h : fd = fd' → d ∉ dirs) : (disarm fails slots fd dirs).1 fd' d = slots fd' d := by
  induction dirs generalizing slots with
  | nil => rfl
  | cons d' dirs ih =>
    have htail : ∀ slots', (disarm fails slots' fd dirs).1 fd' d = slots' fd' d :=
      fun slots' => ih slots' fun hfd hmem => h hfd (mem_cons_of_mem d' hmem)
    have hput : put slots fd d' none fd' d = slots fd' d :=
      put_ne _ fun hfd hd => h hfd (hd ▸ mem_cons_self)
    unfold disarm
    split
    · exact htail slots
    · split
      · exact hput
      · exact (htail _).trans hput

theorem disarm_quiet {fails : Dir → Bool} {fd : Nat} (dirs : List Dir) (slots : Slots)
    (h : ∀ d ∈ dirs, fails d = false) : (disarm fails slots fd dirs).2 = false := by
  induction dirs generalizing slots with
  | nil => rfl
  | cons d dirs ih =>
    have htail := fun slots' => ih slots' fun d' hd' => h d' (mem_cons_of_mem d hd')
    unfold disarm
    split
    · exact htail slots
    · rw [if_neg (by simp [h d mem_cons_self])]
      exact htail _

/-! ## The invariant -/

structure Inv (s : State) : Prop where
  parked : ∀ (i : Nat) (w : Wait), s.waits[i]? = some w → w.active = true → w.parked = true
  registered : ∀ (i : Nat) (w : Wait), s.waits[i]? = some w → w.active = true → s.registered i w
  woken : ∀ (i : Nat) (w : Wait), s.waits[i]? = some w → w.parked = true → w.active = false → w.isSet = true

section Rules

variable {s s' : State} {i j fd : Nat} {w : Wait} {d : Dir} {fails : Dir → Bool}

theorem Inv.init : Inv init :=
  ⟨by simp [FdWaits.init], by simp [FdWaits.init], by simp [FdWaits.init]⟩

theorem Inv.noneStranded (h : Inv s) : NoneStranded s := by
  intro i w hi hp
  cases ha : w.active with
  | true => exact .inr (.inr (h.registered i w hi ha))
  | false => exact .inl (h.woken i w hi hp ha)

theorem Inv.congr (h : Inv s) (hslots : s'.slots = s.slots) (hwaits : s'.waits = s.waits) : Inv s' := by
  refine ⟨fun i w hi => ?_, fun i w hi ha => ?_, fun i w hi => ?_⟩
  · exact h.parked i w (hwaits ▸ hi)
  · have hreg := h.registered i w (hwaits ▸ hi) ha
    unfold State.registered at hreg ⊢
    rwa [hslots]
  · exact h.woken i w (hwaits ▸ hi)

theorem Inv.setSlots (h : Inv s) (slots : Slots)
    (hkeep : ∀ (i : Nat) (w : Wait), s.waits[i]? = some w → w.active = true →
      ∀ d ∈ w.dirs, slots w.fd d = s.slots w.fd d) :
    Inv { s with slots } := by
  refine ⟨h.parked, fun i w hi ha => ?_, h.woken⟩
  rcases h.registered i w hi ha with ⟨hne, hreg⟩
  exact ⟨hne, fun d hd => (hkeep i w hi ha d hd).trans (hreg d hd)⟩

theorem Inv.free (h : Inv s) (hi : s.waits[i]? = some w) (ha : w.active = true) (hd : d ∈ w.dirs)
    (hnone : s.slots fd d = none) : fd ≠ w.fd := by
  rintro rfl
  rw [(h.registered i w hi ha).2 d hd] at hnone
  cases hnone

theorem Inv.apart {w' : Wait} (h : Inv s) (hi : s.waits[i]? = some w) (ha : w.active = true)
    (hj : s.waits[j]? = some w') (ha' : w'.active = true) (hij : i ≠ j) (hd : d ∈ w.dirs) :
    w'.fd = w.fd → d ∉ w'.dirs := by
  intro hfd hd'
  have hone := (h.registered i w hi ha).2 d hd
  have htwo := (h.registered j w' hj ha').2 d hd'
  rw [hfd, hone] at htwo
  exact hij (Option.some.inj htwo)

theorem Inv.arrive (h : Inv s) {slots : Slots} {dirs : List Dir} {polls : Bool} (hne : dirs ≠ [])
    (hfree : ∀ d ∈ dirs, s.slots fd d = none)
    (hself : ∀ d ∈ dirs, slots fd d = some s.waits.length)
    (hother : ∀ fd' d, (fd = fd' → d ∉ dirs) → slots fd' d = s.slots fd' d) :
    Inv { s with slots, waits := s.waits ++ [{ fd, dirs, polls }] } := by
  have hkeep : Inv { s with slots } := by
    refine h.setSlots slots fun i w hi ha d hd => hother w.fd d fun hfd hmem => ?_
    exact h.free hi ha hd (hfree d hmem) hfd
  have hcases : ∀ {i : Nat} {w : Wait}, (s.waits ++ [({ fd, dirs, polls } : Wait)])[i]? = some w →
      s.waits[i]? = some w ∨ (i = s.waits.length ∧ w = { fd, dirs, polls }) := by
    intro i w hi
    rw [List.getElem?_append] at hi
    split at hi
    · exact .inl hi
    · rename_i hlt
      rcases List.getElem?_eq_some_iff.1 hi with ⟨hlen, heq⟩
      simp only [length_singleton] at hlen
      refine .inr ⟨by omega, ?_⟩
      simpa [show i - s.waits.length = 0 by omega] using heq.symm
  refine ⟨fun i w hi ha => ?_, fun i w hi ha => ?_, fun i w hi hp ha => ?_⟩
  · rcases hcases hi with hi | ⟨-, rfl⟩
    · exact h.parked i w hi ha
    · rfl
  · rcases hcases hi with hi | ⟨rfl, rfl⟩
    · exact hkeep.registered i w hi ha
    · exact ⟨hne, hself⟩
  · rcases hcases hi with hi | ⟨-, rfl⟩
    · exact h.woken i w hi hp ha
    · cases ha

theorem getElem?_set_cases {waits : List Wait} {v w' : Wait} (hj : waits[j]? = some w)
    (hi : (waits.set j w')[i]? = some v) : (i = j ∧ v = w') ∨ (i ≠ j ∧ waits[i]? = some v) := by
  have hlt := (List.getElem?_eq_some_iff.1 hj).1
  by_cases hij : i = j
  · subst hij
    rw [List.getElem?_set_self hlt] at hi
    exact .inl ⟨rfl, (Option.some.inj hi).symm⟩
  · rw [List.getElem?_set_ne (Ne.symm hij)] at hi
    exact .inr ⟨hij, hi⟩

theorem Inv.remove (h : Inv s) (hj : s.waits[j]? = some w) (ha : w.active = true) {w' : Wait}
    (ha' : w'.active = false) (hset : w'.parked = true → w'.isSet = true) :
    Inv ({ s with slots := (disarm fails s.slots w.fd w.dirs).1 }.setWait j w') := by
  refine ⟨fun i v hi hv => ?_, fun i v hi hv => ?_, fun i v hi hp hv => ?_⟩
  · rcases getElem?_set_cases hj hi with ⟨-, rfl⟩ | ⟨-, hi⟩
    · rw [ha'] at hv
      cases hv
    · exact h.parked i v hi hv
  · rcases getElem?_set_cases hj hi with ⟨-, rfl⟩ | ⟨hij, hi⟩
    · rw [ha'] at hv
      cases hv
    · rcases h.registered i v hi hv with ⟨hne, hreg⟩
      refine ⟨hne, fun d hd => ?_⟩
      -- its slots are not those of wait `j`
      have hsame := disarm_other fails w.dirs s.slots (h.apart hi hv hj ha hij hd)
      exact hsame.trans (hreg d hd)
  · rcases getElem?_set_cases hj hi with ⟨-, rfl⟩ | ⟨-, hi⟩
    · exact hset hp
    · exact h.woken i v hi hp hv

theorem Inv.depart (h : Inv s) (hj : s.waits[j]? = some w) (ha : w.active = false) :
    Inv (s.setWait j { w with parked := false }) := by
  refine ⟨fun i v hi hv => ?_, fun i v hi hv => ?_, fun i v hi hp hv => ?_⟩
  · rcases getElem?_set_cases hj hi with ⟨-, rfl⟩ | ⟨-, hi⟩
    · exact absurd (ha.symm.trans hv) (by simp)
    · exact h.parked i v hi hv
  · rcases getElem?_set_cases hj hi with ⟨-, rfl⟩ | ⟨-, hi⟩
    · exact absurd (ha.symm.trans hv) (by simp)
    · exact h.registered i v hi hv
  · rcases getElem?_set_cases hj hi with ⟨-, rfl⟩ | ⟨-, hi⟩
    · cases hp
    · exact h.woken i v hi hp hv

theorem Inv.leave (h : Inv s) (hj : s.waits[j]? = some w) (fails : Dir → Bool) :
    Inv (s.leave j w fails) := by
  unfold State.leave
  split
  · rename_i ha
    exact h.remove hj ha rfl nofun
  · rename_i ha
    exact h.depart hj (by simpa using ha)

theorem Inv.waitOne {fails : Bool} (h : Inv s) (hc : fails = true ∨ s.slots fd d = none) :
    Inv (s.waitOne fd d fails) := by
  cases fails with
  | true => exact h
  | false =>
    have hnone := hc.resolve_left (by simp)
    refine h.arrive (by simp) (by simpa using hnone) (by simp [arm, put_self]) fun fd' d' hne => ?_
    exact put_ne _ fun hfd hd => hne hfd (by simp [hd])

theorem Inv.poll {dirs : List Dir} (h : Inv s) (hne : dirs ≠ []) (hfree : ∀ d ∈ dirs, s.slots fd d = none)
    (hok : (arm fails s.slots fd s.waits.length dirs).2.2 = false) :
    Inv { s with
      slots := (arm fails s.slots fd s.waits.length dirs).1
      waits := s.waits ++ [{ fd, dirs, polls := true }] } :=
  h.arrive hne hfree (arm_self dirs s.slots hok) fun _ _ hother => arm_other dirs s.slots hother

theorem armed_subset {fails : Dir → Bool} (dirs : List Dir) (slots : Slots) :
    ∀ d ∈ (arm fails slots fd i dirs).2.1, d ∈ dirs := by
  induction dirs generalizing slots with
  | nil => exact fun d hd => absurd hd not_mem_nil
  | cons d' dirs ih =>
    intro d hd
    unfold arm at hd
    split at hd
    · rw [mem_singleton.1 hd]
      exact mem_cons_self
    · rcases mem_cons.1 hd with rfl | hd
      · exact mem_cons_self
      · exact mem_cons_of_mem d' (ih _ d hd)

theorem Inv.pollFails {failsLater : Dir → Bool} {dirs : List Dir} (h : Inv s)
    (hfree : ∀ d ∈ dirs, s.slots fd d = none) :
    Inv { s with
      slots := (disarm failsLater (arm fails s.slots fd s.waits.length dirs).1 fd
        (arm fails s.slots fd s.waits.length dirs).2.1).1 } := by
  refine h.setSlots _ fun i w hi ha d hd => ?_
  have hne : fd = w.fd → d ∉ dirs := fun hfd hmem => h.free hi ha hd (hfree d hmem) hfd
  have hdis := disarm_other failsLater (arm fails s.slots fd s.waits.length dirs).2.1
    (arm fails s.slots fd s.waits.length dirs).1 fun hfd hmem => hne hfd (armed_subset dirs s.slots d hmem)
  exact hdis.trans (arm_other dirs s.slots hne)

theorem schedule_fields (s : State) (fd : Nat) (d : Dir) :
    (s.schedule fd d).slots = s.slots ∧ (s.schedule fd d).waits = s.waits := by
  unfold State.schedule
  split <;> exact ⟨rfl, rfl⟩

theorem report_fields (s : State) (fd : Nat) (read write : Bool) :
    (s.report fd read write).slots = s.slots ∧ (s.report fd read write).waits = s.waits := by
  have hread : (if read then s.schedule fd .read else s).slots = s.slots ∧
      (if read then s.schedule fd .read else s).waits = s.waits := by
    split
    · exact schedule_fields s fd .read
    · exact ⟨rfl, rfl⟩
  unfold State.report
  split
  · exact schedule_fields s fd .read
  · dsimp only
    split
    · rcases schedule_fields (if read then s.schedule fd .read else s) fd .write with ⟨hslots, hwaits⟩
      exact ⟨hslots.trans hread.1, hwaits.trans hread.2⟩
    · exact hread

theorem Inv.wake {probe : Probe} (h : Inv s)
    (hc : ∀ w, s.waits[i]? = some w → w.active = true → (w.polls = true → probe = .ready) →
      ∀ d ∈ w.dirs, fails d = false) : Inv (s.wake i probe fails) := by
  unfold State.wake
  split
  · exact h
  · rename_i w hi
    split
    · exact h
    · rename_i hgo
      simp only [not_or, not_and, Bool.not_eq_false, Classical.not_not] at hgo
      refine h.remove hi hgo.1 rfl fun _ => ?_
      simp [disarm_quiet w.dirs s.slots (hc w hi hgo.1 hgo.2)]

/-- A wait that ends gives up its directions, and leaves those of the others. -/
theorem Inv.step {a : Action} (h : Inv s) (hc : s.Clear a) (hs : step s a = some s') : Inv s' := by
  cases a with
  | waitReadable fd fails | waitWritable fd fails =>
    cases hs
    exact h.waitOne hc
  | poll fd read write fails failsLater =>
    simp only [FdWaits.step] at hs
    split at hs
    · cases hs
    · rename_i hmask
      have hne : pollDirs read write ≠ [] := by
        cases read <;> cases write <;> simp_all [pollDirs]
      split at hs
      · cases hs
        exact h.pollFails hc
      · rename_i hok
        cases hs
        exact h.poll hne hc (by simpa using hok)
  | event fd read write =>
    cases hs
    rcases report_fields s fd read write with ⟨hslots, hwaits⟩
    exact h.congr hslots hwaits
  | wake n probe fails =>
    simp only [FdWaits.step] at hs
    split at hs
    · cases hs
    · rename_i i hn
      cases hs
      have herase : Inv { s with queue := s.queue.eraseIdx n } := h.congr rfl rfl
      refine herase.wake fun w hi => ?_
      have hi' : s.waits[i]? = some w := hi
      simpa [State.Clear, hn, hi'] using hc
  | throw i fails =>
    simp only [FdWaits.step] at hs
    split at hs
    · split at hs
      · cases hs
        exact h.leave (by assumption) fails
      · cases hs
    · cases hs
  | resume i =>
    simp only [FdWaits.step] at hs
    split at hs
    · split at hs
      · cases hs
        exact h.leave (by assumption) _
      · cases hs
    · cases hs

end Rules

/-! ## Runs -/

/-- In every run in which a wait finds free the slots that it registers, and no removal raises in a
wake callback, a parked wait is woken, about to be woken, or registered in every direction that it
waits for. -/
theorem none_stranded (as : List Action) (hclear : Along step State.Clear init as) :
    Always step NoneStranded init as :=
  always_of_along (fun _ h => h.noneStranded) (fun _ _ _ h hc hs => h.step hc hs) as init Inv.init hclear

/-- A poll and a reader on two descriptors: the poll's callback runs once in vain, and then with
both directions ready; the reader is cancelled and comes back. -/
def quietRun : List Action :=
  [.poll 5 true true (fun _ => false) fun _ => false, .waitReadable 6 false, .event 5 true true,
    .wake 0 .wouldBlock fun _ => false, .throw 1 fun _ => true, .waitReadable 6 false, .event 6 true false,
    .event 5 false true, .wake 1 .ready fun _ => false, .resume 0, .wake 0 .ready fun _ => false, .resume 2]

theorem none_stranded_quiet :
    Played step (fun s as => Along step State.Clear s as ∧
      Always step NoneStranded s as) init quietRun := by
  have hclear : Along step State.Clear init quietRun := by decide
  exact ⟨⟨hclear, none_stranded quietRun hclear⟩, by decide⟩

/-- Two tealets wait until the same descriptor is readable.  The second registration overwrites the
first, whose wait is never woken: the event goes to the second, which clears the slot. -/
theorem second_wait_strands_first :
    ∃ s, exec step init [.waitReadable 5 false, .waitReadable 5 false, .event 5 true false,
        .wake 0 .ready fun _ => false, .resume 1] = some s ∧
      s.queue = [] ∧ s.slots 5 .read = none ∧ s.slots 5 .write = none ∧
      s.waits[0]? = some { fd := 5, dirs := [.read], polls := false } ∧ ¬ NoneStranded s := by
  refine ⟨_, rfl, by decide, by decide, by decide, by decide, fun hall => ?_⟩
  have hfirst := hall 0 { fd := 5, dirs := [.read], polls := false } (by decide) rfl
  revert hfirst
  decide

end Pytealet.Scheduler.FdWaits
