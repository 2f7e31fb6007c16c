import Pytealet.Scheduler.FdWaits

/-!
# FdRegistration — the callbacks of a selector scheduler, and what its selector is registered for

`add_reader`, `add_writer` and their removals change the table of callbacks first, and then bring
the selector into step with it: `register`, `modify` or `unregister`.  The selector may refuse.  A
descriptor whose `register` fails is not registered, and one whose `modify` fails is not registered
any more.

The selector is also registered for the descriptor by which the scheduler wakes itself.
-/

namespace Pytealet.Scheduler.FdRegistration

open Lib Lib.Transition Function
open FdWaits (Dir)

/-- `_FdCallback` -/
structure Callback where
  callback : Nat
  args : List Nat
  context : Nat
  deriving DecidableEq, Repr

structure FdCallbacks where
  reader : Option Callback := none
  writer : Option Callback := none
  deriving DecidableEq, Repr

namespace FdCallbacks

def empty (e : FdCallbacks) : Bool :=
  e.reader.isNone && e.writer.isNone

def get (e : FdCallbacks) : Dir → Option Callback
  | .read => e.reader
  | .write => e.writer

def set (e : FdCallbacks) (d : Dir) (callback : Option Callback) : FdCallbacks :=
  match d with
  | .read => { e with reader := callback }
  | .write => { e with writer := callback }

end FdCallbacks

/-- `EVENT_READ` and `EVENT_WRITE` -/
structure Mask where
  read : Bool := false
  write : Bool := false
  deriving DecidableEq, Repr

def Mask.isEmpty (m : Mask) : Bool :=
  !m.read && !m.write

structure State where
  fdCallbacks : Nat → Option FdCallbacks
  /-- what the selector holds -/
  registered : Nat → Option Mask
  /-- the callbacks given to `call_soon` -/
  queue : List Callback := []

/-- What the selector reports of a descriptor; `fails` says that it refuses the call that
follows. -/
structure Event where
  fd : Nat
  mask : Mask
  fails : Bool
  deriving DecidableEq, Repr

namespace State

def selectorMaskForFd (s : State) (fd : Nat) : Mask :=
  match s.fdCallbacks fd with
  | none => { }
  | some e => { read := e.reader.isSome, write := e.writer.isSome }

/-- `_update_selector_registration`, and whether it raises; a failing `unregister` is ignored. -/
def updateSelectorRegistration (s : State) (fd : Nat) (fails : Bool) : Bool × State :=
  let mask := s.selectorMaskForFd fd
  match s.registered fd with
  | none =>
    if mask.isEmpty then (false, s)
    else if fails then (true, s)
    else (false, { s with registered := update s.registered fd (some mask) })
  | some _ =>
    if mask.isEmpty then (false, { s with registered := update s.registered fd none })
    else if fails then (true, { s with registered := update s.registered fd none })
    else (false, { s with registered := update s.registered fd (some mask) })

/-- An entry that has become empty is deleted. -/
def store (s : State) (fd : Nat) (e : FdCallbacks) : State :=
  { s with fdCallbacks := update s.fdCallbacks fd (if e.empty then none else some e) }

/-- `add_reader` and `add_writer`, and whether they raise.  Where the selector refuses, the callback
of before is put back, and the selector is brought into step again. -/
def add (d : Dir) (s : State) (fd : Nat) (callback : Callback) (fails : Bool) : Bool × State :=
  let entry := (s.fdCallbacks fd).getD { }
  let previous := entry.get d
  let entry₁ := entry.set d (some callback)
  let r :=
    { s with fdCallbacks := update s.fdCallbacks fd (some entry₁) }.updateSelectorRegistration fd
      fails
  if r.1 then (true, ((r.2.store fd (entry₁.set d previous)).updateSelectorRegistration fd false).2) else r

/-- `remove_reader` and `remove_writer`; they return whether there was a callback, or raise. -/
def remove (d : Dir) (s : State) (fd : Nat) (fails : Bool) : Option Bool × State :=
  match s.fdCallbacks fd with
  | none => (some false, s)
  | some entry =>
    if (entry.get d).isNone then (some false, s)
    else
      let r := (s.store fd (entry.set d none)).updateSelectorRegistration fd fails
      (if r.1 then none else some true, r.2)

def addReader :=
  add .read

def addWriter :=
  add .write

def removeReader :=
  remove .read

def removeWriter :=
  remove .write

def scheduleFdCallback (s : State) (fd : Nat) (d : Dir) : State :=
  match (s.fdCallbacks fd).bind fun e => e.get d with
  | none => s
  | some callback => { s with queue := s.queue ++ [callback] }

/-- The same callback with the same arguments; the context does not count. -/
def fdCallbacksMatch : Option Callback → Option Callback → Bool
  | some left, some right => decide (left.callback = right.callback) && decide (left.args = right.args)
  | _, _ => false

def shared (s : State) (fd : Nat) : Bool :=
  match s.fdCallbacks fd with
  | none => false
  | some e => fdCallbacksMatch e.reader e.writer

/-- A callback that stands in both slots is scheduled once. -/
def scheduleEvent (s : State) (fd : Nat) (mask : Mask) : State :=
  if (mask.read || mask.write) && s.shared fd then s.scheduleFdCallback fd .read
  else
    let s₁ := if mask.read then s.scheduleFdCallback fd .read else s
    if mask.write then s₁.scheduleFdCallback fd .write else s₁

/-- `_process_selector_events`; it stops where the selector refuses. -/
def processSelectorEvents (wakeupFd : Nat) (s : State) : List Event → Bool × State
  | [] => (false, s)
  | e :: es =>
    if e.fd = wakeupFd then processSelectorEvents wakeupFd s es
    else
      let r := (s.scheduleEvent e.fd e.mask).updateSelectorRegistration e.fd e.fails
      if r.1 then r else processSelectorEvents wakeupFd r.2 es

end State

inductive Action
  | addReader (fd : Nat) (callback : Callback) (fails : Bool)
  | removeReader (fd : Nat) (fails : Bool)
  | addWriter (fd : Nat) (callback : Callback) (fails : Bool)
  | removeWriter (fd : Nat) (fails : Bool)
  | events (es : List Event)
  deriving DecidableEq, Repr

def step (wakeupFd : Nat) (s : State) : Action → Option State
  | .addReader fd callback fails => some (s.addReader fd callback fails).2
  | .removeReader fd fails => some (s.removeReader fd fails).2
  | .addWriter fd callback fails => some (s.addWriter fd callback fails).2
  | .removeWriter fd fails => some (s.removeWriter fd fails).2
  | .events es => some (s.processSelectorEvents wakeupFd es).2

def init (wakeupFd : Nat) : State where
  fdCallbacks := fun _ => none
  registered := update (fun _ => none) wakeupFd (some { read := true })

/-! ## The property -/

/-- What the selector should hold for a descriptor. -/
def State.wanted (s : State) (fd : Nat) : Option Mask :=
  if (s.selectorMaskForFd fd).isEmpty then none else some (s.selectorMaskForFd fd)

/-- The selector is registered for the directions that have a callback. -/
def State.Agrees (wakeupFd : Nat) (s : State) : Prop :=
  ∀ fd, fd ≠ wakeupFd → s.registered fd = s.wanted fd

/-- An `add_reader` or `add_writer` that raises leaves the callbacks as they were. -/
def Undone (s : State) : Action → Prop
  | .addReader fd callback fails =>
    (s.addReader fd callback fails).1 = true → (s.addReader fd callback fails).2.fdCallbacks = s.fdCallbacks
  | .addWriter fd callback fails =>
    (s.addWriter fd callback fails).1 = true → (s.addWriter fd callback fails).2.fdCallbacks = s.fdCallbacks
  | _ => True

/-- The callback that is removed, with the one that stays, when the selector refuses. -/
def State.Strands (wakeupFd : Nat) (s : State) (fd : Nat) (d other : Dir) (fails : Bool) : Prop :=
  fails = true ∧ fd ≠ wakeupFd ∧ ∃ e, s.fdCallbacks fd = some e ∧ (e.get d).isSome = true ∧
    (e.get other).isSome = true

/-- The selector does not refuse a change for a descriptor that keeps a callback, but when one is
added. -/
def Met (wakeupFd : Nat) (s : State) : Action → Prop
  | .removeReader fd fails => ¬ s.Strands wakeupFd fd .read .write fails
  | .removeWriter fd fails => ¬ s.Strands wakeupFd fd .write .read fails
  | .events es => ∀ e ∈ es, e.fails = true → e.fd ≠ wakeupFd → (s.selectorMaskForFd e.fd).isEmpty = true
  | _ => True

/-! ## Bringing one descriptor into step -/

variable {wakeupFd fd : Nat} {s s' : State}

theorem update_fst (s : State) (fd : Nat) (fails : Bool) :
    (s.updateSelectorRegistration fd fails).1 = (!(s.selectorMaskForFd fd).isEmpty && fails) := by
  unfold State.updateSelectorRegistration
  cases hempty : (s.selectorMaskForFd fd).isEmpty <;> cases fails <;> cases s.registered fd <;>
    simp [hempty]

theorem update_snd (s : State) (fd : Nat) (fails : Bool) :
    (s.updateSelectorRegistration fd fails).2 =
      { s with registered := update s.registered fd (if fails then none else s.wanted fd) } := by
  unfold State.updateSelectorRegistration State.wanted
  split
  · rename_i hnone
    -- nothing is registered, and that is what stays if there is nothing to register or the selector
    -- refuses
    have hkeep : { s with registered := update s.registered fd none } = s := by
      rw [← hnone, update_eq_self]
    cases hempty : (s.selectorMaskForFd fd).isEmpty <;> cases fails <;> simp [hempty, hkeep]
  · cases hempty : (s.selectorMaskForFd fd).isEmpty <;> cases fails <;> simp [hempty]

theorem wanted_congr (h : s'.fdCallbacks fd = s.fdCallbacks fd) : s'.wanted fd = s.wanted fd := by
  have hmask : s'.selectorMaskForFd fd = s.selectorMaskForFd fd := by
    unfold State.selectorMaskForFd
    rw [h]
  rw [State.wanted, State.wanted, hmask]

/-- All descriptors but this one are in step. -/
def State.AgreesBut (wakeupFd : Nat) (s : State) (fd : Nat) : Prop :=
  ∀ fd', fd' ≠ wakeupFd → fd' ≠ fd → s.registered fd' = s.wanted fd'

theorem State.Agrees.but (h : s.Agrees wakeupFd)
    (hreg : ∀ fd', fd' ≠ fd → s'.registered fd' = s.registered fd')
    (hcallbacks : ∀ fd', fd' ≠ fd → s'.fdCallbacks fd' = s.fdCallbacks fd') : s'.AgreesBut wakeupFd fd := by
  intro fd' hwakeup hne
  rw [hreg fd' hne, wanted_congr (hcallbacks fd' hne)]
  exact h fd' hwakeup

theorem agrees_update (h : s.AgreesBut wakeupFd fd) (fails : Bool) :
    (s.updateSelectorRegistration fd fails).2.Agrees wakeupFd ↔
      (fails = true → fd ≠ wakeupFd → (s.selectorMaskForFd fd).isEmpty = true) := by
  rw [update_snd]
  constructor
  · intro hagrees hfails hwakeup
    have hfd := hagrees fd hwakeup
    dsimp only at hfd
    rw [update_self, if_pos hfails] at hfd
    by_contra hnot
    have hwanted : s.wanted fd = some (s.selectorMaskForFd fd) := if_neg hnot
    exact Option.some_ne_none _ (hwanted.symm.trans hfd.symm)
  · intro hmet fd' hwakeup
    dsimp only
    by_cases heq : fd' = fd
    · subst heq
      rw [update_self]
      by_cases hfails : fails = true
      · have hwanted : s.wanted fd' = none := if_pos (hmet hfails hwakeup)
        rw [if_pos hfails]
        exact hwanted.symm
      · rw [if_neg hfails]
        exact wanted_congr rfl
    · rw [update_of_ne heq]
      exact (h fd' hwakeup heq).trans (wanted_congr rfl)

theorem isEmpty_store (s : State) (fd : Nat) (e : FdCallbacks) :
    ((s.store fd e).selectorMaskForFd fd).isEmpty = e.empty := by
  cases e with
  | mk reader writer =>
    cases reader <;> cases writer <;> simp [State.selectorMaskForFd, State.store,
      FdCallbacks.empty, Mask.isEmpty]

/-! ## One operation -/

/-- No entry of the table is empty. -/
def State.Trim (s : State) : Prop :=
  ∀ fd e, s.fdCallbacks fd = some e → e.empty = false

theorem State.Trim.store (h : s.Trim) (fd : Nat) (e : FdCallbacks) : (s.store fd e).Trim := by
  intro fd' e' he'
  by_cases heq : fd' = fd
  · subst heq
    simp only [State.store, update_self] at he'
    by_cases hempty : e.empty = true
    · rw [if_pos hempty] at he'
      cases he'
    · rw [if_neg hempty] at he'
      cases he'
      exact Bool.eq_false_iff.2 hempty
  · simp only [State.store, update_of_ne heq] at he'
    exact h fd' e' he'

theorem set_get (e : FdCallbacks) (d : Dir) (callback : Option Callback) :
    (e.set d callback).set d (e.get d) = e := by
  cases d <;> rfl

theorem add_undone (h : s.Trim) (d : Dir) (fd : Nat) (callback : Callback) (fails : Bool)
    (hraises : (s.add d fd callback fails).1 = true) :
      (s.add d fd callback fails).2.fdCallbacks = s.fdCallbacks := by
  unfold State.add at hraises ⊢
  dsimp only at hraises ⊢
  split at hraises
  · rename_i hfirst
    rw [if_pos hfirst]
    simp only [update_snd, State.store, set_get, update_idem]
    -- an entry that was there is not empty, and one that was not there is
    cases hentry : s.fdCallbacks fd with
    | none =>
      have hempty : FdCallbacks.empty { } = true := rfl
      rw [Option.getD_none, if_pos hempty, ← hentry, update_eq_self]
    | some e =>
      rw [Option.getD_some, if_neg (Bool.eq_false_iff.1 (h fd e hentry)), ← hentry, update_eq_self]
  · rename_i hfirst
    exact absurd hraises hfirst

theorem State.Trim.add (h : s.Trim) (d : Dir) (fd : Nat) (callback : Callback) (fails : Bool) :
    (s.add d fd callback fails).2.Trim := by
  by_cases hraises : (s.add d fd callback fails).1 = true
  · intro fd' e he
    rw [add_undone h d fd callback fails hraises] at he
    exact h fd' e he
  · unfold State.add at hraises ⊢
    dsimp only at hraises ⊢
    split at hraises
    · exact absurd rfl hraises
    · rename_i hfirst
      rw [if_neg hfirst, update_snd]
      have hfull : (((s.fdCallbacks fd).getD { }).set d (some callback)).empty = false := by
        cases d <;> simp [FdCallbacks.set, FdCallbacks.empty]
      have hstore := h.store fd (((s.fdCallbacks fd).getD { }).set d (some callback))
      rw [State.store, hfull] at hstore
      exact hstore

/-- The callback that stands for a descriptor and a direction. -/
def State.slot (s : State) (fd : Nat) (d : Dir) : Option Callback :=
  (s.fdCallbacks fd).bind fun e => e.get d

theorem slot_store (s : State) (fd : Nat) (e : FdCallbacks) (d : Dir) :
    (s.store fd e).slot fd d = e.get d := by
  cases e with
  | mk reader writer =>
    cases reader <;> cases writer <;> cases d <;>
      simp [State.slot, State.store, FdCallbacks.empty, FdCallbacks.get]

theorem slot_getD (s : State) (fd : Nat) (d : Dir) : ((s.fdCallbacks fd).getD { }).get d = s.slot fd d := by
  unfold State.slot
  cases s.fdCallbacks fd with
  | none => cases d <;> rfl
  | some e => rfl

theorem get_set (e : FdCallbacks) (d : Dir) (callback : Option Callback) (d' : Dir) :
    (e.set d callback).get d' = if d' = d then callback else e.get d' := by
  cases d <;> cases d' <;> rfl

theorem add_fst (d : Dir) (s : State) (fd : Nat) (callback : Callback) (fails : Bool) :
    (s.add d fd callback fails).1 = fails := by
  have hfull : (State.selectorMaskForFd
      { s with fdCallbacks := update s.fdCallbacks fd (some (((s.fdCallbacks fd).getD { }).set d (some callback))) }
      fd).isEmpty = false := by
    cases d <;> simp [State.selectorMaskForFd, FdCallbacks.set, Mask.isEmpty]
  unfold State.add
  dsimp only
  rw [update_fst, hfull]
  cases fails with
  | true => rfl
  | false =>
    rw [if_neg (by simp), update_fst, hfull]
    rfl

theorem slot_add (d : Dir) (s : State) (fd : Nat) (callback : Callback) (fd' : Nat) (d' : Dir) :
    (s.add d fd callback false).2.slot fd' d' = if fd' = fd ∧
      d' = d then some callback else s.slot fd' d' := by
  have hfirst : ¬ (s.add d fd callback false).1 = true := by
    rw [add_fst]
    exact Bool.false_ne_true
  unfold State.add at hfirst ⊢
  dsimp only at hfirst ⊢
  split at hfirst
  · exact absurd rfl hfirst
  · rename_i hpass
    rw [if_neg hpass, update_snd]
    by_cases hfd : fd' = fd
    · subst hfd
      simp only [State.slot, update_self, Option.bind_some, get_set, true_and, slot_getD]
    · simp only [State.slot, update_of_ne hfd, hfd, false_and, if_false]

theorem slot_remove (d : Dir) (s : State) (fd : Nat) (fails : Bool) (fd' : Nat) (d' : Dir) :
    (s.remove d fd fails).2.slot fd' d' = if fd' = fd ∧ d' = d then none else s.slot fd' d' := by
  have hkeep : s.slot fd d = none → s.slot fd' d' = if fd' = fd ∧ d' = d then none else s.slot fd' d' := by
    intro hnone
    split
    · rename_i hboth
      rw [hboth.1, hboth.2]
      exact hnone
    · rfl
  unfold State.remove
  split
  · rename_i hentry
    exact hkeep (by rw [State.slot, hentry, Option.bind_none])
  · rename_i entry hentry
    split
    · rename_i hslot
      exact hkeep (by rw [State.slot, hentry, Option.bind_some, Option.isNone_iff_eq_none.1 hslot])
    · rw [update_snd]
      by_cases hfd : fd' = fd
      · subst hfd
        have hstore := slot_store s fd' (entry.set d none) d'
        rw [get_set] at hstore
        simp only [true_and]
        refine Eq.trans hstore ?_
        rw [State.slot, hentry, Option.bind_some]
      · simp only [State.slot, State.store, update_of_ne hfd, hfd, false_and, if_false]

theorem State.Agrees.add (h : s.Agrees wakeupFd) (d : Dir) (fd : Nat) (callback : Callback) (fails : Bool) :
    (s.add d fd callback fails).2.Agrees wakeupFd := by
  unfold State.add
  dsimp only
  split
  · -- the undo does not meet a refusal
    refine (agrees_update (h.but (fun fd' hne => ?_) fun fd' hne => ?_) false).2 nofun
    · rw [State.store, update_snd]
      exact update_of_ne hne _ _
    · simp only [State.store, update_snd, update_of_ne hne]
  · rename_i hfirst
    refine (agrees_update (h.but (fun _ _ => ?_) fun fd' hne => ?_) fails).2 fun hfails _ => ?_
    · rfl
    · exact update_of_ne hne _ _
    · rw [update_fst, hfails, Bool.and_true] at hfirst
      simpa using hfirst

theorem State.Trim.remove (h : s.Trim) (d : Dir) (fd : Nat) (fails : Bool) :
    (s.remove d fd fails).2.Trim := by
  unfold State.remove
  split
  · exact h
  · rename_i entry _
    split
    · exact h
    · dsimp only
      rw [update_snd]
      exact h.store fd (entry.set d none)

theorem agrees_remove (h : s.Agrees wakeupFd) {d other : Dir} (hne : d ≠ other) (fd : Nat) (fails : Bool) :
    (s.remove d fd fails).2.Agrees wakeupFd ↔ ¬ s.Strands wakeupFd fd d other fails := by
  unfold State.remove
  split
  · rename_i hnone
    refine iff_of_true h ?_
    rintro ⟨-, -, e, he, -⟩
    rw [hnone] at he
    cases he
  · rename_i entry hentry
    split
    · rename_i hslot
      refine iff_of_true h ?_
      rintro ⟨-, -, e, he, hsome, -⟩
      cases hentry.symm.trans he
      rw [Option.isNone_iff_eq_none.1 hslot] at hsome
      cases hsome
    · rename_i hslot
      have hbut : (s.store fd (entry.set d none)).AgreesBut wakeupFd fd :=
        h.but (fun _ _ => rfl) fun fd' hfd => update_of_ne hfd _ _
      refine (agrees_update hbut fails).trans ?_
      -- what stays is the callback for the other direction
      have hstays : (entry.set d none).empty = (entry.get other).isNone := by
        cases d <;> cases other <;> simp [FdCallbacks.set, FdCallbacks.empty, FdCallbacks.get] at hne ⊢
      rw [isEmpty_store, hstays]
      constructor
      · rintro hmet ⟨hfails, hwakeup, e, he, -, hother⟩
        cases hentry.symm.trans he
        rw [Option.isNone_iff_eq_none.1 (hmet hfails hwakeup)] at hother
        cases hother
      · intro hnot hfails hwakeup
        by_contra hother
        exact hnot ⟨hfails, hwakeup, entry, hentry, Option.isSome_iff_ne_none.2 (by simpa using hslot),
          Option.isSome_iff_ne_none.2 (by simpa using hother)⟩

@[simp] theorem schedule_fdCallbacks (s : State) (fd : Nat) (d : Dir) :
    (s.scheduleFdCallback fd d).fdCallbacks = s.fdCallbacks := by
  unfold State.scheduleFdCallback
  split <;> rfl

@[simp] theorem schedule_registered (s : State) (fd : Nat) (d : Dir) :
    (s.scheduleFdCallback fd d).registered = s.registered := by
  unfold State.scheduleFdCallback
  split <;> rfl

theorem scheduleEvent_fdCallbacks (s : State) (fd : Nat) (m : Mask) :
    (s.scheduleEvent fd m).fdCallbacks = s.fdCallbacks := by
  unfold State.scheduleEvent
  split
  · exact schedule_fdCallbacks s fd .read
  · cases m.read <;> cases m.write <;> simp

theorem scheduleEvent_registered (s : State) (fd : Nat) (m : Mask) :
    (s.scheduleEvent fd m).registered = s.registered := by
  unfold State.scheduleEvent
  split
  · exact schedule_registered s fd .read
  · cases m.read <;> cases m.write <;> simp

theorem events_fdCallbacks (es : List Event) (s : State) :
    (s.processSelectorEvents wakeupFd es).2.fdCallbacks = s.fdCallbacks := by
  induction es generalizing s with
  | nil => rfl
  | cons e es ih =>
    simp only [State.processSelectorEvents]
    split
    · exact ih s
    · split
      · rw [update_snd]
        exact scheduleEvent_fdCallbacks s e.fd e.mask
      · rw [ih, update_snd]
        exact scheduleEvent_fdCallbacks s e.fd e.mask

theorem agrees_events (es : List Event) (h : s.Agrees wakeupFd) :
    (s.processSelectorEvents wakeupFd es).2.Agrees wakeupFd ↔
      ∀ e ∈ es, e.fails = true → e.fd ≠ wakeupFd → (s.selectorMaskForFd e.fd).isEmpty = true := by
  induction es generalizing s with
  | nil => exact iff_of_true h (by simp)
  | cons e es ih =>
    have hmask : ∀ {s₁ : State} (fd : Nat), s₁.fdCallbacks = s.fdCallbacks →
        s₁.selectorMaskForFd fd = s.selectorMaskForFd fd := by
      intro s₁ fd hcallbacks
      rw [State.selectorMaskForFd, State.selectorMaskForFd, hcallbacks]
    simp only [State.processSelectorEvents, List.forall_mem_cons]
    split
    · rename_i hwakeup
      exact (ih h).trans (and_iff_right fun _ hne => absurd hwakeup hne).symm
    · rename_i hwakeup
      have hbut : (s.scheduleEvent e.fd e.mask).AgreesBut wakeupFd e.fd := by
        refine h.but (fun fd' _ => ?_) fun fd' _ => ?_
        · rw [scheduleEvent_registered]
        · rw [scheduleEvent_fdCallbacks]
      have hfirst := agrees_update hbut e.fails
      rw [hmask e.fd (scheduleEvent_fdCallbacks s e.fd e.mask)] at hfirst
      split
      · rename_i hraises
        rw [update_fst, hmask e.fd (scheduleEvent_fdCallbacks s e.fd e.mask), Bool.and_eq_true] at hraises
        -- the selector refuses here, and the rest is not looked at
        have hnot : ¬ (e.fails = true → e.fd ≠ wakeupFd →
            (s.selectorMaskForFd e.fd).isEmpty = true) := fun hmet => by
          rw [hmet hraises.2 hwakeup] at hraises
          cases hraises.1
        exact hfirst.trans (iff_of_false hnot fun hboth => hnot hboth.1)
      · rename_i hraises
        rw [update_fst, hmask e.fd (scheduleEvent_fdCallbacks s e.fd e.mask), Bool.and_eq_true] at hraises
        have hmet : e.fails = true → e.fd ≠ wakeupFd → (s.selectorMaskForFd e.fd).isEmpty = true :=
          fun hfails _ => by
          by_contra hempty
          exact hraises ⟨by simpa using hempty, hfails⟩
        have hrest := ih (hfirst.2 hmet)
        rw [update_snd] at hrest ⊢
        refine hrest.trans ?_
        have hsame : ∀ fd, State.selectorMaskForFd { s.scheduleEvent e.fd e.mask with
            registered := update (s.scheduleEvent e.fd e.mask).registered e.fd
              (if e.fails then none else (s.scheduleEvent e.fd e.mask).wanted e.fd) } fd =
                s.selectorMaskForFd fd :=
          fun fd => hmask fd (scheduleEvent_fdCallbacks s e.fd e.mask)
        simp only [hsame]
        exact (and_iff_right hmet).symm

/-! ## Runs -/

structure Inv (wakeupFd : Nat) (s : State) : Prop where
  agrees : s.Agrees wakeupFd
  trim : s.Trim

theorem inv_init (wakeupFd : Nat) : Inv wakeupFd (init wakeupFd) where
  agrees := by
    intro fd hne
    have hnone : (init wakeupFd).registered fd = none := by simp [init, update_of_ne hne]
    exact hnone
  trim := fun _ _ he => nomatch he

theorem trim_step {a : Action} (h : s.Trim) (hs : step wakeupFd s a = some s') : s'.Trim := by
  cases a with
  | addReader fd callback fails =>
    cases hs
    exact h.add .read fd callback fails
  | removeReader fd fails =>
    cases hs
    exact h.remove .read fd fails
  | addWriter fd callback fails =>
    cases hs
    exact h.add .write fd callback fails
  | removeWriter fd fails =>
    cases hs
    exact h.remove .write fd fails
  | events es =>
    cases hs
    intro fd e he
    rw [events_fdCallbacks] at he
    exact h fd e he

theorem agrees_step {a : Action} (h : s.Agrees wakeupFd) (hs : step wakeupFd s a = some s') :
    s'.Agrees wakeupFd ↔ Met wakeupFd s a := by
  cases a with
  | addReader fd callback fails =>
    cases hs
    exact iff_of_true (h.add .read fd callback fails) trivial
  | removeReader fd fails =>
    cases hs
    exact agrees_remove h (by decide) fd fails
  | addWriter fd callback fails =>
    cases hs
    exact iff_of_true (h.add .write fd callback fails) trivial
  | removeWriter fd fails =>
    cases hs
    exact agrees_remove h (by decide) fd fails
  | events es =>
    cases hs
    exact agrees_events es h

theorem undone_of_trim (h : s.Trim) (a : Action) : Undone s a := by
  cases a with
  | addReader fd callback fails => exact add_undone h .read fd callback fails
  | addWriter fd callback fails => exact add_undone h .write fd callback fails
  | _ => trivial

/-- In a run, the selector is in step with the callbacks if and only if it has refused no change for
a descriptor that keeps a callback, but those that are undone; and an add that raises is always
undone. -/
theorem registration_agrees (wakeupFd : Nat) (run : List Action) :
    (Always (step wakeupFd) (State.Agrees wakeupFd) (init wakeupFd) run ↔
      Along (step wakeupFd) (Met wakeupFd) (init wakeupFd) run) ∧
    Along (step wakeupFd) Undone (init wakeupFd) run := by
  constructor
  · refine always_iff_along (fun s h => h.agrees) (fun s a s' h hmet hs => ?_)
      (fun s a s' h hmet hs => ?_) run _
      (inv_init wakeupFd)
    · exact ⟨(agrees_step h.agrees hs).2 hmet, trim_step h.trim hs⟩
    · exact fun hagrees => hmet ((agrees_step h.agrees hs).1 hagrees)
  · refine along_of_possible (C := fun _ _ => True) (fun s a s' h _ hs => ?_) (inv_init wakeupFd).trim
      (along_of_forall (fun _ _ => trivial) run _)
    exact ⟨undone_of_trim h a, trim_step h hs⟩

/-- The selector refuses to take the reader of a descriptor away: the writer stays, and is not
registered any more. -/
theorem writer_stranded :
    ¬ Always (step 0) (State.Agrees 0) (init 0)
      [.addReader 5 { callback := 1, args := [], context := 0 } false,
        .addWriter 5 { callback := 2, args := [], context := 0 } false, .removeReader 5 true] := by
  intro h
  have hfive := h.2.2.2 5 (by decide)
  exact absurd hfive (by decide)

end Pytealet.Scheduler.FdRegistration
