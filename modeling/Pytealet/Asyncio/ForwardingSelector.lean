import Pytealet.Lib.Dict
import Pytealet.Scheduler.FdRegistration

/-!
# ForwardingSelector — the selector of an asyncio loop, served by a scheduler

`ForwardingSelector` keeps the keys that the loop has registered, and has a callback in the
scheduler for each event of a key.  The callback marks the descriptor as ready; `select` takes the
marks, and keeps those whose event is still of interest.

A change of interest is up to four calls of the scheduler, of which an `add_reader` or `add_writer`
may raise.
-/

namespace Pytealet.Asyncio.ForwardingSelector

open Lib Lib.Transition
open Scheduler.FdWaits (Dir)
open Scheduler.FdRegistration (Callback Mask)
open Scheduler (FdRegistration.State)

/-! ## Masks -/

def has (m : Mask) : Dir → Bool
  | .read => m.read
  | .write => m.write

def put (m : Mask) (d : Dir) (b : Bool) : Mask :=
  match d with
  | .read => { m with read := b }
  | .write => { m with write := b }

def meet (m n : Mask) : Mask where
  read := m.read && n.read
  write := m.write && n.write

/-- `_validate_events`; the bits 1 and 2 are the only ones. -/
def validateEvents (events : Int) : Option Mask :=
  if events = 1 then some { read := true }
  else if events = 2 then some { write := true }
  else if events = 3 then some { read := true, write := true }
  else none

/-! ## The selector -/

structure FileObj where
  name : Nat
  fileno : Nat
  deriving DecidableEq, Repr

/-- `SelectorKey` -/
structure Key where
  fileobj : FileObj
  fd : Nat
  events : Mask
  data : Nat
  deriving DecidableEq, Repr

structure State where
  sched : Scheduler.FdRegistration.State
  keys : Dict Nat Key := Dict.empty
  readyMasks : Dict Nat Mask := Dict.empty
  /-- the event `_ready` -/
  ready : Bool := false
  /-- a `select` waits, and whether it has a timeout -/
  waiting : Option Bool := none
  closed : Bool := false

/-- `_mark_ready` with its arguments; the context in which it runs does not matter. -/
def markReadyCallback (fd : Nat) (d : Dir) : Callback where
  callback := 0
  args := [fd, match d with
    | .read => 1
    | .write => 2]
  context := 0

namespace State

def events (s : State) (fd : Nat) : Mask :=
  match s.keys.get? fd with
  | none => { }
  | some key => key.events

/-- The callback is removed when the event is not of interest any more. -/
def drop (d : Dir) (fd : Nat) (old new : Mask) (sched : Scheduler.FdRegistration.State) :
    Scheduler.FdRegistration.State :=
  if has old d && !has new d then (sched.remove d fd false).2 else sched

/-- The callback is added when the event is newly of interest. -/
def take (d : Dir) (fd : Nat) (old new : Mask) (fails : Bool) (sched : Scheduler.FdRegistration.State) :
    Bool × Scheduler.FdRegistration.State :=
  if has new d && !has old d then sched.add d fd (markReadyCallback fd d) fails else (false, sched)

/-- `_sync_scheduler_registration`, and whether it raises. -/
def syncSchedulerRegistration (sched : Scheduler.FdRegistration.State) (fd : Nat) (old new : Mask)
    (readerFails writerFails : Bool) : Bool × Scheduler.FdRegistration.State :=
  let r := take .read fd old new readerFails (drop .write fd old new (drop .read fd old new sched))
  if r.1 then r else take .write fd old new writerFails r.2

end State

/-- What a call does: it raises, returns, returns events, or waits. -/
inductive Output
  | raised
  | returned
  | selected (events : List (Key × Mask))
  | waits
  deriving DecidableEq, Repr

namespace State

def register (s : State) (fileobj : FileObj) (events : Int) (data : Nat)
    (readerFails writerFails : Bool) : Output × State :=
  let fd := fileobj.fileno
  if (s.keys.get? fd).isSome then (.raised, s)
  else
    match validateEvents events with
    | none => (.raised, s)
    | some mask =>
      let s₁ := { s with keys := s.keys.set fd { fileobj, fd, events := mask, data } }
      let r := syncSchedulerRegistration s₁.sched fd { } mask readerFails writerFails
      if r.1 then (.raised, { s₁ with keys := s₁.keys.erase fd, sched := r.2 })
      else (.returned, { s₁ with sched := r.2 })

def unregister (s : State) (fd : Nat) : Output × State :=
  match s.keys.get? fd with
  | none => (.raised, s)
  | some key =>
    let s₁ := { s with keys := s.keys.erase fd, readyMasks := s.readyMasks.erase fd }
    (.returned, { s₁ with sched := (syncSchedulerRegistration s₁.sched fd key.events { } false false).2 })

def modify (s : State) (fd : Nat) (events : Int) (data : Nat) (readerFails writerFails : Bool) :
    Output × State :=
  match s.keys.get? fd with
  | none => (.raised, s)
  | some key =>
    match validateEvents events with
    | none => (.raised, s)
    | some mask =>
      let r := syncSchedulerRegistration s.sched fd key.events mask readerFails writerFails
      if r.1 then (.raised, { s with sched := r.2 })
      else (.returned, { s with sched := r.2, keys := s.keys.set fd { key with events := mask, data } })

def close (s : State) : State :=
  if s.closed then s else s.keys.keys.foldl (fun s fd => (s.unregister fd).2) { s with closed := true }

def markReady (s : State) (fd : Nat) (d : Dir) : State :=
  match s.keys.get? fd with
  | none => s
  | some key =>
    if has key.events d then
      { s with readyMasks := s.readyMasks.set fd (put ((s.readyMasks.get? fd).getD { }) d true), ready := true }
    else s

/-- What `_drain_ready` reports of one descriptor. -/
def report (s : State) (item : Nat × Mask) : Option (Key × Mask) :=
  match s.keys.get? item.1 with
  | none => none
  | some key => if (meet item.2 key.events).isEmpty then none else some (key, meet item.2 key.events)

def drainReady (s : State) : Output × State :=
  (.selected (s.readyMasks.items.filterMap s.report), { s with readyMasks := Dict.empty, ready := false })

/-- `select`, up to the point where it waits. -/
def select (s : State) (timeout : Option Int) : Output × State :=
  match timeout with
  | some t =>
    if t ≤ 0 then s.drainReady
    else if s.readyMasks.items.isEmpty then (.waits, { s with ready := false, waiting := some true })
    else s.drainReady
  | none =>
    if s.readyMasks.items.isEmpty then (.waits, { s with ready := false, waiting := some false })
    else s.drainReady

end State

inductive Action
  | register (fileobj : FileObj) (events : Int) (data : Nat) (readerFails writerFails : Bool)
  | unregister (fd : Nat)
  | modify (fd : Nat) (events : Int) (data : Nat) (readerFails writerFails : Bool)
  | close
  /-- the scheduler runs a callback that it has queued, perhaps long ago -/
  | markReady (fd : Nat) (d : Dir)
  | select (timeout : Option Int)
  /-- the timer of a waiting `select` sets the event -/
  | timer
  /-- a waiting `select` finds the event set -/
  | resume
  /-- an exception is thrown into a waiting `select` -/
  | interrupt
  deriving DecidableEq, Repr

def State.call (s : State) : Action → Option (Output × State)
  | .register fileobj events data readerFails writerFails =>
    some (s.register fileobj events data readerFails writerFails)
  | .unregister fd => some (s.unregister fd)
  | .modify fd events data readerFails writerFails => some (s.modify fd events data readerFails writerFails)
  | .close => some (.returned, s.close)
  | .markReady fd d => some (.returned, s.markReady fd d)
  | .select timeout => if s.waiting.isSome then none else some (s.select timeout)
  | .timer => if s.waiting = some true then some (.returned, { s with ready := true }) else none
  | .resume => if s.waiting.isSome && s.ready then some { s with waiting := none }.drainReady else none
  | .interrupt => if s.waiting.isSome then some (.raised, { s with waiting := none }) else none

/-! ## What has been marked

Beside the selector stands what a caller could know: the marks that were made since a `select` has last returned, and
which of them have been of interest without a break. -/

structure Watched where
  state : State
  marked : Nat → Dir → Bool := fun _ _ => false
  live : Nat → Dir → Bool := fun _ _ => false

def Action.marks (fd : Nat) (d : Dir) : Action → Bool
  | .markReady fd' d' => decide (fd = fd' ∧ d = d')
  | _ => false

def Watched.after (w : Watched) (a : Action) (out : Output) (s' : State) : Watched :=
  match out with
  | .selected _ => { state := s' }
  | _ =>
    { state := s'
      marked := fun fd d => w.marked fd d || a.marks fd d
      live := fun fd d =>
        (w.live fd d || a.marks fd d) && has (w.state.events fd) d && has (s'.events fd) d }

def step (w : Watched) (a : Action) : Option Watched :=
  (w.state.call a).map fun r => w.after a r.1 r.2

def init (sched : Scheduler.FdRegistration.State) : Watched where
  state := { sched }

/-! ## The property -/

/-- The scheduler has the callbacks of this selector for these events of a descriptor, and no
other. -/
def Holds (sched : Scheduler.FdRegistration.State) (fd : Nat) (m : Mask) : Prop :=
  ∀ d, sched.slot fd d = if has m d then some (markReadyCallback fd d) else none

/-- The scheduler is in step with the keys. -/
def InStep (w : Watched) : Prop :=
  ∀ fd, Holds w.state.sched fd (w.state.events fd)

/-- A `register` or `modify` that raises leaves the keys and the callbacks as they were. -/
def Restored (w : Watched) (a : Action) : Prop :=
  ∀ s', w.state.call a = some (.raised, s') →
    (∀ fd, s'.keys.get? fd = w.state.keys.get? fd) ∧ ∀ fd d, s'.sched.slot fd d = w.state.sched.slot fd d

/-- What `select` returns are keys with events of theirs that were marked, and no mark is missing
that has been of interest without a break. -/
def Reported (w : Watched) (a : Action) : Prop :=
  ∀ events s', w.state.call a = some (.selected events, s') →
    (∀ key m, (key, m) ∈ events → w.state.keys.get? key.fd = some key ∧ m.isEmpty = false ∧
      ∀ d, has m d = true → has key.events d = true ∧ w.marked key.fd d = true) ∧
    ∀ fd d, w.live fd d = true → ∃ key m, (key, m) ∈ events ∧ key.fd = fd ∧ has m d = true

/-- The call of the scheduler that fails comes after one that has changed something. -/
def Partial (old new : Mask) (readerFails writerFails : Bool) : Prop :=
  let readerRaises := new.read && !old.read && readerFails
  let writerRaises := new.write && !old.write && writerFails
  (readerRaises = true ∧ old.write = true ∧ new.write = false) ∨
    (readerRaises = false ∧ writerRaises = true ∧ old.read ≠ new.read)

/-- No `register` or `modify` fails half-way. -/
def Met (w : Watched) : Action → Prop
  | .register fileobj events _ readerFails writerFails =>
    w.state.keys.get? fileobj.fileno = none → ∀ mask, validateEvents events = some mask →
      ¬ Partial { } mask readerFails writerFails
  | .modify fd events _ readerFails writerFails =>
    ∀ key mask, w.state.keys.get? fd = some key → validateEvents events = some mask →
      ¬ Partial key.events mask readerFails writerFails
  | _ => True

/-! ## Changing what is of interest -/

variable {sched sched' : Scheduler.FdRegistration.State} {fd : Nat} {m m' old new : Mask} {s s' : State}

theorem has_put (m : Mask) (d : Dir) (b : Bool) (d' : Dir) :
    has (put m d b) d' = if d' = d then b else has m d' := by
  cases d <;> cases d' <;> rfl

theorem mask_ext (h : ∀ d, has m d = has m' d) : m = m' := by
  cases m with
  | mk read write =>
    cases m' with
    | mk read' write' =>
      have hread : read = read' := h .read
      have hwrite : write = write' := h .write
      rw [hread, hwrite]

theorem Holds.unique (h : Holds sched fd m) (h' : Holds sched fd m') : m = m' := by
  refine mask_ext fun d => ?_
  have heq := (h d).symm.trans (h' d)
  cases hm : has m d <;> cases hm' : has m' d <;> simp [hm, hm'] at heq ⊢

/-- The same callbacks but for one descriptor. -/
structure Frame (fd : Nat) (sched sched' : Scheduler.FdRegistration.State) : Prop where
  trim : sched.Trim → sched'.Trim
  others : ∀ fd' d, fd' ≠ fd → sched'.slot fd' d = sched.slot fd' d

theorem Frame.refl (fd : Nat) (sched : Scheduler.FdRegistration.State) : Frame fd sched sched :=
  ⟨id, fun _ _ _ => rfl⟩

theorem Frame.trans {sched'' : Scheduler.FdRegistration.State} (h : Frame fd sched sched')
    (h' : Frame fd sched' sched'') :
    Frame fd sched sched'' :=
  ⟨fun htrim => h'.trim (h.trim htrim), fun fd' d hne => (h'.others fd' d hne).trans (h.others fd' d hne)⟩

def dropped (d : Dir) (old new m : Mask) : Mask :=
  if has old d && !has new d then put m d false else m

def taken (d : Dir) (old new : Mask) (fails : Bool) (m : Mask) : Bool × Mask :=
  if has new d && !has old d then (fails, if fails then m else put m d true) else (false, m)

/-- What the callbacks stand for after a synchronization. -/
def synced (old new : Mask) (readerFails writerFails : Bool) : Bool × Mask :=
  let r := taken .read old new readerFails (dropped .write old new (dropped .read old new old))
  if r.1 then r else taken .write old new writerFails r.2

theorem drop_frame (d : Dir) (fd : Nat) (old new : Mask) (sched : Scheduler.FdRegistration.State) :
    Frame fd sched (State.drop d fd old new sched) := by
  unfold State.drop
  split
  · refine ⟨fun htrim => htrim.remove d fd false, fun fd' d' hne => ?_⟩
    rw [Scheduler.FdRegistration.slot_remove, if_neg fun hboth => hne hboth.1]
  · exact Frame.refl fd sched

theorem Holds.drop (h : Holds sched fd m) (d : Dir) (old new : Mask) :
    Holds (State.drop d fd old new sched) fd (dropped d old new m) := by
  unfold State.drop dropped
  split
  · intro d'
    rw [Scheduler.FdRegistration.slot_remove, has_put, h d']
    by_cases hd : d' = d
    · rw [if_pos ⟨rfl, hd⟩, if_pos hd]
      rfl
    · rw [if_neg fun hboth => hd hboth.2, if_neg hd]
  · exact h

theorem take_frame (htrim : sched.Trim) (d : Dir) (fd : Nat) (old new : Mask) (fails : Bool) :
    Frame fd sched (State.take d fd old new fails sched).2 := by
  unfold State.take
  split
  · refine ⟨fun _ => htrim.add d fd _ fails, fun fd' d' hne => ?_⟩
    cases fails with
    | true =>
      have hundone := Scheduler.FdRegistration.add_undone htrim d fd (markReadyCallback fd d) true
        (Scheduler.FdRegistration.add_fst d sched fd _ true)
      rw [Scheduler.FdRegistration.State.slot, hundone]
      rfl
    | false =>
      rw [Scheduler.FdRegistration.slot_add, if_neg fun hboth => hne hboth.1]
  · exact Frame.refl fd sched

theorem Holds.take (h : Holds sched fd m) (htrim : sched.Trim) (d : Dir) (old new : Mask) (fails : Bool) :
    (State.take d fd old new fails sched).1 = (taken d old new fails m).1 ∧
      Holds (State.take d fd old new fails sched).2 fd (taken d old new fails m).2 := by
  unfold State.take taken
  split
  · refine ⟨Scheduler.FdRegistration.add_fst d sched fd _ fails, fun d' => ?_⟩
    cases fails with
    | true =>
      have hundone := Scheduler.FdRegistration.add_undone htrim d fd (markReadyCallback fd d) true
        (Scheduler.FdRegistration.add_fst d sched fd _ true)
      rw [Scheduler.FdRegistration.State.slot, hundone]
      exact h d'
    | false =>
      rw [Scheduler.FdRegistration.slot_add, h d']
      by_cases hd : d' = d
      · subst hd
        simp [has_put]
      · simp [hd, has_put]
  · exact ⟨rfl, h⟩

theorem sync_frame (htrim : sched.Trim) (fd : Nat) (old new : Mask) (readerFails writerFails : Bool) :
    Frame fd sched (State.syncSchedulerRegistration sched fd old new readerFails writerFails).2 := by
  have hdrop :=
    (drop_frame .read fd old new sched).trans
      (drop_frame .write fd old new (State.drop .read fd old new sched))
  have htake := take_frame (hdrop.trim htrim) .read fd old new readerFails
  unfold State.syncSchedulerRegistration
  dsimp only
  split
  · exact hdrop.trans htake
  · exact (hdrop.trans htake).trans (take_frame (htake.trim (hdrop.trim htrim))
      .write fd old new writerFails)

theorem Holds.sync (h : Holds sched fd old) (htrim : sched.Trim) (new : Mask)
    (readerFails writerFails : Bool) :
    (State.syncSchedulerRegistration sched fd old new readerFails writerFails).1 =
        (synced old new readerFails writerFails).1 ∧
      Holds (State.syncSchedulerRegistration sched fd old new readerFails writerFails).2 fd
        (synced old new readerFails writerFails).2 := by
  have hdrop :=
    (drop_frame .read fd old new sched).trans
      (drop_frame .write fd old new (State.drop .read fd old new sched))
  have htake := take_frame (hdrop.trim htrim) .read fd old new readerFails
  rcases ((h.drop .read old new).drop .write old new).take (hdrop.trim htrim) .read old new
    readerFails with ⟨hfst, hsnd⟩
  unfold State.syncSchedulerRegistration synced
  dsimp only
  rw [hfst]
  split
  · exact ⟨hfst, hsnd⟩
  · exact hsnd.take (htake.trim (hdrop.trim htrim)) .write old new writerFails

theorem synced_returns (old new : Mask) (readerFails writerFails : Bool)
    (h : (synced old new readerFails writerFails).1 = false) :
      (synced old new readerFails writerFails).2 = new := by
  cases old with
  | mk r w =>
    cases new with
    | mk r' w' =>
      revert r w r' w' readerFails writerFails
      decide

instance (old new : Mask) (readerFails writerFails : Bool) :
    Decidable (Partial old new readerFails writerFails) :=
  inferInstanceAs (Decidable (_ ∨ _))

theorem synced_raises (old new : Mask) (readerFails writerFails : Bool)
    (h : (synced old new readerFails writerFails).1 = true) :
    (synced old new readerFails writerFails).2 = old ↔ ¬ Partial old new readerFails writerFails := by
  cases old with
  | mk r w =>
    cases new with
    | mk r' w' =>
      revert r w r' w' readerFails writerFails
      decide

theorem not_partial_of_returns (old new : Mask) (readerFails writerFails : Bool)
    (h : (synced old new readerFails writerFails).1 = false) :
      ¬ Partial old new readerFails writerFails := by
  cases old with
  | mk r w =>
    cases new with
    | mk r' w' =>
      revert r w r' w' readerFails writerFails
      decide

theorem synced_none (old : Mask) : synced old { } false false = (false, { }) := by
  cases old with
  | mk r w =>
    revert r w
    decide

/-! ## One call -/

def State.Matched (s : State) : Prop :=
  ∀ fd, Holds s.sched fd (s.events fd)

theorem State.Matched.change (h : s.Matched) (hframe : Frame fd s.sched s'.sched)
    (hevents : ∀ fd', fd' ≠ fd → s'.events fd' = s.events fd')
    (hfd : Holds s'.sched fd (s'.events fd)) : s'.Matched := by
  intro fd'
  by_cases heq : fd' = fd
  · rw [heq]
    exact hfd
  · intro d
    rw [hframe.others fd' d heq, hevents fd' heq]
    exact h fd' d

theorem events_congr (h : s'.keys.get? fd = s.keys.get? fd) : s'.events fd = s.events fd := by
  rw [State.events, State.events, h]

theorem State.Matched.raised (h : s.Matched) (htrim : s.sched.Trim) (fd : Nat) (new : Mask)
    {readerFails writerFails : Bool} (s' : State)
    (hraises : (State.syncSchedulerRegistration s.sched fd
      (s.events fd) new readerFails writerFails).1 = true)
    (hkeys : ∀ fd', s'.keys.get? fd' = s.keys.get? fd')
    (hsched : s'.sched = (State.syncSchedulerRegistration s.sched fd
      (s.events fd) new readerFails writerFails).2) :
    (s'.Matched ↔ ¬ Partial (s.events fd) new readerFails writerFails) ∧
      (s'.Matched → ∀ fd' d, s'.sched.slot fd' d = s.sched.slot fd' d) := by
  rcases (h fd).sync htrim new readerFails writerFails with ⟨hfst, hholds⟩
  rw [hfst] at hraises
  rw [← hsched] at hholds
  have hframe : Frame fd s.sched s'.sched :=
    hsched ▸ sync_frame htrim fd (s.events fd) new readerFails writerFails
  constructor
  · rw [← synced_raises (s.events fd) new readerFails writerFails hraises]
    constructor
    · intro hmatched
      have hfd := hmatched fd
      rw [events_congr (hkeys fd)] at hfd
      exact hholds.unique hfd
    · intro heq
      refine h.change hframe (fun fd' _ => events_congr (hkeys fd')) ?_
      rw [events_congr (hkeys fd)]
      exact heq ▸ hholds
  · intro hmatched fd' d
    rw [hmatched fd' d, events_congr (hkeys fd')]
    exact (h fd' d).symm

/-- What a call does to the callbacks: they match again if and only if it has not failed half-way,
and then a call that raises has restored them. -/
structure Settles (s : State) (met : Prop) (out : Output) (s' : State) : Prop where
  trim : s'.sched.Trim
  matched : s'.Matched ↔ met
  restored : s'.Matched → out = .raised →
    (∀ fd, s'.keys.get? fd = s.keys.get? fd) ∧ ∀ fd d, s'.sched.slot fd d = s.sched.slot fd d

theorem Settles.refl (h : s.Matched) (htrim : s.sched.Trim) {met : Prop} (hmet : met) (out : Output) :
    Settles s met out s where
  trim := htrim
  matched := iff_of_true h hmet
  restored := fun _ _ => ⟨fun _ => rfl, fun _ _ => rfl⟩

theorem register_settles (h : s.Matched) (htrim : s.sched.Trim) (fileobj : FileObj)
    (events : Int) (data : Nat)
    (readerFails writerFails : Bool) :
    Settles s (s.keys.get? fileobj.fileno = none → ∀ mask, validateEvents events = some mask →
        ¬ Partial { } mask readerFails writerFails)
      (s.register fileobj events data readerFails writerFails).1
      (s.register fileobj events data readerFails writerFails).2 := by
  unfold State.register
  dsimp only
  split
  · rename_i hold
    refine Settles.refl h htrim (fun hnone => ?_) .raised
    rw [hnone] at hold
    cases hold
  · rename_i hnew
    have hnone : s.keys.get? fileobj.fileno = none := Option.not_isSome_iff_eq_none.1 hnew
    have hevents : s.events fileobj.fileno = { } := by rw [State.events, hnone]
    split
    · rename_i hinvalid
      refine Settles.refl h htrim (fun _ mask hmask => ?_) .raised
      rw [hinvalid] at hmask
      cases hmask
    · rename_i mask hmask
      have hframe := sync_frame htrim fileobj.fileno { } mask readerFails writerFails
      have hcond : (s.keys.get? fileobj.fileno = none → ∀ m, validateEvents events = some m →
          ¬ Partial { } m readerFails writerFails) ↔ ¬ Partial { } mask readerFails writerFails := by
        constructor
        · exact fun hall => hall hnone mask hmask
        · intro hnot _ m hm
          cases hmask.symm.trans hm
          exact hnot
      rw [hcond]
      split
      · rename_i hraises
        have hkeys : ∀ (key : Key) fd', ((s.keys.set fileobj.fileno key).erase fileobj.fileno).get? fd' =
            s.keys.get? fd' := by
          intro key fd'
          rw [Dict.get?_erase, Dict.get?_set]
          split
          · rename_i heq
            rw [heq, hnone]
          · rfl
        have hboth := h.raised htrim fileobj.fileno mask
          { s with
            keys := (s.keys.set fileobj.fileno { fileobj, fd := fileobj.fileno, events := mask, data }).erase
              fileobj.fileno
            sched :=
              (State.syncSchedulerRegistration s.sched fileobj.fileno { } mask
                readerFails writerFails).2 }
          (by rw [hevents]; exact hraises) (hkeys _) (by rw [hevents])
        rw [hevents] at hboth
        exact ⟨hframe.trim htrim, hboth.1, fun hmatched _ => ⟨hkeys _, hboth.2 hmatched⟩⟩
      · rename_i hreturns
        have hfalse := Bool.eq_false_iff.2 hreturns
        have hholds := (hevents ▸ h fileobj.fileno).sync htrim mask readerFails writerFails
        rw [hholds.1] at hfalse
        rw [synced_returns _ _ _ _ hfalse] at hholds
        refine ⟨hframe.trim htrim, iff_of_true ?_ (not_partial_of_returns _ _ _ _ hfalse),
          fun _ hout => by cases hout⟩
        refine h.change hframe (fun fd' hne => events_congr ?_) ?_
        · rw [Dict.get?_set, if_neg hne]
        · rw [State.events, Dict.get?_set, if_pos rfl]
          exact hholds.2

theorem modify_settles (h : s.Matched) (htrim : s.sched.Trim) (fd : Nat) (events : Int) (data : Nat)
    (readerFails writerFails : Bool) :
    Settles s (∀ key mask, s.keys.get? fd = some key → validateEvents events = some mask →
        ¬ Partial key.events mask readerFails writerFails)
      (s.modify fd events data readerFails writerFails).1
        (s.modify fd events data readerFails writerFails).2 := by
  unfold State.modify
  split
  · rename_i hnone
    refine Settles.refl h htrim (fun key mask hkey => ?_) .raised
    rw [hnone] at hkey
    cases hkey
  · rename_i key hkey
    have hevents : s.events fd = key.events := by rw [State.events, hkey]
    split
    · rename_i hinvalid
      refine Settles.refl h htrim (fun key mask _ hmask => ?_) .raised
      rw [hinvalid] at hmask
      cases hmask
    · rename_i mask hmask
      have hframe := sync_frame htrim fd key.events mask readerFails writerFails
      have hcond : (∀ k m, s.keys.get? fd = some k → validateEvents events = some m →
          ¬ Partial k.events m readerFails writerFails) ↔
            ¬ Partial key.events mask readerFails writerFails := by
        constructor
        · exact fun hall => hall key mask hkey hmask
        · intro hnot k m hk hm
          cases hkey.symm.trans hk
          cases hmask.symm.trans hm
          exact hnot
      rw [hcond]
      dsimp only
      split
      · rename_i hraises
        have hboth := h.raised htrim fd mask
          { s with sched := (State.syncSchedulerRegistration s.sched fd key.events mask
            readerFails writerFails).2 }
          (by rw [hevents]; exact hraises) (fun _ => rfl) (by rw [hevents])
        rw [hevents] at hboth
        exact ⟨hframe.trim htrim, hboth.1, fun hmatched _ => ⟨fun _ => rfl, hboth.2 hmatched⟩⟩
      · rename_i hreturns
        have hfalse := Bool.eq_false_iff.2 hreturns
        have hholds := (hevents ▸ h fd).sync htrim mask readerFails writerFails
        rw [hholds.1] at hfalse
        rw [synced_returns _ _ _ _ hfalse] at hholds
        refine ⟨hframe.trim htrim, iff_of_true ?_ (not_partial_of_returns _ _ _ _ hfalse),
          fun _ hout => by cases hout⟩
        refine h.change hframe (fun fd' hne => events_congr ?_) ?_
        · rw [Dict.get?_set, if_neg hne]
        · rw [State.events, Dict.get?_set, if_pos rfl]
          exact hholds.2

theorem unregister_matched (h : s.Matched) (htrim : s.sched.Trim) (fd : Nat) :
    (s.unregister fd).2.sched.Trim ∧ (s.unregister fd).2.Matched := by
  unfold State.unregister
  split
  · exact ⟨htrim, h⟩
  · rename_i key hkey
    have hevents : s.events fd = key.events := by rw [State.events, hkey]
    have hframe := sync_frame htrim fd key.events { } false false
    have hholds := (hevents ▸ h fd).sync htrim { } false false
    rw [synced_none] at hholds
    refine ⟨hframe.trim htrim, h.change hframe (fun fd' hne => events_congr ?_) ?_⟩
    · rw [Dict.get?_erase, if_neg hne]
    · rw [State.events, Dict.get?_erase, if_pos rfl]
      exact hholds.2

theorem close_matched (h : s.Matched) (htrim : s.sched.Trim) : s.close.sched.Trim ∧ s.close.Matched := by
  unfold State.close
  split
  · exact ⟨htrim, h⟩
  · have hall : ∀ (fds : List Nat) (s : State), s.sched.Trim → s.Matched →
        (fds.foldl (fun s fd => (s.unregister fd).2) s).sched.Trim ∧
          (fds.foldl (fun s fd => (s.unregister fd).2) s).Matched := by
      intro fds
      induction fds with
      | nil => exact fun s htrim h => ⟨htrim, h⟩
      | cons fd fds ih =>
        intro s htrim h
        rcases unregister_matched h htrim fd with ⟨htrim₁, h₁⟩
        exact ih _ htrim₁ h₁
    exact hall s.keys.keys _ htrim h

theorem Settles.same (h : s.Matched) (htrim : s.sched.Trim) (hkeys : s'.keys = s.keys)
    (hsched : s'.sched = s.sched)
    {met : Prop} (hmet : met) (out : Output) : Settles s met out s' := by
  refine ⟨hsched ▸ htrim, iff_of_true (fun fd d => ?_) hmet,
    fun _ _ => ⟨fun fd => by rw [hkeys], fun fd d => by rw [hsched]⟩⟩
  rw [hsched, events_congr (s := s) (by rw [hkeys])]
  exact h fd d

theorem drainReady_same (s : State) : s.drainReady.2.keys = s.keys ∧ s.drainReady.2.sched = s.sched :=
  ⟨rfl, rfl⟩

theorem select_same (s : State) (timeout : Option Int) :
    (s.select timeout).2.keys = s.keys ∧ (s.select timeout).2.sched = s.sched := by
  unfold State.select
  split
  · split
    · exact drainReady_same s
    · split
      · exact ⟨rfl, rfl⟩
      · exact drainReady_same s
  · split
    · exact ⟨rfl, rfl⟩
    · exact drainReady_same s

theorem markReady_same (s : State) (fd : Nat) (d : Dir) :
    (s.markReady fd d).keys = s.keys ∧ (s.markReady fd d).sched = s.sched := by
  unfold State.markReady
  split
  · exact ⟨rfl, rfl⟩
  · split
    · exact ⟨rfl, rfl⟩
    · exact ⟨rfl, rfl⟩

variable {a : Action}

theorem call_settles {w : Watched} {out : Output} (h : w.state.Matched) (htrim : w.state.sched.Trim)
    (hs : w.state.call a = some (out, s')) : Settles w.state (Met w a) out s' := by
  cases a with
  | register fileobj events data readerFails writerFails =>
    have hsettles := register_settles h htrim fileobj events data readerFails writerFails
    rw [show w.state.register fileobj events data readerFails writerFails =
      (out, s') from Option.some.inj hs]
      at hsettles
    exact hsettles
  | unregister fd =>
    have hreg := unregister_matched h htrim fd
    have hraised : (w.state.unregister fd).1 = .raised → (w.state.unregister fd).2 = w.state := by
      unfold State.unregister
      split
      · exact fun _ => rfl
      · exact fun hout => by cases hout
    rw [show w.state.unregister fd = (out, s') from Option.some.inj hs] at hreg hraised
    refine ⟨hreg.1, iff_of_true hreg.2 trivial, fun _ hout => ?_⟩
    rw [show s' = w.state from hraised hout]
    exact ⟨fun _ => rfl, fun _ _ => rfl⟩
  | modify fd events data readerFails writerFails =>
    have hsettles := modify_settles h htrim fd events data readerFails writerFails
    rw [show w.state.modify fd events data readerFails writerFails =
      (out, s') from Option.some.inj hs] at hsettles
    exact hsettles
  | close =>
    cases hs
    rcases close_matched h htrim with ⟨htrim', h'⟩
    exact ⟨htrim', iff_of_true h' trivial, fun _ hout => by cases hout⟩
  | markReady fd d =>
    cases hs
    rcases markReady_same w.state fd d with ⟨hkeys, hsched⟩
    exact Settles.same h htrim hkeys hsched trivial .returned
  | select timeout =>
    simp only [State.call] at hs
    split at hs
    · cases hs
    · rcases select_same w.state timeout with ⟨hkeys, hsched⟩
      rw [Option.some.inj hs] at hkeys hsched
      exact Settles.same h htrim hkeys hsched trivial out
  | timer =>
    simp only [State.call] at hs
    split at hs
    · cases hs
      refine Settles.same h htrim ?_ ?_ trivial _
      · rfl
      · rfl
    · cases hs
  | resume =>
    simp only [State.call] at hs
    split at hs
    · cases hs
      refine Settles.same h htrim ?_ ?_ trivial _
      · rfl
      · rfl
    · cases hs
  | interrupt =>
    simp only [State.call] at hs
    split at hs
    · cases hs
      refine Settles.same h htrim ?_ ?_ trivial _
      · rfl
      · rfl
    · cases hs

/-! ## Marks -/

def State.Keyed (s : State) : Prop :=
  ∀ fd key, s.keys.get? fd = some key → key.fd = fd

def State.Marked (s : State) (fd : Nat) (d : Dir) : Prop :=
  ∃ m, s.readyMasks.get? fd = some m ∧ has m d = true

/-- What a call that returns no events does to the marks. -/
structure Marks (s : State) (a : Action) (s' : State) : Prop where
  keyed : s.Keyed → s'.Keyed
  kept : ∀ fd d, s.Marked fd d → has (s'.events fd) d = true → s'.Marked fd d
  made : ∀ fd d, a.marks fd d = true → has (s.events fd) d = true → s'.Marked fd d
  origin : ∀ fd d, s'.Marked fd d → a.marks fd d = true ∨ s.Marked fd d

theorem Marks.same (ha : ∀ fd d, a.marks fd d = false) (hkeyed : s.Keyed → s'.Keyed)
    (hready : s'.readyMasks = s.readyMasks) : Marks s a s' where
  keyed := hkeyed
  kept := fun fd d hmarked _ => by rwa [State.Marked, hready]
  made := fun fd d hmarks _ => by
    rw [ha fd d] at hmarks
    cases hmarks
  origin := fun fd d hmarked => .inr (by rwa [State.Marked, hready] at hmarked)

theorem State.Keyed.set (h : s.Keyed) (fd : Nat) (key : Key) (hkey : key.fd = fd) :
    ∀ fd' key', (s.keys.set fd key).get? fd' = some key' → key'.fd = fd' := by
  intro fd' key' hget
  rw [Dict.get?_set] at hget
  split at hget
  · rename_i heq
    cases hget
    rw [hkey, heq]
  · exact h fd' key' hget

theorem register_marks (s : State) (fileobj : FileObj) (events : Int) (data : Nat)
    (readerFails writerFails : Bool) :
    (s.Keyed → (s.register fileobj events data readerFails writerFails).2.Keyed) ∧
      (s.register fileobj events data readerFails writerFails).2.readyMasks = s.readyMasks := by
  unfold State.register
  dsimp only
  split
  · exact ⟨id, rfl⟩
  · split
    · exact ⟨id, rfl⟩
    · split
      · refine ⟨fun h fd key hget => ?_, rfl⟩
        rw [Dict.get?_erase] at hget
        split at hget
        · cases hget
        · exact State.Keyed.set h fileobj.fileno _ rfl fd key hget
      · exact ⟨fun h => State.Keyed.set h fileobj.fileno _ rfl, rfl⟩

theorem modify_marks (s : State) (fd : Nat) (events : Int) (data : Nat) (readerFails writerFails : Bool) :
    (s.Keyed → (s.modify fd events data readerFails writerFails).2.Keyed) ∧
      (s.modify fd events data readerFails writerFails).2.readyMasks = s.readyMasks := by
  unfold State.modify
  split
  · exact ⟨id, rfl⟩
  · rename_i key hkey
    split
    · exact ⟨id, rfl⟩
    · dsimp only
      split
      · exact ⟨id, rfl⟩
      · exact ⟨fun h => State.Keyed.set h fd _ (h fd key hkey), rfl⟩

theorem unregister_marks (s : State) (fd : Nat) (ha : ∀ fd d, a.marks fd d = false) :
    Marks s a (s.unregister fd).2 := by
  unfold State.unregister
  split
  · exact Marks.same ha id rfl
  · refine ⟨fun h fd' key hget => ?_, fun fd' d hmarked hafter => ?_, fun fd' d hmarks _ =>
      ?_, fun fd' d hmarked => ?_⟩
    · rw [Dict.get?_erase] at hget
      split at hget
      · cases hget
      · exact h fd' key hget
    · rw [State.events, Dict.get?_erase] at hafter
      by_cases heq : fd' = fd
      · rw [if_pos heq] at hafter
        cases d <;> cases hafter
      · rcases hmarked with ⟨m, hm, hd⟩
        refine ⟨m, ?_, hd⟩
        rw [Dict.get?_erase, if_neg heq]
        exact hm
    · rw [ha fd' d] at hmarks
      cases hmarks
    · rcases hmarked with ⟨m, hm, hd⟩
      rw [Dict.get?_erase] at hm
      split at hm
      · cases hm
      · exact .inr ⟨m, hm, hd⟩

theorem unregister_events (s : State) (fd fd' : Nat) (d : Dir)
    (h : has ((s.unregister fd).2.events fd') d = true) :
    has (s.events fd') d = true := by
  unfold State.unregister at h
  split at h
  · exact h
  · rw [State.events, Dict.get?_erase] at h
    by_cases heq : fd' = fd
    · rw [if_pos heq] at h
      cases d <;> cases h
    · rw [if_neg heq] at h
      exact h

theorem close_marks (s : State) : Marks s .close s.close := by
  unfold State.close
  split
  · exact Marks.same (fun _ _ => rfl) id rfl
  · have hall : ∀ (fds : List Nat) (s : State),
        Marks s .close (fds.foldl (fun s fd => (s.unregister fd).2) s) ∧
        ∀ fd d, has ((fds.foldl (fun s fd => (s.unregister fd).2) s).events fd) d = true →
          has (s.events fd) d = true := by
      intro fds
      induction fds with
      | nil => exact fun s => ⟨Marks.same (fun _ _ => rfl) id rfl, fun _ _ => id⟩
      | cons fd fds ih =>
        intro s
        have hfirst := unregister_marks (a := .close) s fd fun _ _ => rfl
        rcases ih (s.unregister fd).2 with ⟨hrest, hevents⟩
        refine ⟨⟨fun h => hrest.keyed (hfirst.keyed h), fun fd' d hmarked hafter => ?_,
          fun _ _ hmarks => ?_, fun fd' d hmarked => ?_⟩,
          fun fd' d hafter => unregister_events s fd fd' d (hevents fd' d hafter)⟩
        · exact hrest.kept fd' d (hfirst.kept fd' d hmarked (hevents fd' d hafter)) hafter
        · cases hmarks
        · exact (hrest.origin fd' d hmarked).elim .inl (hfirst.origin fd' d)
    have hboth := (hall s.keys.keys { s with closed := true }).1
    exact ⟨hboth.keyed, hboth.kept, hboth.made, hboth.origin⟩

theorem markReady_marks (s : State) (fd : Nat) (d : Dir) :
    Marks s (.markReady fd d) (s.markReady fd d) := by
  have hsame : ∀ fd' d', (Action.markReady fd d).marks fd' d' = true → fd' = fd ∧ d' = d :=
    fun _ _ hmarks =>
    of_decide_eq_true hmarks
  unfold State.markReady
  split
  · rename_i hnone
    refine ⟨id, fun _ _ hmarked _ => hmarked, fun fd' d' hmarks hevents => ?_, fun _ _ => .inr⟩
    rw [(hsame fd' d' hmarks).1, State.events, hnone] at hevents
    cases d' <;> cases hevents
  · rename_i key hkey
    split
    · -- the mark joins those that the descriptor has
      have hget : ∀ fd', (s.readyMasks.set fd (put ((s.readyMasks.get? fd).getD { }) d true)).get? fd' =
          if fd' = fd then some (put ((s.readyMasks.get? fd).getD { }) d true) else s.readyMasks.get? fd' :=
        fun fd' => Dict.get?_set _ _ _ _
      refine ⟨id, fun fd' d' hmarked _ => ?_, fun fd' d' hmarks _ => ?_, fun fd' d' hmarked => ?_⟩
      · rcases hmarked with ⟨m, hm, hd⟩
        by_cases heq : fd' = fd
        · subst heq
          refine ⟨_, (hget fd').trans (if_pos rfl), ?_⟩
          rw [has_put, hm, Option.getD_some, hd]
          exact ite_self true
        · exact ⟨m, ((hget fd').trans (if_neg heq)).trans hm, hd⟩
      · rcases hsame fd' d' hmarks with ⟨rfl, rfl⟩
        refine ⟨_, (hget fd').trans (if_pos rfl), ?_⟩
        rw [has_put, if_pos rfl]
      · rcases hmarked with ⟨m, hm, hd⟩
        have hm := (hget fd').symm.trans hm
        by_cases heq : fd' = fd
        · subst heq
          rw [if_pos rfl] at hm
          cases hm
          rw [has_put] at hd
          by_cases hdir : d' = d
          · exact .inl (decide_eq_true ⟨rfl, hdir⟩)
          · rw [if_neg hdir] at hd
            refine .inr ?_
            cases hold : s.readyMasks.get? fd' with
            | none =>
              rw [hold] at hd
              cases d' <;> cases hd
            | some m =>
              rw [hold] at hd
              exact ⟨m, hold, hd⟩
        · rw [if_neg heq] at hm
          exact .inr ⟨m, hm, hd⟩
    · rename_i hnot
      refine ⟨id, fun _ _ hmarked _ => hmarked, fun fd' d' hmarks hevents => ?_, fun _ _ => .inr⟩
      rcases hsame fd' d' hmarks with ⟨rfl, rfl⟩
      rw [State.events, hkey] at hevents
      exact absurd hevents hnot

theorem call_marks {out : Output} (hs : s.call a = some (out, s')) :
    (out = .selected (s.readyMasks.items.filterMap s.report) ∧ s'.keys = s.keys ∧
      s'.readyMasks = Dict.empty) ∨
      ((∀ events, out ≠ .selected events) ∧ Marks s a s') := by
  cases a with
  | register fileobj events data readerFails writerFails =>
    refine .inr ⟨fun es => ?_, ?_⟩
    · have hout : (s.register fileobj events data readerFails writerFails).1 = out :=
        congrArg Prod.fst (Option.some.inj hs)
      rw [← hout]
      unfold State.register
      dsimp only
      split
      · rintro ⟨⟩
      · split
        · rintro ⟨⟩
        · split
          · rintro ⟨⟩
          · rintro ⟨⟩
    · have hmarks := register_marks s fileobj events data readerFails writerFails
      rw [show s.register fileobj events data readerFails writerFails =
        (out, s') from Option.some.inj hs] at hmarks
      exact Marks.same (fun _ _ => rfl) hmarks.1 hmarks.2
  | unregister fd =>
    refine .inr ⟨fun es => ?_, ?_⟩
    · have hout : (s.unregister fd).1 = out := congrArg Prod.fst (Option.some.inj hs)
      rw [← hout]
      unfold State.unregister
      split
      · rintro ⟨⟩
      · rintro ⟨⟩
    · have hmarks := unregister_marks (a := .unregister fd) s fd fun _ _ => rfl
      rw [show s.unregister fd = (out, s') from Option.some.inj hs] at hmarks
      exact hmarks
  | modify fd events data readerFails writerFails =>
    refine .inr ⟨fun es => ?_, ?_⟩
    · have hout : (s.modify fd events data readerFails writerFails).1 = out :=
        congrArg Prod.fst (Option.some.inj hs)
      rw [← hout]
      unfold State.modify
      split
      · rintro ⟨⟩
      · split
        · rintro ⟨⟩
        · dsimp only
          split
          · rintro ⟨⟩
          · rintro ⟨⟩
    · have hmarks := modify_marks s fd events data readerFails writerFails
      rw [show s.modify fd events data readerFails writerFails =
        (out, s') from Option.some.inj hs] at hmarks
      exact Marks.same (fun _ _ => rfl) hmarks.1 hmarks.2
  | close =>
    cases hs
    exact .inr ⟨by rintro _ ⟨⟩, close_marks s⟩
  | markReady fd d =>
    cases hs
    exact .inr ⟨by rintro _ ⟨⟩, markReady_marks s fd d⟩
  | select timeout =>
    have hwaits : ∀ timed, Marks s (.select timeout)
        { s with ready := false, waiting := some timed } := fun _ =>
      Marks.same (fun _ _ => rfl) id rfl
    simp only [State.call] at hs
    split at hs
    · cases hs
    · have hsel : s.select timeout = (out, s') := Option.some.inj hs
      unfold State.select at hsel
      split at hsel
      · split at hsel
        · cases hsel
          exact .inl ⟨rfl, rfl, rfl⟩
        · split at hsel
          · cases hsel
            exact .inr ⟨by rintro _ ⟨⟩, hwaits true⟩
          · cases hsel
            exact .inl ⟨rfl, rfl, rfl⟩
      · split at hsel
        · cases hsel
          exact .inr ⟨by rintro _ ⟨⟩, hwaits false⟩
        · cases hsel
          exact .inl ⟨rfl, rfl, rfl⟩
  | timer =>
    simp only [State.call] at hs
    split at hs
    · cases hs
      exact .inr ⟨by rintro _ ⟨⟩, Marks.same (fun _ _ => rfl) id rfl⟩
    · cases hs
  | resume =>
    simp only [State.call] at hs
    split at hs
    · cases hs
      exact .inl ⟨rfl, rfl, rfl⟩
    · cases hs
  | interrupt =>
    simp only [State.call] at hs
    split at hs
    · cases hs
      exact .inr ⟨by rintro _ ⟨⟩, Marks.same (fun _ _ => rfl) id rfl⟩
    · cases hs

/-! ## Runs -/

structure Inv (w : Watched) : Prop where
  keyed : w.state.Keyed
  marked : ∀ fd d, w.state.Marked fd d → w.marked fd d = true
  live : ∀ fd d, w.live fd d = true → has (w.state.events fd) d = true ∧ w.state.Marked fd d

theorem has_meet (m n : Mask) (d : Dir) : has (meet m n) d = (has m d && has n d) := by
  cases d <;> rfl

theorem isEmpty_eq_false {d : Dir} (h : has m d = true) : m.isEmpty = false := by
  cases m with
  | mk read write =>
    cases d with
    | read =>
      have hread : read = true := h
      simp [Scheduler.FdRegistration.Mask.isEmpty, hread]
    | write =>
      have hwrite : write = true := h
      simp [Scheduler.FdRegistration.Mask.isEmpty, hwrite]

theorem Inv.step {w w' : Watched} (h : Inv w) (hs : step w a = some w') : Inv w' := by
  rcases Option.map_eq_some_iff.1 hs with ⟨⟨out, s'⟩, hcall, heq⟩
  dsimp only at heq
  rcases call_marks hcall with ⟨hout, hkeys, hready⟩ | ⟨hout, hmarks⟩
  · rw [hout] at heq
    cases heq
    refine ⟨fun fd key hget => h.keyed fd key ?_, fun fd d hmarked => ?_, fun fd d hlive => by cases hlive⟩
    · rw [← hkeys]
      exact hget
    · rcases hmarked with ⟨m, hm, -⟩
      have hm : s'.readyMasks.get? fd = some m := hm
      rw [hready] at hm
      cases hm
  · have hafter : w' =
        { state := s'
          marked := fun fd d => w.marked fd d || a.marks fd d
          live := fun fd d => (w.live fd d || a.marks fd d) && has (w.state.events fd) d &&
            has (s'.events fd) d } := by
      rw [← heq]
      cases out with
      | selected events => exact absurd rfl (hout events)
      | _ => rfl
    subst hafter
    refine ⟨hmarks.keyed h.keyed, fun fd d hmarked => ?_, fun fd d hlive => ?_⟩
    · rcases hmarks.origin fd d hmarked with hnew | hold
      · exact Bool.or_eq_true_iff.2 (.inr hnew)
      · exact Bool.or_eq_true_iff.2 (.inl (h.marked fd d hold))
    · simp only [Bool.and_eq_true, Bool.or_eq_true] at hlive
      rcases hlive with ⟨⟨hlive | hnew, hbefore⟩, hnow⟩
      · exact ⟨hnow, hmarks.kept fd d (h.live fd d hlive).2 hnow⟩
      · exact ⟨hnow, hmarks.made fd d hnew hbefore⟩

theorem Inv.reported {w : Watched} (h : Inv w) (a : Action) : Reported w a := by
  intro events s' hcall
  rcases call_marks hcall with ⟨hout, -, -⟩ | ⟨hout, -⟩
  · cases hout
    constructor
    · intro key m hmem
      rcases List.mem_filterMap.1 hmem with ⟨⟨fd, mask⟩, hitem, hreport⟩
      unfold State.report at hreport
      split at hreport
      · cases hreport
      · rename_i k hkey
        split at hreport
        · cases hreport
        · rename_i hempty
          cases hreport
          have hfd : key.fd = fd := h.keyed fd key hkey
          refine ⟨hfd ▸ hkey, Bool.eq_false_iff.2 hempty, fun d hd => ?_⟩
          rw [has_meet, Bool.and_eq_true] at hd
          exact ⟨hd.2, hfd ▸ h.marked fd d ⟨mask, Dict.mem_items.1 hitem, hd.1⟩⟩
    · intro fd d hlive
      rcases h.live fd d hlive with ⟨hevents, mask, hmask, hd⟩
      unfold State.events at hevents
      split at hevents
      · cases d <;> cases hevents
      · rename_i key hkey
        have hmeet : has (meet mask key.events) d = true := by rw [has_meet, hd, hevents]; rfl
        refine ⟨key, meet mask key.events, List.mem_filterMap.2
          ⟨(fd, mask), Dict.mem_items.2 hmask, ?_⟩,
          h.keyed fd key hkey, hmeet⟩
        unfold State.report
        dsimp only
        rw [hkey]
        exact if_neg (Bool.eq_false_iff.1 (isEmpty_eq_false hmeet))
  · exact absurd rfl (hout events)

theorem inv_init (sched : Scheduler.FdRegistration.State) : Inv (init sched) where
  keyed := fun _ _ hget => nomatch hget
  marked := fun _ _ hmarked => by
    rcases hmarked with ⟨_, hm, -⟩
    cases hm
  live := fun _ _ hlive => nomatch hlive

structure Sound (w : Watched) : Prop where
  trim : w.state.sched.Trim
  matched : InStep w

theorem sound_init (wakeupFd : Nat) : Sound (init (Scheduler.FdRegistration.init wakeupFd)) where
  trim := (Scheduler.FdRegistration.inv_init wakeupFd).trim
  matched := fun fd d => by cases d <;> rfl

theorem sound_step {w w' : Watched} (h : Sound w) (hs : step w a = some w') :
    w'.state.sched.Trim ∧ (InStep w' ↔ Met w a) := by
  rcases Option.map_eq_some_iff.1 hs with ⟨⟨out, s'⟩, hcall, heq⟩
  have hsettles := call_settles h.matched h.trim hcall
  have hstate : w'.state = s' := by
    rw [← heq]
    cases out <;> rfl
  unfold InStep
  rw [hstate]
  exact ⟨hsettles.trim, hsettles.matched⟩

theorem restored_of_met {w : Watched} (h : Sound w) (hmet : Met w a) : Restored w a := by
  intro s' hcall
  have hsettles := call_settles h.matched h.trim hcall
  exact hsettles.restored (hsettles.matched.2 hmet) rfl

/-- In a run, the callbacks are those for the events of the keys, and a call that raises restores
them, if and only if no `register` or `modify` has failed half-way; and `select` reports what it
should in every run. -/
theorem selector_in_step (wakeupFd : Nat) (run : List Action) :
    (Always step InStep (init (Scheduler.FdRegistration.init wakeupFd)) run ∧
        Along step Restored (init (Scheduler.FdRegistration.init wakeupFd)) run ↔
      Along step Met (init (Scheduler.FdRegistration.init wakeupFd)) run) ∧
    Along step Reported (init (Scheduler.FdRegistration.init wakeupFd)) run := by
  have hkeep : ∀ w a w', Sound w → Met w a → step w a = some w' → Sound w' := fun w a w' h hmet hs =>
    ⟨(sound_step h hs).1, (sound_step h hs).2.2 hmet⟩
  refine ⟨⟨fun hboth => ?_, fun hmet => ⟨?_, ?_⟩⟩, ?_⟩
  · exact (always_iff_along (fun w h => h.matched) hkeep (fun w a w' h hnot hs hmatched =>
      hnot ((sound_step h hs).2.1 hmatched)) run _ (sound_init wakeupFd)).1 hboth.1
  · exact always_of_along (fun w h => h.matched) hkeep run _ (sound_init wakeupFd) hmet
  · exact along_of_along (fun w a (h : Sound w) (hm : Met w a) => restored_of_met h hm) hkeep run _
      (sound_init wakeupFd) hmet
  · refine along_of_possible (C := fun _ _ => True) (fun w a w' h _ hs => ⟨h.reported a, h.step hs⟩)
      (inv_init _)
      (along_of_forall (fun _ _ => trivial) run _)

/-- A `register` for both events whose `add_writer` raises: the key is taken back, the reader
stays. -/
theorem reader_left_behind :
    ¬ Always step InStep (init (Scheduler.FdRegistration.init 0))
      [.register { name := 1, fileno := 5 } 3 0 false true] := by
  intro h
  have hfive := h.2 5 .read
  exact absurd hfive (by decide)

end Pytealet.Asyncio.ForwardingSelector
