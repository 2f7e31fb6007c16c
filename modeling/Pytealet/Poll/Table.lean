import Mathlib.Data.Finset.Erase
import Mathlib.Data.Finset.Lattice.Basic
import Mathlib.Data.Finset.SDiff
import Mathlib.Logic.Function.Basic
import Pytealet.Lib.Transition

/-!
# Table — the readiness table behind `Poll`, `Epoll` and `select`

Every descriptor that is registered has a watch, with an arm of `poll_many` whose deliveries set
bits of `stored`.  A call of `wait` looks these bits up, checks some of them with a probe, and parks
when there is nothing to report.

A mask is the set of its bits.  Objects that are shared (a registration is in its watch, in its
`Poll` or `Epoll` and in the calls of `wait` that have been given it) are numbers.  `Reg.fd`,
`Watch.id`, `Arm.watch` and `Reg.owed` are not in the source: the descriptor of a registration,
which watch it is, whose arm, and the bits that deliveries have carried since they were last
reported.
-/

namespace Pytealet.Poll

open Lib Lib.Transition Function

abbrev Mask := Finset Nat

/-- `POLLIN` and `POLLPRI`, as positions. -/
def pollIn : Nat := 0

def pollPri : Nat := 1

structure Reg where
  owner : Nat
  interest : Mask
  edge : Bool := false
  oneshot : Bool := false
  ephemeral : Bool := false
  seen : Mask := ∅
  disarmed : Bool := false
  latched : Bool := false
  fd : Nat
  owed : Mask := ∅
  deriving DecidableEq

structure Watch where
  id : Nat
  /-- the values of the dictionary; the keys are their owners -/
  regs : List Nat := []
  stored : Mask := ∅
  generation : Nat := 0
  handle : Option Nat := none
  armedMask : Mask := ∅
  error : Bool := false
  shell : Bool := false
  deriving DecidableEq

/-- A call of `poll_many`: what `on_delivery` has captured. -/
structure Arm where
  fd : Nat
  generation : Nat
  watch : Nat
  deriving DecidableEq, Repr

inductive Exc
  | cancelled
  | other
  deriving DecidableEq, Repr

structure Delivery where
  value : Option Mask := none
  exception : Option Exc := none
  more : Bool := true
  deriving DecidableEq

/-- `timeout_seconds`: `None`, zero, or more. -/
inductive Timeout
  | forever
  | zero
  | after
  deriving DecidableEq, Repr

/-- A call of `wait` that has not returned; `sleeping` is the one that sleeps out its timeout. -/
structure Wait where
  specs : List (Nat × Nat)
  maxevents : Option Nat
  timeout : Timeout
  sleeping : Bool := false
  woken : Bool := false
  deriving DecidableEq, Repr

structure State where
  selector : Bool
  regs : Nat → Reg := fun _ => { owner := 0, interest := ∅, fd := 0 }
  nextReg : Nat := 0
  watches : Nat → Option Watch := fun _ => none
  /-- the keys of `watches` -/
  fds : List Nat := []
  nextWatch : Nat := 0
  arms : List Arm := []
  fdWaits : Nat → Nat := fun _ => 0
  waits : List (Option Wait) := []
  /-- how many probes there have been -/
  probes : Nat := 0

/-- What the system answers in the course of a step: the probes, none where the call fails, and what
a selector delivers for a descriptor as soon as it is armed. -/
structure Env where
  probe : Nat → Nat → Mask → Option Mask := fun _ _ _ => some ∅
  first : Nat → Option Delivery := fun _ => none

/-- What a registration does with bits that have come; `stored` has them. -/
def Reg.take (newBits value stored : Mask) (g : Reg) : Reg :=
  if g.disarmed then g
  else
    let fresh := (newBits ∩ g.interest) \ g.seen
    let g₁ :=
      if g.edge then
        { g with
          owed := g.owed ∪ (value ∩ g.interest)
          seen := if fresh.Nonempty then g.seen \ fresh else g.seen
          latched := if fresh.Nonempty then false else g.latched }
      else g
    { g₁ with seen := g₁.seen ∩ stored }

/-- The bits of a registration that are reported. -/
def Reg.bits (stored : Mask) (g : Reg) : Mask :=
  if g.edge then (stored ∩ g.interest) \ g.seen else stored ∩ g.interest

/-- What a report does to its registration. -/
def Reg.report (bits : Mask) (g : Reg) : Reg :=
  let g₁ := if g.edge then { g with seen := g.seen ∪ bits, latched := true, owed := g.owed \ bits } else g
  if g₁.oneshot then { g₁ with disarmed := true } else g₁

namespace State

def setReg (s : State) (r : Nat) (f : Reg → Reg) : State :=
  { s with regs := update s.regs r (f (s.regs r)) }

def setWatch (s : State) (fd : Nat) (w : Watch) : State :=
  { s with watches := update s.watches fd (some w) }

/-- `pulse.set()` -/
def pulse (s : State) : State :=
  { s with waits := s.waits.map (Option.map fun w => { w with woken := true }) }

/-! ## Deliveries -/

/-- The bits are stored, and the registrations of the watch take them. -/
def store (s : State) (fd : Nat) (w : Watch) (value : Mask) : State :=
  let stored := w.stored ∪ value
  ({ s with
    regs := fun r =>
      if r ∈ w.regs then Reg.take (value \ w.stored) value stored (s.regs r) else s.regs r } :
        State).setWatch fd
    { w with stored }

/-- The end of `_on_delivery`, with the bits that are left. -/
def absorb (s : State) (fd : Nat) (w : Watch) (value : Mask) : State :=
  let s₁ := s.store fd w value
  if w.regs.any fun r => !(s₁.regs r).disarmed && decide
    (Reg.bits (w.stored ∪ value) (s₁.regs r)).Nonempty then
    s₁.pulse
  else s₁

/-- `POLLPRI` is checked: the bits that are left, and whether the probe has failed. -/
def checkPri (s : State) (env : Env) (fd : Nat) (value : Mask) : Mask × Bool :=
  if pollPri ∈ value then
    match env.probe s.probes fd {pollPri} with
    | some got => (if pollPri ∈ got then value else value.erase pollPri, false)
    | none => (value.erase pollPri, true)
  else (value, false)

/-- The bits of the registrations are owed, although nothing is stored. -/
def owe (s : State) (w : Watch) (value : Mask) : State :=
  { s with
    regs := fun r =>
      let g := s.regs r
      if r ∈ w.regs ∧ g.edge = true ∧ g.disarmed = false then
        { g with owed := g.owed ∪ (value ∩ g.interest) }
      else g }

def onDelivery (s : State) (env : Env) (fd : Nat) (w : Watch) (d : Delivery) : State :=
  match d.exception, d.value with
  | some .cancelled, _ => s
  | some .other, _ => (s.setWatch fd { w with error := true }).pulse
  | none, none => s
  | none, some value =>
    if d.more then
      let r := s.checkPri env fd value
      let s₁ := { s with probes := s.probes + 1 }
      if r.2 then ((s₁.setWatch fd { w with error := true }).pulse).absorb fd { w with error := true } r.1
      else s₁.absorb fd w r.1
    else s.owe w value

/-- `on_delivery`: an arm delivers. -/
def deliver (s : State) (env : Env) (k : Nat) (d : Delivery) : State :=
  match s.arms[k]? with
  | none => s
  | some a =>
    match s.watches a.fd with
    | none => s
    | some w => if w.generation = a.generation then s.onDelivery env a.fd w d else s

/-! ## Arms -/

def disarm (s : State) (fd : Nat) : State :=
  match s.watches fd with
  | none => s
  | some w =>
    if w.handle.isSome then
      s.setWatch fd { w with generation := w.generation + 1, handle := none, armedMask := ∅ }
    else s

/-- `poll_many`, for the watch of `fd`. -/
def arm (s : State) (env : Env) (fd : Nat) (mask : Mask) : State :=
  match s.watches fd with
  | none => s
  | some w =>
    let s₁ := { s.setWatch fd { w with handle := some s.arms.length, armedMask := mask } with
      arms := s.arms ++ [⟨fd, w.generation, w.id⟩] }
    match if s.selector then env.first fd else none with
    | some d => s₁.deliver env s.arms.length d
    | none => s₁

/-- The union of what the registrations that are not disarmed ask for. -/
def wanted (s : State) (w : Watch) : Mask :=
  (w.regs.filter fun r => !(s.regs r).disarmed).foldr (fun r mask => (s.regs r).interest ∪ mask) ∅

def ensureArmed (s : State) (env : Env) (fd : Nat) : State :=
  match s.watches fd with
  | none => s
  | some w =>
    if s.wanted w = ∅ then s.disarm fd
    else if w.handle.isSome ∧ w.armedMask = s.wanted w then s
    else (s.disarm fd).arm env fd (s.wanted w)

def noteInterest (s : State) (env : Env) (fd : Nat) : State :=
  let s₁ := s.ensureArmed env fd
  if s₁.selector && s₁.fdWaits fd = 0 then s₁.disarm fd else s₁

/-! ## Registrations -/

/-- The watch of `fd`, which may be a new one. -/
def ensureWatch (s : State) (fd : Nat) : State × Watch :=
  match s.watches fd with
  | some w => (s, w)
  | none =>
    let w : Watch := { id := s.nextWatch }
    ({ s.setWatch fd w with fds := s.fds ++ [fd], nextWatch := s.nextWatch + 1 }, w)

/-- `watch.regs[reg.owner] = reg` -/
def putReg (s : State) (w : Watch) (r : Nat) : Watch :=
  let owner := (s.regs r).owner
  { w with
    shell := false
    regs :=
      if w.regs.any fun q => (s.regs q).owner = owner then
        w.regs.map fun q => if (s.regs q).owner = owner then r else q
      else w.regs ++ [r] }

/-- A new `_Reg` and `add_reg` -/
def addReg (s : State) (env : Env) (g : Reg) : State :=
  let s₁ := { s with regs := update s.regs s.nextReg g, nextReg := s.nextReg + 1 }
  let p := s₁.ensureWatch g.fd
  (p.1.setWatch g.fd (s₁.putReg p.2 s.nextReg)).noteInterest env g.fd

/-- The registration of an owner for `fd`. -/
def regOf? (s : State) (fd owner : Nat) : Option Nat :=
  match s.watches fd with
  | some w => w.regs.find? fun r => (s.regs r).owner = owner
  | none => none

def modify (s : State) (env : Env) (fd owner : Nat) (interest : Mask) (edge oneshot : Bool) : State :=
  match s.regOf? fd owner with
  | none => s
  | some r =>
    (s.setReg r fun g =>
      { g with
        interest, edge, oneshot
        disarmed := false
        seen := ∅
        latched := false
        owed := if edge then g.owed ∩ interest else ∅ }).noteInterest env fd

def popWatch (s : State) (fd : Nat) : State :=
  { s with watches := update s.watches fd none, fds := s.fds.erase fd }

def removeOwner (s : State) (env : Env) (fd owner : Nat) (keepShell : Bool) : State :=
  match s.watches fd with
  | none => s
  | some w =>
    let w₁ : Watch := { w with regs := w.regs.filter fun r => (s.regs r).owner ≠ owner }
    let s₁ := s.setWatch fd w₁
    if w₁.regs.isEmpty then
      let s₂ := s₁.disarm fd
      if keepShell then
        match s₂.watches fd with
        | some w₂ => s₂.setWatch fd { w₂ with shell := true }
        | none => s₂
      else s₂.popWatch fd
    else s₁.noteInterest env fd

/-- One turn of the loop of `sweep_shells`. -/
def sweepShell (keep : List Nat) (s : State) (fd : Nat) : State :=
  match s.watches fd with
  | none => s
  | some w => if w.regs.isEmpty && !keep.contains fd then (s.disarm fd).popWatch fd else s

def sweepShells (s : State) (keep : List Nat) : State :=
  s.fds.foldl (sweepShell keep) s

/-- One turn of the loop of `finish_ephemeral`. -/
def finishEphemeralAt (env : Env) (owner : Nat) (s : State) (fd : Nat) : State :=
  match s.regOf? fd owner with
  | none => s
  | some r =>
    if (s.regs r).ephemeral then
      let s₁ := s.removeOwner env fd owner true
      match s₁.watches fd with
      | some w => if !s₁.selector && !w.regs.isEmpty then s₁.ensureArmed env fd else s₁
      | none => s₁
    else s

def finishEphemeral (s : State) (env : Env) (owner : Nat) : State :=
  s.fds.foldl (finishEphemeralAt env owner) s

/-! ## `wait` -/

/-- `_probe`; the answer is among the bits that were asked for -/
def probe (s : State) (env : Env) (fd : Nat) (mask : Mask) : State × Option Mask :=
  if mask = ∅ then (s, some ∅)
  else
    let s₁ := { s with probes := s.probes + 1 }
    match env.probe s.probes fd mask, s.watches fd with
    | some got, _ => (s₁, some (got ∩ mask))
    | none, some w => (s₁.setWatch fd { w with error := true }, none)
    | none, none => (s₁, none)

/-- The bits of `mask` become those that a probe has found; nothing that is not stored stays
seen. -/
def refresh (s : State) (fd : Nat) (mask got : Mask) : State :=
  match s.watches fd with
  | none => s
  | some w =>
    let stored := (w.stored \ mask) ∪ (got ∩ mask)
    { s.setWatch fd { w with stored } with
      regs := fun r => if r ∈ w.regs then { s.regs r with seen := (s.regs r).seen ∩ stored } else s.regs r }

/-- What the level-triggered registrations make of the bits that are stored. -/
def levelMask (s : State) (w : Watch) : Mask :=
  (w.regs.filter fun r => !(s.regs r).edge && !(s.regs r).disarmed).foldr
    (fun r mask => (w.stored ∩ (s.regs r).interest) ∪ mask) ∅

def revalidateLevel (s : State) (env : Env) (fd : Nat) : State :=
  match s.watches fd with
  | none => s
  | some w =>
    let mask := s.levelMask w
    if mask = ∅ then s
    else
      let p := s.probe env fd mask
      match p.2 with
      | none => p.1
      | some got => p.1.refresh fd mask got

/-- The edges that have been reported are looked at again. -/
def revalidateEdge (s : State) (env : Env) (fd r : Nat) : State :=
  let mask := (s.regs r).seen ∩ (s.regs r).interest
  if (s.regs r).edge = true ∧ mask.Nonempty then
    let p := s.probe env fd mask
    match p.2 with
    | none => p.1
    | some got =>
      if (got ∩ mask).Nonempty then p.1.setReg r fun g => { g with latched := true }
      else
        let s₁ := p.1.setReg r fun g => { g with seen := g.seen \ mask }
        match s₁.watches fd with
        | some w => s₁.setWatch fd { w with stored := w.stored \ mask }
        | none => s₁
  else s

/-- The loop of `_revalidate`, with the descriptors that have been seen. -/
def revalidate (env : Env) : State → List Nat → List (Nat × Nat) → State
  | s, _, [] => s
  | s, seenFds, (fd, r) :: rest =>
    let s₁ := s.setReg r fun g => { g with latched := false }
    match s₁.watches fd with
    | none => revalidate env s₁ seenFds rest
    | some _ =>
      let s₂ := if seenFds.contains fd then s₁ else s₁.revalidateLevel env fd
      revalidate env (s₂.revalidateEdge env fd r) (fd :: seenFds) rest

/-- One turn of the loop of `_probe_empty`. -/
def probeEmptyAt (env : Env) (s : State) (p : Nat × Nat) : State :=
  let g := s.regs p.2
  if g.disarmed || g.latched || g.interest = ∅ || (g.edge && decide g.seen.Nonempty) then s
  else
    match s.watches p.1 with
    | none => s
    | some w =>
      if (w.stored ∩ g.interest).Nonempty then s
      else
        let q := s.probe env p.1 g.interest
        match q.2 with
        | none => q.1
        | some got => q.1.refresh p.1 g.interest got

/-- What there is to report: descriptors, bits and registrations. -/
def ready (s : State) (specs : List (Nat × Nat)) : List (Nat × Mask × Nat) :=
  specs.filterMap fun p =>
    match s.watches p.1 with
    | none => none
    | some w =>
      let bits := Reg.bits w.stored (s.regs p.2)
      if (s.regs p.2).disarmed = false ∧ bits.Nonempty then some (p.1, bits, p.2) else none

/-- Whether there is an error to raise. -/
def failing (s : State) (specs : List (Nat × Nat)) : Bool :=
  specs.any fun p =>
    !(s.regs p.2).disarmed &&
      match s.watches p.1 with
      | none => false
      | some w => w.error

def cap (maxevents : Option Nat) (ready : List (Nat × Mask × Nat)) : List (Nat × Mask × Nat) :=
  match maxevents with
  | none => ready
  | some n => ready.take n

def commit (s : State) (env : Env) (ready : List (Nat × Mask × Nat)) : State :=
  let s₁ := ready.foldl (fun s p => s.setReg p.2.2 (Reg.report p.2.1)) s
  if s₁.selector then s₁
  else ready.foldl (fun s p => if (s.regs p.2.2).oneshot then s.ensureArmed env p.1 else s) s₁

/-- The end of `wait`, whether it returns or raises. -/
def leave (s : State) (specs : List (Nat × Nat)) : State :=
  if s.selector then
    specs.foldl (fun s p =>
      let s₁ := { s with fdWaits := update s.fdWaits p.1 (s.fdWaits p.1 - 1) }
      if s₁.fdWaits p.1 = 0 then s₁.disarm p.1 else s₁) s
  else s

/-- `wait` returns, or raises, if there is something to report. -/
def finish? (s : State) (env : Env) (specs : List (Nat × Nat)) (maxevents : Option Nat) : Option State :=
  if s.ready specs ≠ [] then some ((s.commit env (cap maxevents (s.ready specs))).leave specs)
  else if s.failing specs then some (s.leave specs)
  else none

def park (s : State) (w : Wait) : State :=
  { s with waits := s.waits ++ [some w] }

/-- `_wait` has found nothing to report: it arms, and parks or sleeps. -/
def waitArmed (s : State) (env : Env) (specs : List (Nat × Nat)) (timeout : Timeout)
    (maxevents : Option Nat) :
    State :=
  if specs.any fun p => !(s.regs p.2).disarmed && !(s.regs p.2).latched && decide
    (s.regs p.2).interest.Nonempty then
    let s₁ := specs.foldl (fun s p =>
      if (s.regs p.2).disarmed || (s.regs p.2).latched then s else s.ensureArmed env p.1) s
    match s₁.finish? env specs maxevents with
    | some s₂ => s₂
    | none => s₁.park { specs, maxevents, timeout }
  else s.park { specs, maxevents, timeout, sleeping := decide (timeout = .after) }

def wait (s : State) (env : Env) (specs : List (Nat × Nat)) (timeout : Timeout)
    (maxevents : Option Nat) : State :=
  let s₀ := { s with fdWaits := fun fd => s.fdWaits fd + specs.countP fun p => p.1 = fd }
  let s₁ := revalidate env s₀ [] specs
  if s₁.ready specs ≠ [] then (s₁.commit env (cap maxevents (s₁.ready specs))).leave specs
  else
    match timeout with
    | .zero =>
      let s₂ := specs.foldl (probeEmptyAt env) s₁
      match s₂.finish? env specs maxevents with
      | some s₃ => s₃
      | none => s₂.leave specs
    | timeout => if s₁.failing specs then s₁.leave specs else s₁.waitArmed env specs timeout maxevents

end State

/-! ## Watches that are replaced -/

theorem watches_setWatch_self (s : State) (fd : Nat) (w : Watch) :
    (s.setWatch fd w).watches fd = some w := by
  simp [State.setWatch]

theorem watches_setWatch {s : State} {fd fd' : Nat} {w v : Watch}
    (h : (s.setWatch fd v).watches fd' = some w) :
    fd' = fd ∧ w = v ∨ fd' ≠ fd ∧ s.watches fd' = some w := by
  by_cases heq : fd' = fd
  · subst heq
    cases (watches_setWatch_self s fd' v).symm.trans h
    exact Or.inl ⟨rfl, rfl⟩
  · simp only [State.setWatch, update_of_ne heq] at h
    exact Or.inr ⟨heq, h⟩

theorem watches_popWatch {s : State} {fd fd' : Nat} {w : Watch} (h : (s.popWatch fd).watches fd' = some w) :
    fd' ≠ fd ∧ s.watches fd' = some w := by
  by_cases heq : fd' = fd
  · simp [State.popWatch, heq] at h
  · exact ⟨heq, by simpa [State.popWatch, heq] using h⟩

/-! ## Runs -/

/-- What can happen next.  An exception can be thrown into a call of `wait` at any time. -/
inductive Action
  | register (g : Reg) (env : Env)
  | modify (fd owner : Nat) (interest : Mask) (edge oneshot : Bool) (env : Env)
  | unregister (fd owner : Nat) (env : Env)
  | sweepShells (keep : List Nat)
  | finishEphemeral (owner : Nat) (env : Env)
  | wait (rs : List Nat) (timeout : Timeout) (maxevents : Option Nat) (env : Env)
  | wake (j : Nat) (env : Env)
  | expire (j : Nat) (env : Env)
  | throw (j : Nat)
  | deliver (k : Nat) (d : Delivery) (env : Env)

namespace State

def endWait (s : State) (j : Nat) : State :=
  { s with waits := s.waits.set j none }

/-- A call of `wait` that goes on: it returns, raises, or, if nothing has come, waits again. -/
def again (s : State) (env : Env) (j : Nat) (w : Wait) (stays : Bool) : State :=
  match s.finish? env w.specs w.maxevents with
  | some s₁ => s₁.endWait j
  | none =>
    if stays then { s with waits := s.waits.set j (some { w with woken := false }) }
    else (s.leave w.specs).endWait j

end State

def step (s : State) : Action → Option State
  | .register g env =>
    some (s.addReg env { g with seen := ∅, disarmed := false, latched := false, owed := ∅ })
  | .modify fd owner interest edge oneshot env => some (s.modify env fd owner interest edge oneshot)
  | .unregister fd owner env => some (s.removeOwner env fd owner false)
  | .sweepShells keep => some (s.sweepShells keep)
  | .finishEphemeral owner env => some (s.finishEphemeral env owner)
  | .wait rs timeout maxevents env =>
    if rs.all fun r => r < s.nextReg then
      -- `list(self._regs.items())`
      let specs := rs.map fun r => ((s.regs r).fd, r)
      some (if specs.isEmpty then s else s.wait env specs timeout maxevents)
    else none
  | .wake j env =>
    match s.waits[j]? with
    | some (some w) => if w.woken && !w.sleeping then some (s.again env j w true) else none
    | _ => none
  | .expire j env =>
    match s.waits[j]? with
    | some (some w) => if w.timeout = .after then some (s.again env j w false) else none
    | _ => none
  | .throw j =>
    match s.waits[j]? with
    | some (some w) => some ((s.leave w.specs).endWait j)
    | _ => none
  | .deliver k d env => some (s.deliver env k d)

def init (selector : Bool) : State where
  selector := selector

end Pytealet.Poll
