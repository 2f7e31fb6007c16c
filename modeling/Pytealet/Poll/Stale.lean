import Pytealet.Poll.Table

/-!
# Stale — deliveries of arms that are no longer current

`on_delivery` has captured the generation of its watch, and looks the watch up again by descriptor.
The arms of one watch have different generations, so that an arm that has been superseded is told
from the current one.  A watch that is made later for the same descriptor starts to count again: an
arm of the watch before it that has the same generation is taken for its own.
-/

namespace Pytealet.Poll

open Lib Lib.Transition Function

/-- What the arms depend on in a registration. -/
def Reg.core (g : Reg) : Nat × Nat × Mask × Bool × Bool :=
  (g.fd, g.owner, g.interest, g.oneshot, g.disarmed)

namespace State

/-- The watch of its descriptor has the arm as its handle. -/
def Current (s : State) (k : Nat) : Prop :=
  ∃ (a : Arm) (w : Watch), s.arms[k]? = some a ∧ s.watches a.fd = some w ∧
    w.id = a.watch ∧ w.handle = some k

/-- An arm that delivers, something else than its cancellation, does not find another watch than its
own with the generation of its own. -/
def Clear (s : State) : Action → Prop
  | .deliver k d _ =>
    match s.arms[k]? with
    | none => True
    | some a =>
      match s.watches a.fd with
      | none => True
      | some w => w.id = a.watch ∨ w.generation ≠ a.generation ∨ d.exception = some .cancelled
  | _ => True

instance (s : State) (a : Action) : Decidable (s.Clear a) := by
  unfold Clear
  repeat' split
  all_goals infer_instance

/-- What an arm delivers that has been superseded, or whose watch has gone, changes nothing. -/
def Ignores (s : State) : Action → Prop
  | .deliver k d env => ¬ s.Current k → step s (.deliver k d env) = some s
  | _ => True

/-- Which watches and arms there are, and which arm is whose. -/
def frame (s : State) : List Arm × Nat × (Nat → Option (Nat × Nat × Option Nat)) :=
  (s.arms, s.nextWatch, fun fd => (s.watches fd).map fun w => (w.id, w.generation, w.handle))

/-- The registrations, and the calls of `wait` that have not returned. -/
def base (s : State) : (Nat → Nat × Nat × Mask × Bool × Bool) × Nat × Bool × List
    (Option (List (Nat × Nat))) :=
  (fun r => (s.regs r).core, s.nextReg, s.selector, s.waits.map (Option.map Wait.specs))

/-- The arms of the watches, beside these. -/
def face (s : State) :
    ((Nat → Nat × Nat × Mask × Bool × Bool) × Nat × Bool × List (Option (List (Nat × Nat)))) ×
      (Nat → Option (List Nat × Option Nat × Mask)) :=
  (s.base, fun fd => (s.watches fd).map fun w => (w.regs, w.handle, w.armedMask))

/-- What deliveries and probes leave as it is. -/
def shape (s : State) := (s.frame, s.face)

end State

variable {s s' : State} {env : Env} {fd r : Nat} {w w' : Watch}

/-! ## What leaves the watches and arms as they are -/

theorem frame_setWatch {v : Watch} (h : s.watches fd = some w) (hid : v.id = w.id)
    (hgen : v.generation = w.generation) (hhandle : v.handle = w.handle) :
      (s.setWatch fd v).frame = s.frame := by
  refine Prod.ext rfl (Prod.ext rfl (funext fun fd' => ?_))
  by_cases heq : fd' = fd
  · subst heq
    simp [State.frame, State.setWatch, h, hid, hgen, hhandle]
  · simp [State.frame, State.setWatch, heq]

theorem base_setReg {f : Reg → Reg} (r : Nat) (hf : (f (s.regs r)).core = (s.regs r).core) :
    (s.setReg r f).base = s.base := by
  refine Prod.ext (funext fun r' => ?_) rfl
  by_cases heq : r' = r
  · subst heq
    simp [State.base, State.setReg, hf]
  · simp [State.base, State.setReg, heq]

theorem base_pulse (s : State) : s.pulse.base = s.base := by
  refine Prod.ext rfl (Prod.ext rfl (Prod.ext rfl ?_))
  simp only [State.base, State.pulse, List.map_map]
  apply List.map_congr_left
  intro x _
  cases x <;> rfl

theorem face_setWatch {v : Watch} (h : s.watches fd = some w) (hregs : v.regs = w.regs)
    (hhandle : v.handle = w.handle)
    (hmask : v.armedMask = w.armedMask) : (s.setWatch fd v).face = s.face := by
  refine Prod.ext rfl (funext fun fd' => ?_)
  by_cases heq : fd' = fd
  · subst heq
    simp [State.face, State.setWatch, h, hregs, hhandle, hmask]
  · simp [State.face, State.setWatch, heq]

theorem face_setReg {f : Reg → Reg} (r : Nat) (hf : (f (s.regs r)).core = (s.regs r).core) :
    (s.setReg r f).face = s.face :=
  Prod.ext (base_setReg r hf) rfl

theorem face_pulse (s : State) : s.pulse.face = s.face :=
  Prod.ext (base_pulse s) rfl

theorem face_regs {regs : Nat → Reg} (h : ∀ r, (regs r).core = (s.regs r).core) :
    ({ s with regs } : State).face = s.face :=
  Prod.ext (Prod.ext (funext h) rfl) rfl

theorem shape_setWatch {v : Watch} (h : s.watches fd = some w) (hid : v.id = w.id)
    (hgen : v.generation = w.generation)
    (hregs : v.regs = w.regs) (hhandle : v.handle = w.handle) (hmask : v.armedMask = w.armedMask) :
    (s.setWatch fd v).shape = s.shape :=
  Prod.ext (frame_setWatch h hid hgen hhandle) (face_setWatch h hregs hhandle hmask)

theorem shape_setReg {f : Reg → Reg} (r : Nat) (hf : (f (s.regs r)).core = (s.regs r).core) :
    (s.setReg r f).shape = s.shape :=
  Prod.ext rfl (face_setReg r hf)

theorem shape_pulse (s : State) : s.pulse.shape = s.shape :=
  Prod.ext rfl (face_pulse s)

theorem shape_regs {regs : Nat → Reg} (h : ∀ r, (regs r).core = (s.regs r).core) :
    ({ s with regs } : State).shape = s.shape :=
  Prod.ext rfl (face_regs h)

theorem core_take (newBits value stored : Mask) (g : Reg) :
    (Reg.take newBits value stored g).core = g.core := by
  unfold Reg.take
  dsimp only
  split
  · rfl
  · split
    · rfl
    · rfl

theorem shape_absorb (h : s.watches fd = some w) (value : Mask) :
    (s.absorb fd w value).shape = s.shape := by
  have hstore : (s.store fd w value).shape = s.shape := by
    have hregs : ({ s with
        regs := fun r => if r ∈ w.regs then Reg.take (value \ w.stored) value (w.stored ∪ value)
          (s.regs r) else s.regs r } :
          State).shape = s.shape := by
      apply shape_regs
      intro r
      split
      · exact core_take _ _ _ _
      · rfl
    unfold State.store
    refine Eq.trans (shape_setWatch (w := w) h ?_ ?_ ?_ ?_ ?_) hregs
    · rfl
    · rfl
    · rfl
    · rfl
    · rfl
  unfold State.absorb
  dsimp only
  split
  · exact (shape_pulse _).trans hstore
  · exact hstore

theorem shape_onDelivery (h : s.watches fd = some w) (env : Env) (d : Delivery) :
    (s.onDelivery env fd w d).shape = s.shape := by
  unfold State.onDelivery
  split
  · rfl
  · exact (shape_pulse _).trans (shape_setWatch h rfl rfl rfl rfl rfl)
  · rfl
  · split
    · dsimp only
      split
      · have herror := shape_setWatch (s := { s with probes := s.probes + 1 })
            (v := { w with error := true }) h rfl rfl rfl rfl rfl
        refine (shape_absorb ?_ _).trans ((shape_pulse _).trans herror)
        exact watches_setWatch_self { s with probes := s.probes + 1 } fd _
      · exact shape_absorb (s := { s with probes := s.probes + 1 }) h _
    · apply shape_regs
      intro r
      dsimp only
      split <;> rfl

theorem shape_deliver (s : State) (env : Env) (k : Nat) (d : Delivery) :
    (s.deliver env k d).shape = s.shape := by
  unfold State.deliver
  split
  · rfl
  · split
    · rfl
    · rename_i h
      split
      · exact shape_onDelivery h env d
      · rfl

theorem shape_probe (s : State) (env : Env) (fd : Nat) (mask : Mask) :
    (s.probe env fd mask).1.shape = s.shape := by
  unfold State.probe
  split
  · rfl
  · dsimp only
    split
    · rfl
    · rename_i h
      exact shape_setWatch (s := { s with probes := s.probes + 1 }) h rfl rfl rfl rfl rfl
    · rfl

theorem shape_refresh (s : State) (fd : Nat) (mask got : Mask) :
    (s.refresh fd mask got).shape = s.shape := by
  unfold State.refresh
  split
  · rfl
  · rename_i w h
    have hwatch : (s.setWatch fd { w with stored := (w.stored \ mask) ∪ (got ∩ mask) }).shape = s.shape :=
      shape_setWatch h rfl rfl rfl rfl rfl
    refine Eq.trans (shape_regs ?_) hwatch
    intro r
    dsimp only
    split <;> rfl

theorem shape_revalidateLevel (s : State) (env : Env) (fd : Nat) :
    (s.revalidateLevel env fd).shape = s.shape := by
  unfold State.revalidateLevel
  split
  · rfl
  · dsimp only
    split
    · rfl
    · split
      · exact shape_probe s env fd _
      · exact (shape_refresh _ fd _ _).trans (shape_probe s env fd _)

theorem shape_revalidateEdge (s : State) (env : Env) (fd r : Nat) :
    (s.revalidateEdge env fd r).shape = s.shape := by
  unfold State.revalidateEdge
  dsimp only
  split
  · split
    · exact shape_probe s env fd _
    · split
      · exact (shape_setReg r rfl).trans (shape_probe s env fd _)
      · split
        · rename_i h
          refine Eq.trans (shape_setWatch h ?_ ?_ ?_ ?_ ?_) ((shape_setReg r rfl).trans
            (shape_probe s env fd _))
          · rfl
          · rfl
          · rfl
          · rfl
          · rfl
        · exact (shape_setReg r rfl).trans (shape_probe s env fd _)
  · rfl

theorem shape_revalidate (env : Env) (specs : List (Nat × Nat)) :
    ∀ (s : State) (seenFds : List Nat), (State.revalidate env s seenFds specs).shape = s.shape := by
  induction specs with
  | nil => exact fun _ _ => rfl
  | cons p rest ih =>
    intro s seenFds
    have hlatch : (s.setReg p.2 fun g => { g with latched := false }).shape = s.shape :=
      shape_setReg p.2 rfl
    unfold State.revalidate
    dsimp only
    split
    · exact (ih _ _).trans hlatch
    · refine (ih _ _).trans ((shape_revalidateEdge _ env p.1 p.2).trans ?_)
      split
      · exact hlatch
      · exact (shape_revalidateLevel (s.setReg p.2 fun g => { g with latched := false }) env
          p.1).trans hlatch

theorem shape_probeEmptyAt (env : Env) (s : State) (p : Nat × Nat) :
    (State.probeEmptyAt env s p).shape = s.shape := by
  unfold State.probeEmptyAt
  dsimp only
  split
  · rfl
  · split
    · rfl
    · split
      · rfl
      · split
        · exact shape_probe s env p.1 _
        · exact (shape_refresh _ p.1 _ _).trans (shape_probe s env p.1 _)

theorem same_foldl {α β : Type*} {F : State → β} {f : State → α → State}
    (hf : ∀ s x, F (f s x) = F s) (xs : List α)
    (s : State) : F (xs.foldl f s) = F s := by
  induction xs generalizing s with
  | nil => rfl
  | cons x xs ih => exact (ih (f s x)).trans (hf s x)

/-! ## The invariant -/

/-- The arms of a watch do not have a higher generation than the watch, and only its handle has the
same. -/
structure StaleInv (s : State) : Prop where
  ids : ∀ (fd : Nat) (w : Watch), s.watches fd = some w → w.id < s.nextWatch
  old : ∀ (k : Nat) (a : Arm), s.arms[k]? = some a → a.watch < s.nextWatch
  known : ∀ (k : Nat) (a : Arm) (w : Watch), s.arms[k]? = some a → s.watches a.fd = some w →
    w.id = a.watch →
    a.generation ≤ w.generation ∧ (a.generation = w.generation → w.handle = some k)

namespace StaleInv

theorem congr (h : StaleInv s) (hframe : s'.frame = s.frame) : StaleInv s' := by
  rcases Prod.mk.inj hframe with ⟨harms, hrest⟩
  rcases Prod.mk.inj hrest with ⟨hnext, hwatches⟩
  have hback : ∀ fd w', s'.watches fd = some w' →
      ∃ w, s.watches fd = some w ∧ w.id = w'.id ∧ w.generation = w'.generation ∧ w.handle = w'.handle := by
    intro fd w' hw'
    have hfd := congrFun hwatches fd
    simp only [hw', Option.map_some] at hfd
    rcases Option.map_eq_some_iff.1 hfd.symm with ⟨w, hw, heq⟩
    rcases Prod.mk.inj heq with ⟨hid, heq⟩
    rcases Prod.mk.inj heq with ⟨hgen, hhandle⟩
    exact ⟨w, hw, hid, hgen, hhandle⟩
  refine ⟨fun fd w' hw' => ?_, fun k a ha => ?_, fun k a w' ha hw' hid' => ?_⟩
  · rcases hback fd w' hw' with ⟨w, hw, hid, -, -⟩
    rw [hnext, ← hid]
    exact h.ids fd w hw
  · rw [hnext]
    exact h.old k a (harms ▸ ha)
  · rcases hback a.fd w' hw' with ⟨w, hw, hid, hgen, hhandle⟩
    have hknown := h.known k a w (harms ▸ ha) hw (hid.trans hid')
    rwa [hgen, hhandle] at hknown

theorem init (selector : Bool) : StaleInv (init selector) where
  ids := nofun
  old := nofun
  known := nofun

theorem setWatch (h : StaleInv s) (hid : w'.id < s.nextWatch)
    (hknown : ∀ (k : Nat) (a : Arm), s.arms[k]? = some a → a.fd = fd → w'.id = a.watch →
      a.generation ≤ w'.generation ∧ (a.generation = w'.generation → w'.handle = some k)) :
    StaleInv (s.setWatch fd w') := by
  refine ⟨fun fd' w hw => ?_, h.old, fun k a w ha hw hid' => ?_⟩
  · rcases watches_setWatch hw with ⟨rfl, rfl⟩ | ⟨-, hw⟩
    · exact hid
    · exact h.ids fd' w hw
  · rcases watches_setWatch hw with ⟨heq, rfl⟩ | ⟨-, hw⟩
    · exact hknown k a ha heq hid'
    · exact h.known k a w ha hw hid'

theorem disarm (h : StaleInv s) (fd : Nat) : StaleInv (s.disarm fd) := by
  unfold State.disarm
  split
  · exact h
  · rename_i w hw
    split
    · refine h.setWatch (h.ids fd w hw) fun k a ha hfd hid => ?_
      have hle := (h.known k a w ha (hfd ▸ hw) hid).1
      dsimp only
      exact ⟨by omega, fun heq => by omega⟩
    · exact h

theorem popWatch (h : StaleInv s) (fd : Nat) : StaleInv (s.popWatch fd) := by
  exact ⟨fun fd' w hw => h.ids fd' w (watches_popWatch hw).2, h.old,
    fun k a w ha hw hid => h.known k a w ha (watches_popWatch hw).2 hid⟩

theorem handle_disarm (hw : (s.disarm fd).watches fd = some w) : w.handle = none := by
  unfold State.disarm at hw
  split at hw
  · rename_i hnone
    rw [hnone] at hw
    cases hw
  · rename_i w₀ hw₀
    split at hw
    · cases (update_self fd _ s.watches).symm.trans hw
      rfl
    · rename_i hhandle
      rw [hw₀] at hw
      cases hw
      simpa using hhandle

theorem arm (h : StaleInv s) (hnone : ∀ w, s.watches fd = some w → w.handle = none) (mask : Mask) :
    StaleInv (s.arm env fd mask) := by
  unfold State.arm
  split
  · exact h
  · rename_i w hw
    have harmed : StaleInv { s.setWatch fd { w with handle := some s.arms.length, armedMask := mask } with
        arms := s.arms ++ [⟨fd, w.generation, w.id⟩] } := by
      have hcases : ∀ (k : Nat) (a : Arm), (s.arms ++ [⟨fd, w.generation, w.id⟩])[k]? = some a →
          s.arms[k]? = some a ∨ k = s.arms.length ∧ a = ⟨fd, w.generation, w.id⟩ := by
        intro k a ha
        rw [List.getElem?_append] at ha
        split at ha
        · exact Or.inl ha
        · rename_i hlt
          rw [List.getElem?_singleton] at ha
          split at ha
          · cases ha
            exact Or.inr ⟨by omega, rfl⟩
          · cases ha
      refine ⟨fun fd' w' hw' => ?_, fun k a ha => ?_, fun k a w' ha hw' hid => ?_⟩
      · rcases watches_setWatch hw' with ⟨rfl, rfl⟩ | ⟨-, hw'⟩
        · exact h.ids fd' w hw
        · exact h.ids fd' w' hw'
      · rcases hcases k a ha with ha | ⟨-, rfl⟩
        · exact h.old k a ha
        · exact h.ids fd w hw
      · rcases hcases k a ha with ha | ⟨rfl, rfl⟩
        · rcases watches_setWatch hw' with ⟨heq, rfl⟩ | ⟨-, hw'⟩
          · rcases h.known k a w ha (heq ▸ hw) hid with ⟨hle, hhandle⟩
            refine ⟨hle, fun hgen => ?_⟩
            have hsome := hhandle hgen
            rw [hnone w hw] at hsome
            cases hsome
          · exact h.known k a w' ha hw' hid
        · have hself :=
            watches_setWatch_self s fd { w with handle := some s.arms.length, armedMask := mask }
          cases hself.symm.trans hw'
          exact ⟨le_refl _, fun _ => rfl⟩
    dsimp only
    split
    · exact harmed.congr (congrArg Prod.fst (shape_deliver _ env _ _))
    · exact harmed

theorem ensureArmed (h : StaleInv s) (env : Env) (fd : Nat) : StaleInv (s.ensureArmed env fd) := by
  unfold State.ensureArmed
  split
  · exact h
  · split
    · exact h.disarm fd
    · split
      · exact h
      · exact (h.disarm fd).arm (fun _ hw => handle_disarm hw) _

theorem noteInterest (h : StaleInv s) (env : Env) (fd : Nat) : StaleInv (s.noteInterest env fd) := by
  unfold State.noteInterest
  dsimp only
  split
  · exact (h.ensureArmed env fd).disarm fd
  · exact h.ensureArmed env fd

theorem foldl {α : Type*} {f : State → α → State} (hf : ∀ s x, StaleInv s → StaleInv (f s x)) (xs : List α)
    (h : StaleInv s) : StaleInv (xs.foldl f s) := by
  induction xs generalizing s with
  | nil => exact h
  | cons x xs ih => exact ih (hf s x h)

theorem ensureWatch (h : StaleInv s) (fd : Nat) :
    StaleInv (s.ensureWatch fd).1 ∧ (s.ensureWatch fd).1.watches fd = some (s.ensureWatch fd).2 := by
  unfold State.ensureWatch
  split
  · rename_i w hw
    exact ⟨h, hw⟩
  · refine ⟨?_, update_self fd _ s.watches⟩
    have hgrow : StaleInv { s with fds := s.fds ++ [fd], nextWatch := s.nextWatch + 1 } :=
      ⟨fun fd' w hw => Nat.lt_succ_of_lt (h.ids fd' w hw), fun k a ha =>
        Nat.lt_succ_of_lt (h.old k a ha), h.known⟩
    refine hgrow.setWatch (Nat.lt_succ_self _) fun k a ha _ hid => ?_
    have hlt := h.old k a ha
    exact absurd hid.symm (ne_of_lt hlt)

theorem addReg (h : StaleInv s) (env : Env) (g : Reg) : StaleInv (s.addReg env g) := by
  unfold State.addReg
  dsimp only
  have hreg : StaleInv { s with regs := update s.regs s.nextReg g, nextReg := s.nextReg + 1 } := h.congr rfl
  rcases hreg.ensureWatch g.fd with ⟨hinv, hw⟩
  have hput := frame_setWatch (v := State.putReg { s with
    regs := update s.regs s.nextReg g, nextReg := s.nextReg + 1 } _ s.nextReg) hw rfl rfl rfl
  exact (hinv.congr hput).noteInterest env g.fd

theorem modify (h : StaleInv s) (env : Env) (fd owner : Nat) (interest : Mask) (edge oneshot : Bool) :
    StaleInv (s.modify env fd owner interest edge oneshot) := by
  unfold State.modify
  split
  · exact h
  · exact (h.congr rfl : StaleInv (s.setReg _ _)).noteInterest env fd

theorem removeOwner (h : StaleInv s) (env : Env) (fd owner : Nat) (keepShell : Bool) :
    StaleInv (s.removeOwner env fd owner keepShell) := by
  unfold State.removeOwner
  split
  · exact h
  · rename_i w hw
    dsimp only
    have hset :
        StaleInv (s.setWatch fd { w with regs := w.regs.filter fun r =>
          (s.regs r).owner ≠ owner }) :=
      h.congr (frame_setWatch hw rfl rfl rfl)
    split
    · split
      · split
        · rename_i w₂ hw₂
          exact (hset.disarm fd).congr (frame_setWatch hw₂ rfl rfl rfl)
        · exact hset.disarm fd
      · exact (hset.disarm fd).popWatch fd
    · exact hset.noteInterest env fd

theorem sweepShells (h : StaleInv s) (keep : List Nat) : StaleInv (s.sweepShells keep) := by
  refine foldl (fun s fd h => ?_) s.fds h
  unfold State.sweepShell
  split
  · exact h
  · split
    · exact (h.disarm fd).popWatch fd
    · exact h

theorem finishEphemeral (h : StaleInv s) (env : Env) (owner : Nat) :
    StaleInv (s.finishEphemeral env owner) := by
  refine foldl (fun s fd h => ?_) s.fds h
  unfold State.finishEphemeralAt
  split
  · exact h
  · split
    · have hremoved := h.removeOwner env fd owner true
      dsimp only
      split
      · split
        · exact hremoved.ensureArmed env fd
        · exact hremoved
      · exact hremoved
    · exact h

theorem commit (h : StaleInv s) (env : Env) (ready : List (Nat × Mask × Nat)) :
    StaleInv (s.commit env ready) := by
  have hreport : StaleInv (ready.foldl (fun s p => s.setReg p.2.2 (Reg.report p.2.1)) s) :=
    h.congr (same_foldl (F := State.frame) (f := fun s p => s.setReg p.2.2 (Reg.report p.2.1))
      (fun _ _ => rfl) ready s)
  unfold State.commit
  dsimp only
  split
  · exact hreport
  · refine foldl (fun s p h => ?_) ready hreport
    split
    · exact h.ensureArmed env p.1
    · exact h

theorem leave (h : StaleInv s) (specs : List (Nat × Nat)) : StaleInv (s.leave specs) := by
  unfold State.leave
  split
  · refine foldl (fun s p h => ?_) specs h
    have hcount : StaleInv { s with fdWaits := update s.fdWaits p.1 (s.fdWaits p.1 - 1) } := h.congr rfl
    dsimp only
    split
    · exact hcount.disarm p.1
    · exact hcount
  · exact h

theorem finish? (h : StaleInv s) {specs : List (Nat × Nat)} {maxevents : Option Nat}
    (hs : s.finish? env specs maxevents = some s') : StaleInv s' := by
  unfold State.finish? at hs
  split at hs
  · cases hs
    exact (h.commit env _).leave specs
  · split at hs
    · cases hs
      exact h.leave specs
    · cases hs

theorem waitArmed (h : StaleInv s) (env : Env) (specs : List (Nat × Nat)) (timeout : Timeout)
    (maxevents : Option Nat) :
    StaleInv (s.waitArmed env specs timeout maxevents) := by
  unfold State.waitArmed
  split
  · have harmed : StaleInv (specs.foldl (fun s p =>
        if (s.regs p.2).disarmed || (s.regs p.2).latched then s else s.ensureArmed env p.1) s) := by
      refine foldl (fun s p h => ?_) specs h
      split
      · exact h
      · exact h.ensureArmed env p.1
    dsimp only
    split
    · rename_i hfinish
      exact harmed.finish? hfinish
    · exact harmed.congr rfl
  · exact h.congr rfl

theorem wait (h : StaleInv s) (env : Env) (specs : List (Nat × Nat)) (timeout : Timeout)
    (maxevents : Option Nat) :
    StaleInv (s.wait env specs timeout maxevents) := by
  unfold State.wait
  dsimp only
  have hfirst : StaleInv (State.revalidate env
      { s with fdWaits := fun fd => s.fdWaits fd + specs.countP fun p => p.1 = fd } [] specs) :=
    h.congr (congrArg Prod.fst (shape_revalidate env specs _ []))
  split
  · exact (hfirst.commit env _).leave specs
  · split
    · have hprobed := hfirst.congr (congrArg Prod.fst (same_foldl (shape_probeEmptyAt env) specs _))
      split
      · rename_i hfinish
        exact hprobed.finish? hfinish
      · exact hprobed.leave specs
    · split
      · exact hfirst.leave specs
      · exact hfirst.waitArmed env specs _ maxevents

theorem again (h : StaleInv s) (env : Env) (j : Nat) (wt : Wait) (stays : Bool) :
    StaleInv (s.again env j wt stays) := by
  unfold State.again
  split
  · rename_i hfinish
    exact (h.finish? hfinish).congr rfl
  · split
    · exact h.congr rfl
    · exact (h.leave wt.specs).congr rfl

theorem step {a : Action} (h : StaleInv s) (hs : Poll.step s a = some s') : StaleInv s' := by
  cases a with
  | register g env =>
    cases hs
    exact h.addReg env _
  | modify fd owner interest edge oneshot env =>
    cases hs
    exact h.modify env fd owner interest edge oneshot
  | unregister fd owner env =>
    cases hs
    exact h.removeOwner env fd owner false
  | sweepShells keep =>
    cases hs
    exact h.sweepShells keep
  | finishEphemeral owner env =>
    cases hs
    exact h.finishEphemeral env owner
  | wait rs timeout maxevents env =>
    simp only [Poll.step] at hs
    split at hs
    · cases hs
      split
      · exact h
      · exact h.wait env _ timeout maxevents
    · cases hs
  | wake j env =>
    simp only [Poll.step] at hs
    split at hs
    · split at hs
      · cases hs
        exact h.again env j _ true
      · cases hs
    · cases hs
  | expire j env =>
    simp only [Poll.step] at hs
    split at hs
    · split at hs
      · cases hs
        exact h.again env j _ false
      · cases hs
    · cases hs
  | throw j =>
    simp only [Poll.step] at hs
    split at hs
    · cases hs
      exact (h.leave _).congr rfl
    · cases hs
  | deliver k d env =>
    cases hs
    exact h.congr (congrArg Prod.fst (shape_deliver s env k d))

theorem ignores (h : StaleInv s) {a : Action} (hc : s.Clear a) : s.Ignores a := by
  cases a with
  | deliver k d env =>
    intro hstale
    refine congrArg some ?_
    unfold State.deliver
    cases ha : s.arms[k]? with
    | none => rfl
    | some arm =>
      dsimp only
      cases hw : s.watches arm.fd with
      | none => rfl
      | some w =>
        simp only [State.Clear, ha, hw] at hc
        dsimp only
        split
        · rename_i hgen
          rcases hc with hid | hne | hcancelled
          · exact absurd ⟨arm, w, ha, hw, hid, (h.known k arm w ha hw hid).2 hgen.symm⟩ hstale
          · exact absurd hgen hne
          · unfold State.onDelivery
            rw [hcancelled]
        · rfl
  | _ => trivial

end StaleInv

/-- In every run in which no arm finds another watch with the generation of its own, what stale arms
deliver changes nothing. -/
theorem stale_deliveries_ignored (selector : Bool) (run : List Action)
    (h : Along step State.Clear (init selector) run) :
    Along step State.Ignores (init selector) run :=
  along_of_along (I := StaleInv) (fun _ _ hI hc => hI.ignores hc) (fun _ _ _ hI _ hs => hI.step hs) run _
    (StaleInv.init selector) h

theorem stale_delivery_stored {k b : Nat} {a : Arm} {value : Mask} (ha : s.arms[k]? = some a)
    (hw : s.watches a.fd = some w) (hgen : w.generation = a.generation)
    (hb : b ∈ value) (hpri : b ≠ pollPri) :
    ∃ w', (s.deliver env k { value := some value }).watches a.fd = some w' ∧ b ∈ w'.stored := by
  have hmem : b ∈ (s.checkPri env a.fd value).1 := by
    unfold State.checkPri
    split
    · split
      · dsimp only
        split
        · exact hb
        · exact Finset.mem_erase.2 ⟨hpri, hb⟩
      · exact Finset.mem_erase.2 ⟨hpri, hb⟩
    · exact hb
  have habsorb : ∀ (s₁ : State) (w₁ : Watch), ∃ w',
      (s₁.absorb a.fd w₁ (s.checkPri env a.fd value).1).watches a.fd =
      some w' ∧ b ∈ w'.stored := by
    intro s₁ w₁
    refine ⟨{ w₁ with stored := w₁.stored ∪ (s.checkPri env a.fd value).1 }, ?_,
      Finset.mem_union_right _ hmem⟩
    unfold State.absorb
    dsimp only
    split
    · exact watches_setWatch_self _ a.fd _
    · exact watches_setWatch_self _ a.fd _
  unfold State.deliver
  rw [ha]
  dsimp only
  rw [hw]
  dsimp only
  rw [if_pos hgen]
  unfold State.onDelivery
  dsimp only
  rw [if_pos rfl]
  split
  · exact habsorb _ _
  · exact habsorb _ _

/-- A registration is changed and removed; the arms before say that the descriptor is ready, and are
not heard. -/
theorem stale_deliveries_ignored_modified :
    Played step (Along step State.Ignores) (init false)
      [.register { owner := 1, interest := {pollIn}, fd := 5 } {},
      .modify 5 1 {pollPri} false false {}, .deliver 0 { value := some {pollIn} } {}, .unregister 5 1 {},
      .deliver 1 { value := some {pollIn} } {}] :=
  ⟨stale_deliveries_ignored false _ (by decide), by decide⟩

/-- A descriptor is registered, closed and registered again; the first arm has the generation of the
second. -/
theorem stale_delivery_applied : ∃ s,
    exec step (init false) [.register { owner := 1, interest := {pollIn}, fd := 5 } {}, .unregister 5 1 {},
      .register { owner := 1, interest := {pollIn}, fd := 5 } {}] = some s ∧
    ¬ s.Ignores (.deliver 0 { value := some {pollIn} } {}) := by
  refine ⟨_, rfl, fun h => ?_⟩
  have hstale := h (by
    rintro ⟨a, w, ha, hw, hid, -⟩
    cases ha
    cases hw
    exact absurd hid (by decide))
  have hwatch := congrArg (fun s => (s.map fun s => (s.watches 5).map Watch.stored)) hstale
  exact absurd hwatch (by decide)

end Pytealet.Poll
