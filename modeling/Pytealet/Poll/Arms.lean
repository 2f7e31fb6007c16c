import Pytealet.Poll.Edges
import Pytealet.Poll.Stale

/-!
# Arms — what a watch is armed for, and what a call of `wait` reports

The arm of a watch is for the bits that its registrations ask for.  Whatever changes these calls
`ensure_armed`; only the selector does not, when a registration has been reported once and for all.
There the arm goes when the last wait on the descriptor returns, and an arm that others still wait
for keeps its mask.
-/

namespace Pytealet.Poll

open Lib Lib.Transition Function List Option Bool

/-! ## The property -/

/-- The arm of a descriptor is for the bits that are asked for, and there is one only if some
are. -/
def Armed (s : State) (fd : Nat) : Prop :=
  ∀ w, s.watches fd = some w → w.handle.isSome = true → w.armedMask = s.wanted w ∧ s.wanted w ≠ ∅

def ArmsExact (s : State) : Prop :=
  ∀ fd, Armed s fd

namespace State

/-- The state in which a call of `wait` that has found nothing collects again after it has armed. -/
def collectingArmed (s : State) (env : Env) (specs : List (Nat × Nat)) : Option State :=
  if s.failing specs then none
  else if specs.any fun p => !(s.regs p.2).disarmed && !(s.regs p.2).latched && decide
    (s.regs p.2).interest.Nonempty then
    let s₁ := specs.foldl (fun s p =>
      if (s.regs p.2).disarmed || (s.regs p.2).latched then s else s.ensureArmed env p.1) s
    if s₁.ready specs ≠ [] then some s₁ else none
  else none

/-- The state in which a new call of `wait` collects what it returns, if it returns something. -/
def collecting (s : State) (env : Env) (specs : List (Nat × Nat)) (timeout : Timeout) : Option State :=
  let s₀ := { s with fdWaits := fun fd => s.fdWaits fd + specs.countP fun p => p.1 = fd }
  let s₁ := revalidate env s₀ [] specs
  if s₁.ready specs ≠ [] then some s₁
  else
    match timeout with
    | .zero =>
      let s₂ := specs.foldl (probeEmptyAt env) s₁
      if s₂.ready specs ≠ [] then some s₂ else none
    | _ => s₁.collectingArmed env specs

/-- The same for a call that goes on. -/
def collectingAgain (s : State) (w : Wait) : Option (State × List (Nat × Nat) × Option Nat) :=
  if s.ready w.specs ≠ [] then some (s, w.specs, w.maxevents) else none

/-- The state in which a step collects, with the registrations that it looks at and `maxevents`. -/
def report? (s : State) : Action → Option (State × List (Nat × Nat) × Option Nat)
  | .wait rs timeout maxevents env =>
    let specs := rs.map fun r => ((s.regs r).fd, r)
    if specs.isEmpty then none
    else
      match s.collecting env specs timeout with
      | some t => some (t, specs, maxevents)
      | none => none
  | .wake j _ =>
    match s.waits[j]? with
    | some (some w) => s.collectingAgain w
    | _ => none
  | .expire j _ =>
    match s.waits[j]? with
    | some (some w) => s.collectingAgain w
    | _ => none
  | _ => none

/-- What is ready, and what of it is returned: descriptors, bits and registrations. -/
def found (s : State) (a : Action) : List (Nat × Mask × Nat) :=
  match s.report? a with
  | some (t, specs, _) => t.ready specs
  | none => []

def results (s : State) (a : Action) : List (Nat × Mask × Nat) :=
  match s.report? a with
  | some (t, specs, maxevents) => cap maxevents (t.ready specs)
  | none => []

/-- The registrations when these have been reported. -/
def reported (s : State) (ready : List (Nat × Mask × Nat)) : State :=
  ready.foldl (fun s p => s.setReg p.2.2 (Reg.report p.2.1)) s

/-- The action is a `modify` of the registration. -/
def Modifies (s : State) (a : Action) (r : Nat) : Prop :=
  match a with
  | .modify fd owner _ _ _ _ => s.regOf? fd owner = some r
  | _ => False

/-- A call of `wait` is given the items of a dictionary, by descriptor. -/
def Items (s : State) : Action → Prop
  | .wait rs _ _ _ => (rs.map fun r => (s.regs r).fd).Nodup
  | _ => True

/-- The arm of a descriptor does not outlive its mask: on the selector, a oneshot registration is
reported only by the last wait on its descriptor, or where others ask for its bits. -/
def Releases (s : State) (a : Action) : Prop :=
  match s.report? a with
  | none => True
  | some (t, specs, maxevents) =>
    t.selector = true → ∀ p ∈ cap maxevents (t.ready specs), (t.regs p.2.2).oneshot = true →
      (t.fdWaits p.1 ≤ specs.countP fun q => q.1 = p.1) ∨
        match t.watches p.1 with
        | none => True
        | some w => w.handle.isSome = true → (t.reported (cap maxevents (t.ready specs))).wanted w =
            t.wanted w

instance (s : State) (a : Action) : Decidable (s.Releases a) := by
  unfold Releases
  split
  · infer_instance
  · have hinner : ∀ (t : State) (l : List (Nat × Mask × Nat)) (p : Nat × Mask × Nat), Decidable
        (match t.watches p.1 with
        | none => True
        | some w => w.handle.isSome = true → (t.reported l).wanted w = t.wanted w) := by
      intro t l p
      split <;> infer_instance
    infer_instance

instance (s : State) : ∀ a, Decidable (s.Items a)
  | .wait rs _ _ _ => inferInstanceAs (Decidable (rs.map fun r => (s.regs r).fd).Nodup)
  | .register _ _ => isTrue trivial
  | .modify _ _ _ _ _ _ => isTrue trivial
  | .unregister _ _ _ => isTrue trivial
  | .sweepShells _ => isTrue trivial
  | .finishEphemeral _ _ => isTrue trivial
  | .wake _ _ => isTrue trivial
  | .expire _ _ => isTrue trivial
  | .throw _ => isTrue trivial
  | .deliver _ _ _ => isTrue trivial

end State

/-- What a step returns and leaves. -/
structure Polls (s : State) (a : Action) (s' : State) : Prop where
  /-- only bits that the registration asks for -/
  bits : ∀ p ∈ s.results a, p.2.1 ⊆ (s.regs p.2.2).interest ∧ p.2.1 ≠ ∅
  /-- a registration once, and one that is oneshot is disarmed by it -/
  once : ((s.results a).map fun p => p.2.2).Nodup
  disarms : ∀ p ∈ s.results a, (s.regs p.2.2).disarmed = false ∧
    ((s.regs p.2.2).oneshot = true → (s'.regs p.2.2).disarmed = true)
  /-- it stays so until it is modified -/
  stays : ∀ r < s.nextReg, (s.regs r).disarmed = true → ¬ s.Modifies a r → (s'.regs r).disarmed = true
  /-- what was ready and has not been returned is still ready -/
  kept : ∀ p ∈ s.found a, p ∉ s.results a → p ∈ s'.ready [(p.1, p.2.2)]

/-! ## What is left as it is -/

variable {s s' : State} {env : Env} {fd r : Nat} {w w' : Watch} {specs : List (Nat × Nat)}

theorem core_fields {g g' : Reg} (h : g'.core = g.core) :
    g'.fd = g.fd ∧ g'.interest = g.interest ∧ g'.oneshot = g.oneshot ∧ g'.disarmed = g.disarmed := by
  rcases Prod.mk.inj h with ⟨hfd, h⟩
  rcases Prod.mk.inj h with ⟨_, h⟩
  rcases Prod.mk.inj h with ⟨hinterest, h⟩
  rcases Prod.mk.inj h with ⟨honeshot, hdisarmed⟩
  exact ⟨hfd, hinterest, honeshot, hdisarmed⟩

theorem base_core (h : s'.base = s.base) (r : Nat) : (s'.regs r).core = (s.regs r).core :=
  congrFun (Prod.mk.inj h).1 r

theorem base_nextReg (h : s'.base = s.base) : s'.nextReg = s.nextReg :=
  (Prod.mk.inj (Prod.mk.inj h).2).1

theorem base_selector (h : s'.base = s.base) : s'.selector = s.selector :=
  (Prod.mk.inj (Prod.mk.inj (Prod.mk.inj h).2).2).1

theorem base_waits {wt : Wait} (h : s'.base = s.base) (hwt : some wt ∈ s'.waits) :
    ∃ wt₀, some wt₀ ∈ s.waits ∧ wt₀.specs = wt.specs := by
  have hwaits : s'.waits.map (Option.map Wait.specs) = s.waits.map (Option.map Wait.specs) :=
    (Prod.mk.inj (Prod.mk.inj (Prod.mk.inj h).2).2).2
  have hmem : some wt.specs ∈ s.waits.map (Option.map Wait.specs) := hwaits ▸ mem_map_of_mem hwt
  rcases mem_map.1 hmem with ⟨x, hx, heq⟩
  rcases map_eq_some_iff.1 heq with ⟨wt₀, rfl, hspecs⟩
  exact ⟨wt₀, hx, hspecs⟩

theorem Homed.base (hs : Homed specs s) (h : s'.base = s.base) : Homed specs s' := by
  intro p hp
  rw [base_nextReg h, (core_fields (base_core h p.2)).1]
  exact hs p hp

theorem wanted_congr (hregs : w'.regs = w.regs) (h : ∀ r ∈ w.regs, (s'.regs r).core = (s.regs r).core) :
    s'.wanted w' = s.wanted w := by
  unfold State.wanted
  rw [hregs]
  generalize w.regs = l at h
  induction l with
  | nil => rfl
  | cons r l ih =>
    have hr := core_fields (h r mem_cons_self)
    have hl := ih fun q hq => h q (mem_cons_of_mem r hq)
    simp only [filter_cons, hr.2.2.2]
    split
    · simp only [foldr_cons, hr.2.1, hl]
    · exact hl

/-! ## The invariant -/

/-- The arms of all descriptors are exact but of those in `D`; a watch has the registrations of its
descriptor. -/
structure ArmInv (D : Nat → Prop) (s : State) : Prop where
  home : ∀ fd w, s.watches fd = some w → ∀ r ∈ w.regs, r < s.nextReg ∧ (s.regs r).fd = fd
  waits : ∀ wt, some wt ∈ s.waits → Homed wt.specs s ∧ (wt.specs.map Prod.fst).Nodup
  armed : ∀ fd, ¬ D fd → Armed s fd

/-- Only the watch of `fd` changes, and it keeps its registrations. -/
structure Touches (fd : Nat) (s s' : State) : Prop where
  base : s'.base = s.base
  regs : ∀ w', s'.watches fd = some w' → ∃ w, s.watches fd = some w ∧ w.regs = w'.regs
  other : ∀ fd', fd' ≠ fd → (s'.watches fd').map (fun w => (w.regs, w.handle, w.armedMask)) =
    (s.watches fd').map fun w => (w.regs, w.handle, w.armedMask)

theorem watch_face {o o' : Option Watch} (h : o'.map (fun w => (w.regs, w.handle, w.armedMask)) =
    o.map fun w => (w.regs, w.handle, w.armedMask)) (hw : o' = some w') :
    ∃ w, o = some w ∧ w.regs = w'.regs ∧ w.handle = w'.handle ∧ w.armedMask = w'.armedMask := by
  subst hw
  rcases map_eq_some_iff.1 h.symm with ⟨w, hw, heq⟩
  rcases Prod.mk.inj heq with ⟨hregs, heq⟩
  rcases Prod.mk.inj heq with ⟨hhandle, hmask⟩
  exact ⟨w, hw, hregs, hhandle, hmask⟩

theorem Armed.congr {o : Option Watch} (h : Armed s fd) (ho : s'.watches fd = o)
    (hface : o.map (fun w => (w.regs, w.handle, w.armedMask)) = (s.watches fd).map fun w =>
      (w.regs, w.handle, w.armedMask))
    (hcore : ∀ w, s.watches fd = some w → ∀ r ∈ w.regs, (s'.regs r).core = (s.regs r).core) :
      Armed s' fd := by
  intro w' hw' hhandle'
  rcases watch_face hface (ho.symm.trans hw') with ⟨w, hw, hregs, hhandle, hmask⟩
  have hwanted : s'.wanted w' = s.wanted w := wanted_congr hregs.symm (hcore w hw)
  rw [hwanted, ← hmask]
  exact h w hw (hhandle ▸ hhandle')

theorem Touches.refl (fd : Nat) (s : State) : Touches fd s s :=
  ⟨rfl, fun w hw => ⟨w, hw, rfl⟩, fun _ _ => rfl⟩

theorem Touches.trans {s'' : State} (h : Touches fd s s') (h' : Touches fd s' s'') : Touches fd s s'' := by
  refine ⟨h'.base.trans h.base, ?_, fun fd' hne => (h'.other fd' hne).trans (h.other fd' hne)⟩
  intro w'' hw''
  rcases h'.regs w'' hw'' with ⟨w', hw', hregs'⟩
  rcases h.regs w' hw' with ⟨w, hw, hregs⟩
  exact ⟨w, hw, hregs.trans hregs'⟩

theorem Touches.face (fd : Nat) (h : s'.face = s.face) : Touches fd s s' := by
  rcases Prod.mk.inj h with ⟨hbase, hwatches⟩
  refine ⟨hbase, ?_, fun fd' _ => congrFun hwatches fd'⟩
  intro w' hw'
  rcases watch_face (congrFun hwatches fd) hw' with ⟨w, hw, hregs, _⟩
  exact ⟨w, hw, hregs⟩

theorem Touches.setWatch {v : Watch} (hw : s.watches fd = some w) (hregs : v.regs = w.regs) :
    Touches fd s (s.setWatch fd v) := by
  refine ⟨rfl, ?_, ?_⟩
  · intro w' hw'
    cases (watches_setWatch_self s fd v).symm.trans hw'
    exact ⟨w, hw, hregs.symm⟩
  · intro fd' hne
    simp only [State.setWatch, update_of_ne hne]

namespace ArmInv

variable {D D' : Nat → Prop}

theorem mono (h : ArmInv D s) (hD : ∀ fd, D fd → D' fd) : ArmInv D' s :=
  ⟨h.home, h.waits, fun fd hnot => h.armed fd fun hfd => hnot (hD fd hfd)⟩

theorem touch (h : ArmInv D s) (ht : Touches fd s s') (hfd : Armed s' fd) :
    ArmInv (fun f => D f ∧ f ≠ fd) s' := by
  have hhome : ∀ f w', s'.watches f = some w' → ∃ w, s.watches f = some w ∧ w.regs = w'.regs := by
    intro f w' hw'
    by_cases heq : f = fd
    · subst heq
      exact ht.regs w' hw'
    · rcases watch_face (ht.other f heq) hw' with ⟨w, hw, hregs, _⟩
      exact ⟨w, hw, hregs⟩
  refine ⟨?_, ?_, ?_⟩
  · intro f w' hw' r hr
    rcases hhome f w' hw' with ⟨w, hw, hregs⟩
    rw [base_nextReg ht.base, (core_fields (base_core ht.base r)).1]
    exact h.home f w hw r (hregs ▸ hr)
  · intro wt hwt
    rcases base_waits ht.base hwt with ⟨wt₀, hwt₀, hspecs⟩
    rw [← hspecs]
    exact ⟨(h.waits wt₀ hwt₀).1.base ht.base, (h.waits wt₀ hwt₀).2⟩
  · intro f hnot
    by_cases heq : f = fd
    · exact heq ▸ hfd
    · have hf : Armed s f := h.armed f fun hD => hnot ⟨hD, heq⟩
      exact hf.congr rfl (ht.other f heq) fun w _ r _ => base_core ht.base r

theorem congr (h : ArmInv D s) (hface : s'.face = s.face) : ArmInv D s' := by
  have hbase : s'.base = s.base := (Prod.mk.inj hface).1
  refine ⟨?_, ?_, ?_⟩
  · intro f w' hw' r hr
    rcases watch_face (congrFun (Prod.mk.inj hface).2 f) hw' with ⟨w, hw, hregs, _⟩
    rw [base_nextReg hbase, (core_fields (base_core hbase r)).1]
    exact h.home f w hw r (hregs ▸ hr)
  · intro wt hwt
    rcases base_waits hbase hwt with ⟨wt₀, hwt₀, hspecs⟩
    rw [← hspecs]
    exact ⟨(h.waits wt₀ hwt₀).1.base hbase, (h.waits wt₀ hwt₀).2⟩
  · intro f hnot
    exact (h.armed f hnot).congr rfl (congrFun (Prod.mk.inj hface).2 f) fun w _ r _ => base_core hbase r

end ArmInv

/-! ## Arming -/

theorem touches_disarm (s : State) (fd : Nat) : Touches fd s (s.disarm fd) := by
  unfold State.disarm
  split
  · exact Touches.refl fd s
  · rename_i w hw
    split
    · exact Touches.setWatch hw rfl
    · exact Touches.refl fd s

theorem fdWaits_disarm (s : State) (fd : Nat) : (s.disarm fd).fdWaits = s.fdWaits := by
  unfold State.disarm
  split
  · rfl
  · split <;> rfl

theorem armed_disarm (s : State) (fd : Nat) : Armed (s.disarm fd) fd := by
  intro w hw hhandle
  rw [StaleInv.handle_disarm hw] at hhandle
  exact nomatch hhandle

theorem touches_arm (s : State) (env : Env) (fd : Nat) (mask : Mask) :
    Touches fd s (s.arm env fd mask) := by
  unfold State.arm
  split
  · exact Touches.refl fd s
  · rename_i w hw
    have harmed :
        Touches fd s { s.setWatch fd { w with handle := some s.arms.length, armedMask := mask } with
        arms := s.arms ++ [⟨fd, w.generation, w.id⟩] } := by
      have hset : Touches fd s (s.setWatch fd { w with handle := some s.arms.length, armedMask := mask }) :=
        Touches.setWatch hw rfl
      exact ⟨hset.base, hset.regs, hset.other⟩
    dsimp only
    split
    · exact harmed.trans (Touches.face fd (congrArg Prod.snd (shape_deliver _ env _ _)))
    · exact harmed

theorem armedMask_arm {mask : Mask} (hw : (s.arm env fd mask).watches fd = some w) :
    w.armedMask = mask := by
  unfold State.arm at hw
  split at hw
  · rename_i hnone
    cases hnone.symm.trans hw
  · rename_i w₀ hw₀
    have hself := watches_setWatch_self s fd { w₀ with handle := some s.arms.length, armedMask := mask }
    dsimp only at hw
    split at hw
    · have hface := shape_deliver { s.setWatch fd { w₀ with handle := some s.arms.length, armedMask := mask } with
        arms := s.arms ++ [⟨fd, w₀.generation, w₀.id⟩] } env s.arms.length
      rcases watch_face (congrFun (Prod.mk.inj (congrArg Prod.snd (hface _))).2 fd) hw with
        ⟨v, hv, _, _, hmask⟩
      cases hself.symm.trans hv
      exact hmask.symm
    · cases hself.symm.trans hw
      rfl

theorem touches_ensureArmed (s : State) (env : Env) (fd : Nat) : Touches fd s (s.ensureArmed env fd) := by
  unfold State.ensureArmed
  split
  · exact Touches.refl fd s
  · split
    · exact touches_disarm s fd
    · split
      · exact Touches.refl fd s
      · exact (touches_disarm s fd).trans (touches_arm _ env fd _)

theorem armed_ensureArmed (s : State) (env : Env) (fd : Nat) : Armed (s.ensureArmed env fd) fd := by
  intro w' hw' hhandle'
  have htouch := touches_ensureArmed s env fd
  rcases htouch.regs w' hw' with ⟨w, hw, hregs⟩
  have hwanted : (s.ensureArmed env fd).wanted w' = s.wanted w :=
    wanted_congr hregs.symm fun r _ => base_core htouch.base r
  rw [hwanted]
  unfold State.ensureArmed at hw'
  rw [hw] at hw'
  dsimp only at hw'
  split at hw'
  · rw [StaleInv.handle_disarm hw'] at hhandle'
    exact nomatch hhandle'
  · rename_i hne
    split at hw'
    · rename_i hsame
      cases hw.symm.trans hw'
      exact ⟨hsame.2, hne⟩
    · exact ⟨armedMask_arm hw', hne⟩

theorem touches_noteInterest (s : State) (env : Env) (fd : Nat) : Touches fd s (s.noteInterest env fd) := by
  unfold State.noteInterest
  dsimp only
  split
  · exact (touches_ensureArmed s env fd).trans (touches_disarm _ fd)
  · exact touches_ensureArmed s env fd

theorem armed_noteInterest (s : State) (env : Env) (fd : Nat) : Armed (s.noteInterest env fd) fd := by
  unfold State.noteInterest
  dsimp only
  split
  · exact armed_disarm _ fd
  · exact armed_ensureArmed s env fd

theorem touches_popWatch (s : State) (fd : Nat) : Touches fd s (s.popWatch fd) := by
  refine ⟨rfl, ?_, ?_⟩
  · intro w hw
    exact absurd rfl (watches_popWatch hw).1
  · intro fd' hne
    simp only [State.popWatch, update_of_ne hne]

/-! ## Registrations -/

namespace ArmInv

variable {D : Nat → Prop}

theorem setReg (h : ArmInv D s) {f : Reg → Reg} (r : Nat) (hf : ∀ g, (f g).fd = g.fd) :
    ArmInv (fun fd => D fd ∨ fd = (s.regs r).fd) (s.setReg r f) := by
  have hfd : ∀ r', ((s.setReg r f).regs r').fd = (s.regs r').fd := by
    intro r'
    by_cases heq : r' = r
    · subst heq
      simp [State.setReg, hf]
    · simp [State.setReg, heq]
  refine ⟨?_, ?_, ?_⟩
  · intro fd w hw r' hr'
    rw [hfd]
    exact h.home fd w hw r' hr'
  · intro wt hwt
    refine ⟨fun p hp => ?_, (h.waits wt hwt).2⟩
    rw [hfd]
    exact (h.waits wt hwt).1 p hp
  · intro fd hnot
    have hold : Armed s fd := h.armed fd fun hD => hnot (.inl hD)
    refine hold.congr rfl rfl ?_
    intro w hw r' hr'
    have hne : r' ≠ r := fun heq => hnot (.inr (heq ▸ (h.home fd w hw r' hr').2.symm))
    simp only [State.setReg, update_of_ne hne]

theorem setWatch (h : ArmInv D s) (fd : Nat) {v : Watch}
    (hv : ∀ r ∈ v.regs, r < s.nextReg ∧ (s.regs r).fd = fd) :
    ArmInv (fun f => D f ∨ f = fd) (s.setWatch fd v) := by
  refine ⟨?_, h.waits, ?_⟩
  · intro f w hw r hr
    rcases watches_setWatch hw with ⟨rfl, rfl⟩ | ⟨_, hw⟩
    · exact hv r hr
    · exact h.home f w hw r hr
  · intro f hnot
    have hold : Armed s f := h.armed f fun hD => hnot (.inl hD)
    intro w hw
    rcases watches_setWatch hw with ⟨heq, _⟩ | ⟨_, hw⟩
    · exact absurd (Or.inr heq) hnot
    · exact hold w hw

theorem disarm (h : ArmInv D s) (fd : Nat) : ArmInv (fun f => D f ∧ f ≠ fd) (s.disarm fd) :=
  h.touch (touches_disarm s fd) (armed_disarm s fd)

theorem ensureArmed (h : ArmInv D s) (env : Env) (fd : Nat) : ArmInv (fun f => D f ∧ f ≠ fd)
    (s.ensureArmed env fd) :=
  h.touch (touches_ensureArmed s env fd) (armed_ensureArmed s env fd)

theorem noteInterest (h : ArmInv D s) (env : Env) (fd : Nat) : ArmInv (fun f => D f ∧ f ≠ fd)
    (s.noteInterest env fd) :=
  h.touch (touches_noteInterest s env fd) (armed_noteInterest s env fd)

theorem popWatch (h : ArmInv D s) (fd : Nat) : ArmInv (fun f => D f ∧ f ≠ fd) (s.popWatch fd) :=
  h.touch (touches_popWatch s fd) fun _ hw => absurd rfl (watches_popWatch hw).1

theorem noted (h : ArmInv (fun f => f = fd) s) (env : Env) : ArmInv (fun _ => False)
    (s.noteInterest env fd) :=
  (h.noteInterest env fd).mono fun _ hf => hf.2 hf.1

theorem addReg (h : ArmInv (fun _ => False) s) (env : Env) (g : Reg) : ArmInv (fun _ => False) (s.addReg env g) := by
  have hold : ∀ r < s.nextReg, update s.regs s.nextReg g r = s.regs r :=
    fun r hr => update_of_ne (ne_of_lt hr) _ _
  have hreg : ArmInv (fun _ => False) { s with regs := update s.regs s.nextReg g, nextReg := s.nextReg + 1 } := by
    refine ⟨?_, ?_, ?_⟩
    · intro fd w hw r hr
      have hlt := (h.home fd w hw r hr).1
      refine ⟨Nat.lt_succ_of_lt hlt, ?_⟩
      dsimp only
      rw [hold r hlt]
      exact (h.home fd w hw r hr).2
    · intro wt hwt
      refine ⟨fun p hp => ?_, (h.waits wt hwt).2⟩
      have hhomed := (h.waits wt hwt).1 p hp
      refine ⟨Nat.lt_succ_of_lt hhomed.1, ?_⟩
      dsimp only
      rw [hold p.2 hhomed.1]
      exact hhomed.2
    · intro fd hnot
      refine (h.armed fd hnot).congr rfl rfl ?_
      intro w hw r hr
      dsimp only
      rw [hold r (h.home fd w hw r hr).1]
  unfold State.addReg
  dsimp only
  generalize hs₁ :
    ({ s with regs := update s.regs s.nextReg g, nextReg := s.nextReg + 1 } : State) = s₁ at hreg
  have hnew : s.nextReg < s₁.nextReg ∧ (s₁.regs s.nextReg).fd = g.fd := by
    subst hs₁
    exact ⟨Nat.lt_succ_self _, by simp⟩
  -- the watch, with the registrations that it has had
  have hwatch : ArmInv (fun f => f = g.fd) (s₁.ensureWatch g.fd).1 ∧
      (s₁.ensureWatch g.fd).1.regs = s₁.regs ∧
      (s₁.ensureWatch g.fd).1.nextReg = s₁.nextReg ∧
      ∀ r ∈ (s₁.ensureWatch g.fd).2.regs, r < s₁.nextReg ∧ (s₁.regs r).fd = g.fd := by
    unfold State.ensureWatch
    split
    · rename_i w hw
      exact ⟨hreg.mono fun _ hf => hf.elim, rfl, rfl, hreg.home g.fd w hw⟩
    · have hset := hreg.setWatch g.fd (v := { id := s₁.nextWatch }) fun r hr => absurd hr not_mem_nil
      have hsame : ArmInv (fun f => f = g.fd) (s₁.setWatch g.fd { id := s₁.nextWatch }) :=
        hset.mono fun _ hf => hf.elim False.elim id
      exact ⟨hsame.congr rfl, rfl, rfl, fun r hr => absurd hr not_mem_nil⟩
  rcases hwatch with ⟨hinv, hregs, hnext, hhome⟩
  have hput : ∀ r ∈ (s₁.putReg (s₁.ensureWatch g.fd).2 s.nextReg).regs,
      r < (s₁.ensureWatch g.fd).1.nextReg ∧ ((s₁.ensureWatch g.fd).1.regs r).fd = g.fd := by
    intro r hr
    rw [hnext, hregs]
    unfold State.putReg at hr
    dsimp only at hr
    split at hr
    · rcases mem_map.1 hr with ⟨q, hq, heq⟩
      split at heq
      · exact heq ▸ hnew
      · exact heq ▸ hhome q hq
    · rcases mem_append.1 hr with hr | hr
      · exact hhome r hr
      · exact mem_singleton.1 hr ▸ hnew
  have hall : ArmInv (fun f => f = g.fd)
      ((s₁.ensureWatch g.fd).1.setWatch g.fd (s₁.putReg (s₁.ensureWatch g.fd).2 s.nextReg)) :=
    (hinv.setWatch g.fd hput).mono fun _ hf => hf.elim id id
  exact hall.noted env

theorem modify (h : ArmInv (fun _ => False) s) (env : Env) (fd owner : Nat)
    (interest : Mask) (edge oneshot : Bool) :
    ArmInv (fun _ => False) (s.modify env fd owner interest edge oneshot) := by
  unfold State.modify
  cases hr : s.regOf? fd owner with
  | none => exact h
  | some r =>
    have hfd : (s.regs r).fd = fd := by
      unfold State.regOf? at hr
      split at hr
      · rename_i w hw
        exact (h.home fd w hw r (mem_of_find?_eq_some hr)).2
      · cases hr
    dsimp only
    have hset := h.setReg r (f := fun g =>
      { g with
        interest, edge, oneshot
        disarmed := false
        seen := ∅
        latched := false
        owed := if edge then g.owed ∩ interest else ∅ }) fun _ => rfl
    have hsame : ArmInv (fun f => f = fd) (s.setReg r _) :=
      hset.mono fun _ hf => hf.elim False.elim fun heq => heq.trans hfd
    exact hsame.noted env

theorem removeOwner (h : ArmInv (fun _ => False) s) (env : Env) (fd owner : Nat) (keepShell : Bool) :
    ArmInv (fun _ => False) (s.removeOwner env fd owner keepShell) := by
  unfold State.removeOwner
  split
  · exact h
  · rename_i w hw
    dsimp only
    have hset :
        ArmInv (fun f => f = fd) (s.setWatch fd { w with regs := w.regs.filter fun r =>
          (s.regs r).owner ≠ owner }) := by
      have hset := h.setWatch fd (v := { w with regs := w.regs.filter fun r => (s.regs r).owner ≠ owner })
        fun r hr => h.home fd w hw r (mem_of_mem_filter hr)
      exact hset.mono fun _ hf => hf.elim False.elim id
    have hdisarmed : ArmInv (fun _ => False)
        ((s.setWatch fd { w with regs := w.regs.filter fun r => (s.regs r).owner ≠ owner }).disarm fd) :=
      (hset.disarm fd).mono fun _ hf => hf.2 hf.1
    split
    · split
      · split
        · rename_i w₂ hw₂
          exact hdisarmed.congr (face_setWatch hw₂ rfl rfl rfl)
        · exact hdisarmed
      · exact (hdisarmed.popWatch fd).mono fun _ hf => hf.1
    · exact hset.noted env

theorem foldl {α : Type*} {f : State → α → State} (hf : ∀ s x, ArmInv D s → ArmInv D (f s x)) (xs : List α)
    (h : ArmInv D s) : ArmInv D (xs.foldl f s) := by
  induction xs generalizing s with
  | nil => exact h
  | cons x xs ih => exact ih (hf s x h)

theorem sweepShells (h : ArmInv (fun _ => False) s) (keep : List Nat) : ArmInv (fun _ => False)
    (s.sweepShells keep) := by
  refine foldl (fun s fd h => ?_) s.fds h
  unfold State.sweepShell
  split
  · exact h
  · split
    · exact ((h.disarm fd).popWatch fd).mono fun _ hf => hf.1.1
    · exact h

theorem finishEphemeral (h : ArmInv (fun _ => False) s) (env : Env) (owner : Nat) :
    ArmInv (fun _ => False) (s.finishEphemeral env owner) := by
  refine foldl (fun s fd h => ?_) s.fds h
  unfold State.finishEphemeralAt
  split
  · exact h
  · split
    · have hremoved := h.removeOwner env fd owner true
      dsimp only
      split
      · split
        · exact (hremoved.ensureArmed env fd).mono fun _ hf => hf.1
        · exact hremoved
      · exact hremoved
    · exact h

end ArmInv

/-! ## Reports -/

theorem core_report (bits : Mask) (g : Reg) :
    (Reg.report bits g).core = (g.fd, g.owner, g.interest, g.oneshot, g.disarmed || g.oneshot) := by
  unfold Reg.report Reg.core
  cases hedge : g.edge <;> cases honeshot : g.oneshot <;> simp [honeshot]

theorem reported_watches (ready : List (Nat × Mask × Nat)) (s : State) :
    (s.reported ready).watches = s.watches :=
  same_foldl (F := State.watches) (f := fun (s : State) (p : Nat × Mask × Nat) =>
    s.setReg p.2.2 (Reg.report p.2.1))
    (fun _ _ => rfl) ready s

theorem reported_rest (ready : List (Nat × Mask × Nat)) (s : State) :
    (s.reported ready).nextReg = s.nextReg ∧ (s.reported ready).selector = s.selector ∧
      (s.reported ready).waits = s.waits ∧ (s.reported ready).fdWaits = s.fdWaits := by
  have hrest := same_foldl (F := fun s : State => (s.nextReg, s.selector, s.waits, s.fdWaits))
    (f := fun (s : State) (p : Nat × Mask × Nat) => s.setReg p.2.2 (Reg.report p.2.1))
      (fun _ _ => rfl) ready s
  exact ⟨congrArg Prod.fst hrest, congrArg (fun x => x.2.1) hrest, congrArg (fun x => x.2.2.1) hrest,
    congrArg (fun x => x.2.2.2) hrest⟩

theorem reported_of_notMem {ready : List (Nat × Mask × Nat)} (h : ∀ p ∈ ready, p.2.2 ≠ r) :
    (s.reported ready).regs r = s.regs r := by
  induction ready generalizing s with
  | nil => rfl
  | cons p rest ih =>
    have hne : r ≠ p.2.2 := fun heq => h p mem_cons_self heq.symm
    refine (ih fun q hq => h q (mem_cons_of_mem p hq)).trans ?_
    simp only [State.setReg, update_of_ne hne]

theorem reported_core (ready : List (Nat × Mask × Nat)) (s : State) (r : Nat) :
    ((s.reported ready).regs r).core = ((s.regs r).fd, (s.regs r).owner,
      (s.regs r).interest, (s.regs r).oneshot,
      (s.regs r).disarmed || ((s.regs r).oneshot && ready.any fun p => p.2.2 = r)) := by
  induction ready generalizing s with
  | nil => simp [State.reported, Reg.core]
  | cons p rest ih =>
    refine (ih (s.setReg p.2.2 (Reg.report p.2.1))).trans ?_
    by_cases heq : p.2.2 = r
    · subst heq
      have hcore := core_report p.2.1 (s.regs p.2.2)
      unfold Reg.core at hcore
      simp only [Prod.mk.injEq] at hcore
      cases honeshot : (s.regs p.2.2).oneshot <;> simp [State.setReg, hcore, honeshot]
    · have hne : r ≠ p.2.2 := fun h => heq h.symm
      simp [State.setReg, update_of_ne hne, heq]

theorem mem_cap {maxevents : Option Nat} {l : List (Nat × Mask × Nat)} {p : Nat × Mask × Nat}
    (h : p ∈ State.cap maxevents l) : p ∈ l := by
  unfold State.cap at h
  split at h
  · exact h
  · exact mem_of_mem_take h

theorem ready_spec {p : Nat × Mask × Nat} (h : p ∈ s.ready specs) :
    (p.1, p.2.2) ∈ specs ∧ (s.regs p.2.2).disarmed = false ∧ p.2.1.Nonempty := by
  refine ⟨(mem_ready h).1, ?_⟩
  unfold State.ready at h
  rcases mem_filterMap.1 h with ⟨q, _, hq⟩
  split at hq
  · cases hq
  · dsimp only at hq
    split at hq
    · rename_i hready
      cases hq
      exact hready
    · cases hq

namespace ArmInv

variable {D : Nat → Prop}

theorem reported (h : ArmInv D s) (ready : List (Nat × Mask × Nat))
    (hhomed : ∀ p ∈ ready, (s.regs p.2.2).fd = p.1) :
    ArmInv (fun fd => D fd ∨ ∃ p ∈ ready, p.1 = fd ∧ (s.regs p.2.2).oneshot = true) (s.reported ready) := by
  have hrest := reported_rest ready s
  have hfd : ∀ r, ((s.reported ready).regs r).fd = (s.regs r).fd :=
    fun r => congrArg Prod.fst (reported_core ready s r)
  refine ⟨?_, ?_, ?_⟩
  · intro fd w hw r hr
    rw [reported_watches] at hw
    rw [hrest.1, hfd]
    exact h.home fd w hw r hr
  · intro wt hwt
    rw [hrest.2.2.1] at hwt
    refine ⟨fun p hp => ?_, (h.waits wt hwt).2⟩
    rw [hrest.1, hfd]
    exact (h.waits wt hwt).1 p hp
  · intro fd hnot
    refine (h.armed fd fun hD => hnot (.inl hD)).congr rfl (by rw [reported_watches]) ?_
    intro w hw r hr
    rw [reported_core]
    -- a registration of this descriptor that is oneshot has not been reported
    have hfalse : ((s.regs r).oneshot && ready.any fun p => p.2.2 = r) = false := by
      by_contra htrue
      rw [Bool.not_eq_false, Bool.and_eq_true, List.any_eq_true] at htrue
      rcases htrue with ⟨honeshot, p, hp, heq⟩
      have heq : p.2.2 = r := of_decide_eq_true heq
      apply hnot
      refine .inr ⟨p, hp, ?_, heq ▸ honeshot⟩
      rw [← hhomed p hp, heq]
      exact (h.home fd w hw r hr).2
    rw [hfalse, Bool.or_false]
    rfl

theorem rearmed (env : Env) (ready : List (Nat × Mask × Nat))
    (h : ArmInv (fun fd => ∃ p ∈ ready, p.1 = fd ∧ (s.regs p.2.2).oneshot = true) s) :
    ArmInv (fun _ => False)
      (ready.foldl (fun s p => if (s.regs p.2.2).oneshot then s.ensureArmed env p.1 else s) s) := by
  induction ready generalizing s with
  | nil =>
    refine h.mono fun fd hfd => ?_
    rcases hfd with ⟨p, hp, _⟩
    exact absurd hp not_mem_nil
  | cons p rest ih =>
    apply ih
    dsimp only
    by_cases honeshot : (s.regs p.2.2).oneshot = true
    · rw [if_pos honeshot]
      refine (h.ensureArmed env p.1).mono fun fd hfd => ?_
      rcases hfd with ⟨⟨q, hq, hqfd, hqone⟩, hne⟩
      rcases mem_cons.1 hq with heq | hq
      · exact absurd (heq ▸ hqfd.symm) hne
      · have hcore := base_core (touches_ensureArmed s env p.1).base q.2.2
        exact ⟨q, hq, hqfd, (core_fields hcore).2.2.1.trans hqone⟩
    · rw [if_neg honeshot]
      refine h.mono fun fd hfd => ?_
      rcases hfd with ⟨q, hq, hqfd, hqone⟩
      rcases mem_cons.1 hq with heq | hq
      · exact absurd (heq ▸ hqone) honeshot
      · exact ⟨q, hq, hqfd, hqone⟩

theorem leave (h : ArmInv D s) (hsel : s.selector = true)
    (hD : ∀ fd, D fd → s.fdWaits fd ≤ (specs.countP fun p => p.1 = fd) ∧
      0 < specs.countP fun p => p.1 = fd) :
    ArmInv (fun _ => False) (s.leave specs) := by
  unfold State.leave
  rw [if_pos hsel]
  clear hsel
  induction specs generalizing s D with
  | nil =>
    refine h.mono fun fd hfd => ?_
    exact absurd (hD fd hfd).2 (lt_irrefl 0)
  | cons p rest ih =>
    have hcount : ArmInv D { s with fdWaits := update s.fdWaits p.1 (s.fdWaits p.1 - 1) } := h.congr rfl
    have hself : update s.fdWaits p.1 (s.fdWaits p.1 - 1) p.1 = s.fdWaits p.1 - 1 :=
      update_self p.1 _ s.fdWaits
    rw [foldl_cons]
    dsimp only
    -- what is left for the other turns
    have hrest : ∀ fd, D fd → fd ≠ p.1 → s.fdWaits fd ≤ (rest.countP fun q => q.1 = fd) ∧
        0 < rest.countP fun q => q.1 = fd := by
      intro fd hfd hne
      have hboth := hD fd hfd
      rwa [countP_cons_of_neg (by simpa using Ne.symm hne)] at hboth
    by_cases hzero : s.fdWaits p.1 - 1 = 0
    · rw [if_pos (hself.trans hzero)]
      apply ih (hcount.disarm p.1)
      intro fd hfd
      rw [fdWaits_disarm]
      dsimp only
      rw [update_of_ne hfd.2]
      exact hrest fd hfd.1 hfd.2
    · rw [if_neg fun h => hzero (hself.symm.trans h)]
      apply ih hcount
      intro fd hfd
      by_cases heq : fd = p.1
      · subst heq
        have hboth := hD p.1 hfd
        rw [countP_cons_of_pos (by simp)] at hboth
        dsimp only
        rw [update_self]
        omega
      · dsimp only
        rw [update_of_ne heq]
        exact hrest fd hfd heq

theorem leave_same (h : ArmInv (fun _ => False) s) (specs : List (Nat × Nat)) :
    ArmInv (fun _ => False) (s.leave specs) := by
  by_cases hsel : s.selector = true
  · exact h.leave hsel fun _ hfd => hfd.elim
  · unfold State.leave
    rw [if_neg hsel]
    exact h

theorem returns (h : ArmInv (fun _ => False) s) (env : Env)
    (hhomed : Homed specs s) (maxevents : Option Nat)
    (hreleases : s.selector = true → ∀ p ∈ State.cap maxevents (s.ready specs),
      (s.regs p.2.2).oneshot = true →
      (s.fdWaits p.1 ≤ specs.countP fun q => q.1 = p.1) ∨
        match s.watches p.1 with
        | none => True
        | some w =>
          w.handle.isSome = true → (s.reported (State.cap maxevents (s.ready specs))).wanted w =
            s.wanted w) :
    ArmInv (fun _ => False) ((s.commit env (State.cap maxevents (s.ready specs))).leave specs) := by
  generalize hl : State.cap maxevents (s.ready specs) = l at hreleases
  have hmem : ∀ p ∈ l, (p.1, p.2.2) ∈ specs := fun p hp => (ready_spec (mem_cap (hl ▸ hp))).1
  have hreported := h.reported l fun p hp => (hhomed _ (hmem p hp)).2
  have hrest := reported_rest l s
  unfold State.commit
  change ArmInv (fun _ => False) (State.leave
      (if (s.reported l).selector = true then s.reported l else _) specs)
  by_cases hsel : s.selector = true
  · rw [if_pos (hrest.2.1.trans hsel)]
    -- where others wait too, the registrations that are left ask for the same bits
    have hfew : ArmInv (fun fd => ∃ p ∈ l, p.1 = fd ∧ s.fdWaits p.1 ≤ specs.countP fun q =>
        q.1 = p.1) (s.reported l) := by
      refine ⟨hreported.home, hreported.waits, ?_⟩
      intro fd hnot
      by_cases hone : ∃ p ∈ l, p.1 = fd ∧ (s.regs p.2.2).oneshot = true
      · rcases hone with ⟨p, hp, hfd, honeshot⟩
        rcases hreleases hsel p hp honeshot with hle | hsame
        · exact absurd ⟨p, hp, hfd, hle⟩ hnot
        · intro w hw hhandle
          rw [reported_watches, ← hfd] at hw
          rw [hw] at hsame
          rw [hsame hhandle]
          exact h.armed p.1 id w hw hhandle
      · exact hreported.armed fd fun hD => hD.elim id hone
    apply hfew.leave (hrest.2.1.trans hsel)
    rintro fd ⟨p, hp, hfd, hle⟩
    rw [hrest.2.2.2, ← hfd]
    refine ⟨hle, countP_pos_iff.2 ⟨(p.1, p.2.2), hmem p hp, by simp⟩⟩
  · have hsel' : ¬ (s.reported l).selector = true := fun htrue => hsel (hrest.2.1.symm.trans htrue)
    rw [if_neg hsel']
    apply leave_same
    apply rearmed
    refine hreported.mono fun fd hfd => ?_
    rcases hfd with hfalse | ⟨p, hp, hpfd, honeshot⟩
    · exact hfalse.elim
    · exact ⟨p, hp, hpfd, (congrArg (fun x => x.2.2.2.1) (reported_core l s p.2.2)).trans honeshot⟩

end ArmInv

/-! ## A call of `wait` -/

/-- From one state to the next nothing is reported. -/
structure Quiet (s t : State) : Prop where
  base : t.base = s.base
  inv : ∀ {D : Nat → Prop}, ArmInv D s → ArmInv D t

theorem Quiet.face (h : s'.face = s.face) : Quiet s s' :=
  ⟨(Prod.mk.inj h).1, fun hinv => hinv.congr h⟩

theorem Quiet.trans {s'' : State} (h : Quiet s s') (h' : Quiet s' s'') : Quiet s s'' :=
  ⟨h'.base.trans h.base, fun hinv => h'.inv (h.inv hinv)⟩

theorem Quiet.ensureArmed (s : State) (env : Env) (fd : Nat) : Quiet s (s.ensureArmed env fd) :=
  ⟨(touches_ensureArmed s env fd).base, fun hinv => (hinv.ensureArmed env fd).mono fun _ hf => hf.1⟩

theorem Quiet.foldl {α : Type*} {f : State → α → State} (hf : ∀ s x, Quiet s (f s x))
    (xs : List α) (s : State) :
    Quiet s (xs.foldl f s) := by
  induction xs generalizing s with
  | nil => exact Quiet.face rfl
  | cons x xs ih => exact (hf s x).trans (ih (f s x))

theorem quiet_revalidate (s : State) (env : Env) (specs : List (Nat × Nat)) : Quiet s (State.revalidate env
    { s with fdWaits := fun fd => s.fdWaits fd + specs.countP fun p => p.1 = fd } [] specs) := by
  apply Quiet.face
  exact congrArg Prod.snd <| shape_revalidate env specs { s with fdWaits := fun fd => s.fdWaits fd + specs.countP fun p => p.1 = fd } []

theorem quiet_probeEmpty (s : State) (env : Env) (specs : List (Nat × Nat)) :
    Quiet s (specs.foldl (State.probeEmptyAt env) s) :=
  Quiet.face (congrArg Prod.snd (same_foldl (F := State.shape) (shape_probeEmptyAt env) specs s))

theorem quiet_rearm (s : State) (env : Env) (specs : List (Nat × Nat)) : Quiet s (specs.foldl (fun s p =>
    if (s.regs p.2).disarmed || (s.regs p.2).latched then s else s.ensureArmed env p.1) s) := by
  apply Quiet.foldl
  intro s p
  split
  · exact Quiet.face rfl
  · exact Quiet.ensureArmed s env p.1

theorem collectingArmed_quiet {t : State} (h : s.collectingArmed env specs = some t) : Quiet s t := by
  unfold State.collectingArmed at h
  dsimp only at h
  split at h
  · cases h
  · split at h
    · split at h
      · cases h
        exact quiet_rearm s env specs
      · cases h
    · cases h

theorem collecting_quiet {t : State} {timeout : Timeout}
    (h : s.collecting env specs timeout = some t) : Quiet s t := by
  have hfirst := quiet_revalidate s env specs
  unfold State.collecting at h
  dsimp only at h
  split at h
  · cases h
    exact hfirst
  · split at h
    · split at h
      · cases h
        exact hfirst.trans (quiet_probeEmpty _ env specs)
      · cases h
    · exact hfirst.trans (collectingArmed_quiet h)

/-- A call returns what it has collected, or it returns nothing, or raises, or parks. -/
def Ends (s : State) (env : Env) (specs : List (Nat × Nat)) (maxevents : Option Nat)
    (collected : Option State)
    (s' : State) : Prop :=
  (∃ t, collected = some t ∧ s' = (t.commit env (State.cap maxevents (t.ready specs))).leave specs) ∨
    (collected = none ∧ ∃ t, Quiet s t ∧ (s' = t.leave specs ∨ ∃ wt : Wait, wt.specs = specs ∧
      s' = t.park wt))

theorem Ends.after {collected : Option State} {maxevents : Option Nat} {s'' : State} (hq : Quiet s s')
    (h : Ends s' env specs maxevents collected s'') : Ends s env specs maxevents collected s'' := by
  rcases h with hsome | ⟨hnone, t, ht, hend⟩
  · exact .inl hsome
  · exact .inr ⟨hnone, t, hq.trans ht, hend⟩

theorem ends_finish (s : State) (env : Env) (specs : List (Nat × Nat))
    (maxevents : Option Nat) (otherwise : State)
    (ho : otherwise = s.leave specs ∨ ∃ wt : Wait, wt.specs = specs ∧ otherwise = s.park wt) :
    Ends s env specs maxevents (if s.ready specs ≠ [] then some s else none)
      (match s.finish? env specs maxevents with
      | some t => t
      | none => otherwise) := by
  unfold State.finish?
  by_cases hready : s.ready specs ≠ []
  · rw [if_pos hready, if_pos hready]
    exact .inl ⟨s, rfl, rfl⟩
  · rw [if_neg hready, if_neg hready]
    refine .inr ⟨rfl, s, Quiet.face rfl, ?_⟩
    by_cases hfailing : s.failing specs = true
    · rw [if_pos hfailing]
      exact .inl rfl
    · rw [if_neg hfailing]
      exact ho

theorem ends_armed (s : State) (env : Env) (specs : List (Nat × Nat)) (timeout : Timeout)
    (maxevents : Option Nat) :
    Ends s env specs maxevents (s.collectingArmed env specs)
      (if s.failing specs then s.leave specs else s.waitArmed env specs timeout maxevents) := by
  unfold State.collectingArmed State.waitArmed
  dsimp only
  split
  · exact .inr ⟨rfl, s, Quiet.face rfl, .inl rfl⟩
  · split
    · apply Ends.after (quiet_rearm s env specs)
      apply ends_finish
      exact .inr ⟨_, rfl, rfl⟩
    · exact .inr ⟨rfl, s, Quiet.face rfl, .inr ⟨_, rfl, rfl⟩⟩

theorem ends_wait (s : State) (env : Env) (specs : List (Nat × Nat)) (timeout : Timeout)
    (maxevents : Option Nat) :
    Ends s env specs maxevents (s.collecting env specs timeout) (s.wait env specs timeout maxevents) := by
  apply Ends.after (quiet_revalidate s env specs)
  unfold State.collecting State.wait
  dsimp only
  split
  · exact .inl ⟨_, rfl, rfl⟩
  · cases timeout with
    | zero =>
      apply Ends.after (quiet_probeEmpty _ env specs)
      apply ends_finish
      exact .inl rfl
    | forever => exact ends_armed _ env specs .forever maxevents
    | after => exact ends_armed _ env specs .after maxevents

theorem base_removeOwner (s : State) (env : Env) (fd owner : Nat) (keepShell : Bool) :
    (s.removeOwner env fd owner keepShell).base = s.base := by
  unfold State.removeOwner
  split
  · rfl
  · rename_i w hw
    dsimp only
    split
    · have hdisarmed :=
        (touches_disarm (s.setWatch fd { w with regs := w.regs.filter fun r =>
          (s.regs r).owner ≠ owner }) fd).base
      split
      · split
        · exact hdisarmed
        · exact hdisarmed
      · exact hdisarmed
    · exact (touches_noteInterest (s.setWatch fd _) env fd).base

theorem base_sweepShells (s : State) (keep : List Nat) : (s.sweepShells keep).base = s.base := by
  refine same_foldl (F := State.base) (fun s fd => ?_) s.fds s
  unfold State.sweepShell
  split
  · rfl
  · split
    · exact (touches_disarm s fd).base
    · rfl

theorem base_finishEphemeral (s : State) (env : Env) (owner : Nat) :
    (s.finishEphemeral env owner).base = s.base := by
  refine same_foldl (F := State.base) (fun s fd => ?_) s.fds s
  unfold State.finishEphemeralAt
  split
  · rfl
  · split
    · have hremoved := base_removeOwner s env fd owner true
      dsimp only
      split
      · split
        · exact (touches_ensureArmed _ env fd).base.trans hremoved
        · exact hremoved
      · exact hremoved
    · rfl

theorem base_leave (s : State) (specs : List (Nat × Nat)) : (s.leave specs).base = s.base := by
  unfold State.leave
  split
  · refine same_foldl (F := State.base) (fun s p => ?_) specs s
    dsimp only
    split
    · exact (touches_disarm { s with fdWaits := update s.fdWaits p.1 (s.fdWaits p.1 - 1) } p.1).base
    · rfl
  · rfl

theorem base_commit (s : State) (env : Env) (l : List (Nat × Mask × Nat)) :
    (s.commit env l).base = (s.reported l).base := by
  unfold State.commit
  change State.base (if (s.reported l).selector = true then s.reported l else _) = _
  split
  · rfl
  · refine same_foldl (F := State.base) (fun s p => ?_) l (s.reported l)
    split
    · exact (touches_ensureArmed s env p.1).base
    · rfl

theorem core_returns (s : State) (env : Env) (specs : List (Nat × Nat))
    (l : List (Nat × Mask × Nat)) (r : Nat) :
    (((s.commit env l).leave specs).regs r).core = ((s.regs r).fd, (s.regs r).owner, (s.regs r).interest,
      (s.regs r).oneshot, (s.regs r).disarmed || ((s.regs r).oneshot && l.any fun p => p.2.2 = r)) :=
  (base_core ((base_leave _ specs).trans (base_commit s env l)) r).trans (reported_core l s r)

/-! ## Steps -/

theorem items_nodup {rs : List Nat} {timeout : Timeout} {maxevents : Option Nat}
    (h : s.Items (.wait rs timeout maxevents env)) :
      ((rs.map fun r => ((s.regs r).fd, r)).map Prod.fst).Nodup := by
  rw [List.map_map]
  exact h

namespace ArmInv

theorem endWait (h : ArmInv (fun _ => False) s) (j : Nat) : ArmInv (fun _ => False) (s.endWait j) := by
  refine ⟨h.home, ?_, h.armed⟩
  intro wt hwt
  rcases mem_or_eq_of_mem_set hwt with hwt | heq
  · exact h.waits wt hwt
  · cases heq

theorem park (h : ArmInv (fun _ => False) s) {wt : Wait} (hhomed : Homed wt.specs s)
    (hnodup : (wt.specs.map Prod.fst).Nodup) :
    ArmInv (fun _ => False) (s.park wt) := by
  refine ⟨h.home, ?_, h.armed⟩
  intro wt' hwt'
  rcases mem_append.1 hwt' with hwt' | hwt'
  · exact h.waits wt' hwt'
  · cases mem_singleton.1 hwt'
    exact ⟨hhomed, hnodup⟩

theorem again (h : ArmInv (fun _ => False) s) (env : Env) {j : Nat} {wt : Wait}
    (hj : s.waits[j]? = some (some wt))
    (stays : Bool) (hreleases : ∀ t specs maxevents, s.collectingAgain wt = some (t, specs, maxevents) →
      t.selector = true → ∀ p ∈ State.cap maxevents (t.ready specs), (t.regs p.2.2).oneshot = true →
        (t.fdWaits p.1 ≤ specs.countP fun q => q.1 = p.1) ∨
          match t.watches p.1 with
          | none => True
          | some w => w.handle.isSome = true →
              (t.reported (State.cap maxevents (t.ready specs))).wanted w = t.wanted w) :
    ArmInv (fun _ => False) (s.again env j wt stays) := by
  have hwt : Homed wt.specs s ∧ (wt.specs.map Prod.fst).Nodup := h.waits wt (mem_of_getElem? hj)
  unfold State.again State.finish?
  by_cases hready : s.ready wt.specs ≠ []
  · rw [if_pos hready]
    exact (h.returns env hwt.1 wt.maxevents (hreleases s wt.specs wt.maxevents (if_pos hready))).endWait j
  · rw [if_neg hready]
    by_cases hfailing : s.failing wt.specs = true
    · rw [if_pos hfailing]
      exact (h.leave_same wt.specs).endWait j
    · rw [if_neg hfailing]
      dsimp only
      split
      · refine ⟨h.home, ?_, h.armed⟩
        intro wt' hwt'
        rcases mem_or_eq_of_mem_set hwt' with hwt' | heq
        · exact h.waits wt' hwt'
        · cases heq
          exact hwt
      · exact (h.leave_same wt.specs).endWait j

/-- The arms stay exact, as no arm outlives its mask. -/
theorem step {a : Action} (h : ArmInv (fun _ => False) s) (hitems : s.Items a) (hreleases : s.Releases a)
    (hs : Poll.step s a = some s') : ArmInv (fun _ => False) s' := by
  cases a with
  | register g env =>
    cases hs
    exact h.addReg env _
  | modify fd owner interest edge oneshot env =>
    cases hs
    exact h.modify env fd owner interest edge oneshot
  | unregister fd owner env =>
    cases hs
    exact h.removeOwner env fd owner false
  | sweepShells keep =>
    cases hs
    exact h.sweepShells keep
  | finishEphemeral owner env =>
    cases hs
    exact h.finishEphemeral env owner
  | wait rs timeout maxevents env =>
    simp only [Poll.step] at hs
    split at hs
    · rename_i hrs
      cases hs
      split
      · exact h
      · rename_i hempty
        have hhomed := EdgeInv.homed rs hrs
        have hnodup := items_nodup hitems
        simp only [State.Releases, State.report?, hempty] at hreleases
        rcases ends_wait s env (rs.map fun r => ((s.regs r).fd, r)) timeout maxevents with
          ⟨t, ht, heq⟩ | ⟨_, t, hquiet, heq | ⟨wt, hspecs, heq⟩⟩
        · rw [heq]
          have hquiet := collecting_quiet ht
          rw [ht] at hreleases
          exact (hquiet.inv h).returns env (hhomed.base hquiet.base) maxevents hreleases
        · rw [heq]
          exact (hquiet.inv h).leave_same _
        · rw [heq]
          exact (hquiet.inv h).park (hspecs ▸ hhomed.base hquiet.base) (hspecs ▸ hnodup)
    · cases hs
  | wake j env =>
    simp only [Poll.step] at hs
    split at hs
    · rename_i wt hj
      split at hs
      · cases hs
        apply h.again env hj true
        intro t specs maxevents hc
        simp only [State.Releases, State.report?, hj, hc] at hreleases
        exact hreleases
      · cases hs
    · cases hs
  | expire j env =>
    simp only [Poll.step] at hs
    split at hs
    · rename_i wt hj
      split at hs
      · cases hs
        apply h.again env hj false
        intro t specs maxevents hc
        simp only [State.Releases, State.report?, hj, hc] at hreleases
        exact hreleases
      · cases hs
    · cases hs
  | throw j =>
    simp only [Poll.step] at hs
    split at hs
    · cases hs
      exact (h.leave_same _).endWait j
    · cases hs
  | deliver k d env =>
    cases hs
    exact h.congr (congrArg Prod.snd (shape_deliver s env k d))

end ArmInv

/-! ## What is returned -/

/-- The registrations, and the bits that are stored. -/
def State.content (s : State) : (Nat → Reg) × (Nat → Option Mask) :=
  (s.regs, fun fd => (s.watches fd).map Watch.stored)

theorem content_setWatch {v : Watch} (h : s.watches fd = some w) (hstored : v.stored = w.stored) :
    (s.setWatch fd v).content = s.content := by
  refine Prod.ext rfl (funext fun fd' => ?_)
  by_cases heq : fd' = fd
  · subst heq
    simp [State.content, State.setWatch, h, hstored]
  · simp [State.content, State.setWatch, heq]

theorem content_disarm (s : State) (fd : Nat) : (s.disarm fd).content = s.content := by
  unfold State.disarm
  split
  · rfl
  · rename_i w hw
    split
    · exact content_setWatch hw rfl
    · rfl

theorem content_ensureArmed (h : s.selector = false) (env : Env) (fd : Nat) :
    (s.ensureArmed env fd).content = s.content := by
  have harm : ∀ (s : State) (mask : Mask), s.selector = false →
      (s.arm env fd mask).content = s.content := by
    intro s mask hsel
    unfold State.arm
    split
    · rfl
    · rename_i w hw
      simp only [hsel, false_eq_true, if_false]
      exact content_setWatch hw rfl
  unfold State.ensureArmed
  split
  · rfl
  · split
    · exact content_disarm s fd
    · split
      · rfl
      · have hsel : (s.disarm fd).selector = false := (base_selector (touches_disarm s fd).base).trans h
        exact (harm _ _ hsel).trans (content_disarm s fd)

theorem content_rearm (h : s.selector = false) (env : Env) (l : List (Nat × Mask × Nat)) :
    (l.foldl (fun s p => if (s.regs p.2.2).oneshot then s.ensureArmed env p.1 else s) s).content =
      s.content := by
  induction l generalizing s with
  | nil => rfl
  | cons p l ih =>
    rw [foldl_cons]
    split
    · have hsel : (s.ensureArmed env p.1).selector = false :=
        (base_selector (touches_ensureArmed s env p.1).base).trans h
      exact (ih hsel).trans (content_ensureArmed h env p.1)
    · exact ih h

theorem content_returns (s : State) (env : Env) (specs : List (Nat × Nat)) (l : List (Nat × Mask × Nat)) :
    ((s.commit env l).leave specs).content = (s.reported l).content := by
  have hleave : ∀ s : State, (s.leave specs).content = s.content := by
    intro s
    unfold State.leave
    split
    · refine same_foldl (F := State.content) (fun s p => ?_) specs s
      dsimp only
      split
      · exact content_disarm { s with fdWaits := update s.fdWaits p.1 (s.fdWaits p.1 - 1) } p.1
      · rfl
    · rfl
  refine (hleave _).trans ?_
  unfold State.commit
  change State.content (if (s.reported l).selector = true then s.reported l else _) = _
  split
  · rfl
  · rename_i hsel
    exact content_rearm (eq_false_iff.2 hsel) env l

theorem ready_congr {p : Nat × Mask × Nat} (hp : p ∈ s.ready specs) (hr : s'.regs p.2.2 = s.regs p.2.2)
    (hw : (s'.watches p.1).map Watch.stored = (s.watches p.1).map Watch.stored) :
      p ∈ s'.ready [(p.1, p.2.2)] := by
  rcases ready_spec hp with ⟨_, hdisarmed, hbits⟩
  rcases (mem_ready hp).2 with ⟨w, hws, heq⟩
  rw [hws] at hw
  rcases map_eq_some_iff.1 hw with ⟨w', hws', hstored⟩
  unfold State.ready
  refine mem_filterMap.2 ⟨(p.1, p.2.2), mem_singleton_self _, ?_⟩
  dsimp only
  rw [hws', hr]
  dsimp only
  rw [hstored, ← heq, if_pos ⟨hdisarmed, hbits⟩]

theorem ready_nodup (hhomed : Homed specs s) (hnodup : (specs.map Prod.fst).Nodup) {t : State} :
    ((t.ready specs).map fun p => p.2.2).Nodup := by
  have hsnd : (specs.map Prod.snd).Nodup := by
    apply (List.Nodup.of_map Prod.fst hnodup).map_on
    intro p hp q hq heq
    have hfst : p.1 = q.1 := by
      rw [← (hhomed p hp).2, ← (hhomed q hq).2, heq]
    exact Prod.ext hfst heq
  refine List.Nodup.sublist ?_ hsnd
  unfold State.ready
  rw [map_filterMap]
  clear hnodup hsnd hhomed
  induction specs with
  | nil => exact .refl _
  | cons p rest ih =>
    rw [map_cons, filterMap_cons]
    split
    · exact ih.cons p.2
    · rename_i r hr
      have heq : r = p.2 := by
        rcases map_eq_some_iff.1 hr with ⟨q, hq, rfl⟩
        split at hq
        · cases hq
        · dsimp only at hq
          split at hq
          · cases hq
            rfl
          · cases hq
      rw [heq]
      exact ih.cons_cons p.2

theorem report_spec {a : Action} {t : State} {maxevents : Option Nat}
    (h : ArmInv (fun _ => False) s) (hitems : s.Items a)
    (hs : step s a = some s') (hr : s.report? a = some (t, specs, maxevents)) :
    Quiet s t ∧ Homed specs s ∧ (specs.map Prod.fst).Nodup ∧ ∃ env,
      s'.regs = ((t.commit env (State.cap maxevents (t.ready specs))).leave specs).regs ∧
      s'.watches = ((t.commit env (State.cap maxevents (t.ready specs))).leave specs).watches ∧
      s'.nextReg = ((t.commit env (State.cap maxevents (t.ready specs))).leave specs).nextReg := by
  have hagain : ∀ (env : Env) (j : Nat) (wt : Wait) (stays : Bool), s.waits[j]? = some (some wt) →
      s' = s.again env j wt stays → s.collectingAgain wt = some (t, specs, maxevents) →
      Quiet s t ∧ Homed specs s ∧ (specs.map Prod.fst).Nodup ∧ ∃ env,
        s'.regs = ((t.commit env (State.cap maxevents (t.ready specs))).leave specs).regs ∧
        s'.watches = ((t.commit env (State.cap maxevents (t.ready specs))).leave specs).watches ∧
        s'.nextReg = ((t.commit env (State.cap maxevents (t.ready specs))).leave specs).nextReg := by
    intro env j wt stays hj heq hc
    have hwt := h.waits wt (mem_of_getElem? hj)
    unfold State.collectingAgain at hc
    split at hc
    · rename_i hready
      cases hc
      refine ⟨Quiet.face rfl, hwt.1, hwt.2, env, ?_⟩
      rw [heq]
      unfold State.again State.finish?
      rw [if_pos hready]
      exact ⟨rfl, rfl, rfl⟩
    · cases hc
  cases a with
  | wait rs timeout limit env =>
    simp only [step] at hs
    split at hs
    · rename_i hrs
      cases hs
      simp only [State.report?] at hr
      split at hr
      · cases hr
      · rename_i hempty
        cases hc : s.collecting env (rs.map fun r => ((s.regs r).fd, r)) timeout with
        | none =>
          rw [hc] at hr
          cases hr
        | some t' =>
          rw [hc] at hr
          cases hr
          rw [if_neg hempty]
          refine ⟨collecting_quiet hc, EdgeInv.homed rs hrs, items_nodup hitems, env, ?_⟩
          rcases ends_wait s env (rs.map fun r => ((s.regs r).fd, r)) timeout maxevents with
            ⟨t₂, ht₂, heq⟩ | ⟨hnone, _⟩
          · cases hc.symm.trans ht₂
            rw [heq]
            exact ⟨rfl, rfl, rfl⟩
          · cases hc.symm.trans hnone
    · cases hs
  | wake j env =>
    simp only [step] at hs
    split at hs
    · rename_i wt hj
      split at hs
      · cases hs
        simp only [State.report?, hj] at hr
        exact hagain env j wt true hj rfl hr
      · cases hs
    · cases hs
  | expire j env =>
    simp only [step] at hs
    split at hs
    · rename_i wt hj
      split at hs
      · cases hs
        simp only [State.report?, hj] at hr
        exact hagain env j wt false hj rfl hr
      · cases hs
    · cases hs
  | _ => cases hr

/-- A registration that has been made, and is disarmed. -/
def Shut (r : Nat) (s : State) : Prop :=
  r < s.nextReg ∧ (s.regs r).disarmed = true

namespace Shut

theorem base (h : Shut r s) (hbase : s'.base = s.base) : Shut r s' :=
  ⟨(base_nextReg hbase).symm ▸ h.1, (core_fields (base_core hbase r)).2.2.2.trans h.2⟩

theorem returns (h : Shut r s) (env : Env) (specs : List (Nat × Nat)) (l : List (Nat × Mask × Nat)) :
    Shut r ((s.commit env l).leave specs) := by
  have hbase : ((s.commit env l).leave specs).base = (s.reported l).base :=
    (base_leave _ specs).trans (base_commit s env l)
  refine Shut.base ⟨(reported_rest l s).1.symm ▸ h.1, ?_⟩ hbase
  have hflag : ((s.reported l).regs r).disarmed =
      ((s.regs r).disarmed || ((s.regs r).oneshot && l.any fun p => p.2.2 = r)) :=
    congrArg (fun x => x.2.2.2.2) (reported_core l s r)
  rw [hflag, h.2, Bool.true_or]

theorem addReg (h : Shut r s) (env : Env) (g : Reg) : Shut r (s.addReg env g) := by
  have hnew : Shut r { s with regs := update s.regs s.nextReg g, nextReg := s.nextReg + 1 } := by
    refine ⟨Nat.lt_succ_of_lt h.1, ?_⟩
    dsimp only
    rw [update_of_ne (ne_of_lt h.1)]
    exact h.2
  unfold State.addReg
  dsimp only
  refine Shut.base ?_ (touches_noteInterest _ env g.fd).base
  unfold State.ensureWatch
  split <;> exact hnew

theorem modify (h : Shut r s) (env : Env) (fd owner : Nat) (interest : Mask) (edge oneshot : Bool)
    (hm : s.regOf? fd owner ≠ some r) : Shut r (s.modify env fd owner interest edge oneshot) := by
  unfold State.modify
  cases hreg : s.regOf? fd owner with
  | none => exact h
  | some q =>
    have hne : r ≠ q := fun heq => hm (heq ▸ hreg)
    have hset : ∀ f, Shut r (s.setReg q f) := by
      intro f
      refine ⟨h.1, ?_⟩
      simpa only [State.setReg, update_of_ne hne] using h.2
    exact (hset _).base (touches_noteInterest _ env fd).base

theorem again (h : Shut r s) (env : Env) (j : Nat) (wt : Wait) (stays : Bool) :
    Shut r (s.again env j wt stays) := by
  have hleave : Shut r (s.leave wt.specs) := h.base (base_leave s wt.specs)
  unfold State.again State.finish?
  by_cases hready : s.ready wt.specs ≠ []
  · rw [if_pos hready]
    exact h.returns env wt.specs _
  · rw [if_neg hready]
    by_cases hfailing : s.failing wt.specs = true
    · rw [if_pos hfailing]
      exact hleave
    · rw [if_neg hfailing]
      dsimp only
      split
      · exact h
      · exact hleave

theorem wait (h : Shut r s) (env : Env) (specs : List (Nat × Nat)) (timeout : Timeout)
    (maxevents : Option Nat) :
    Shut r (s.wait env specs timeout maxevents) := by
  rcases ends_wait s env specs timeout maxevents with ⟨t, ht, heq⟩ | ⟨_, t, hquiet, heq | ⟨wt, _, heq⟩⟩
  · rw [heq]
    exact (h.base (collecting_quiet ht).base).returns env specs _
  · rw [heq]
    exact (h.base hquiet.base).base (base_leave t specs)
  · have ht : Shut r t := h.base hquiet.base
    rw [heq]
    exact ht

theorem step {a : Action} (h : Shut r s) (hm : ¬ s.Modifies a r) (hs : Poll.step s a = some s') :
    Shut r s' := by
  cases a with
  | register g env =>
    cases hs
    exact h.addReg env _
  | modify fd owner interest edge oneshot env =>
    cases hs
    exact h.modify env fd owner interest edge oneshot hm
  | unregister fd owner env =>
    cases hs
    exact h.base (base_removeOwner s env fd owner false)
  | sweepShells keep =>
    cases hs
    exact h.base (base_sweepShells s keep)
  | finishEphemeral owner env =>
    cases hs
    exact h.base (base_finishEphemeral s env owner)
  | wait rs timeout maxevents env =>
    simp only [Poll.step] at hs
    split at hs
    · cases hs
      split
      · exact h
      · exact h.wait env _ timeout maxevents
    · cases hs
  | wake j env =>
    simp only [Poll.step] at hs
    split at hs
    · split at hs
      · cases hs
        exact h.again env j _ true
      · cases hs
    · cases hs
  | expire j env =>
    simp only [Poll.step] at hs
    split at hs
    · split at hs
      · cases hs
        exact h.again env j _ false
      · cases hs
    · cases hs
  | throw j =>
    simp only [Poll.step] at hs
    split at hs
    · rename_i wt _
      cases hs
      have hleave : Shut r (s.leave wt.specs) := h.base (base_leave s wt.specs)
      exact hleave
    · cases hs
  | deliver k d env =>
    cases hs
    exact h.base (congrArg (fun x => x.2.1) (shape_deliver s env k d))

theorem exec {as : List Action} (h : Shut r s) (hm : Along Poll.step (fun s x => ¬ s.Modifies x r) s as)
    (he : Transition.exec Poll.step s as = some s') : Shut r s' := by
  induction as generalizing s with
  | nil =>
    cases he
    exact h
  | cons a as ih =>
    cases hs : Poll.step s a with
    | none => simp [Transition.exec, hs] at he
    | some s₁ =>
      simp only [Transition.exec, hs] at he
      rcases hm.next hs with ⟨hma, hm⟩
      exact ih (h.step hma hs) hm he

end Shut

theorem bits_subset (stored : Mask) (g : Reg) : Reg.bits stored g ⊆ g.interest := by
  unfold Reg.bits
  split
  · exact Finset.sdiff_subset.trans Finset.inter_subset_right
  · exact Finset.inter_subset_right

theorem step_polls {a : Action} (h : ArmInv (fun _ => False) s) (hitems : s.Items a)
    (hs : step s a = some s') :
    Polls s a s' := by
  cases hr : s.report? a with
  | none =>
    have hresults : s.results a = [] := by
      unfold State.results
      rw [hr]
    have hfound : s.found a = [] := by
      unfold State.found
      rw [hr]
    refine ⟨?_, ?_, ?_, fun r hlt hd hm => (Shut.step ⟨hlt, hd⟩ hm hs).2, ?_⟩
    · rw [hresults]
      exact fun p hp => absurd hp not_mem_nil
    · rw [hresults]
      exact nodup_nil
    · rw [hresults]
      exact fun p hp => absurd hp not_mem_nil
    · rw [hfound]
      exact fun p hp => absurd hp not_mem_nil
  | some x =>
    rcases x with ⟨t, specs, maxevents⟩
    rcases report_spec h hitems hs hr with ⟨hquiet, hhomed, hnodup, env, hregs, hwatches, _⟩
    have hresults : s.results a = State.cap maxevents (t.ready specs) := by
      unfold State.results
      rw [hr]
    have hfound : s.found a = t.ready specs := by
      unfold State.found
      rw [hr]
    have hcore := fun r => core_fields (base_core hquiet.base r)
    have hsub : (State.cap maxevents (t.ready specs)).Sublist (t.ready specs) := by
      unfold State.cap
      split
      · exact .refl _
      · exact take_sublist _ _
    have honce : ((t.ready specs).map fun p => p.2.2).Nodup := ready_nodup hhomed hnodup
    refine ⟨?_, ?_, ?_, fun r hlt hd hm => (Shut.step ⟨hlt, hd⟩ hm hs).2, ?_⟩
    · intro p hp
      rw [hresults] at hp
      have hready := mem_cap hp
      rcases (mem_ready hready).2 with ⟨w, _, heq⟩
      refine ⟨?_, Finset.nonempty_iff_ne_empty.1 (ready_spec hready).2.2⟩
      rw [heq, ← (hcore p.2.2).2.1]
      exact bits_subset w.stored (t.regs p.2.2)
    · rw [hresults]
      exact List.Nodup.sublist (hsub.map _) honce
    · intro p hp
      rw [hresults] at hp
      refine ⟨(hcore p.2.2).2.2.2.symm.trans (ready_spec (mem_cap hp)).2.1, ?_⟩
      intro honeshot
      have hafter :=
        congrArg (fun x => x.2.2.2.2) (core_returns t env specs
          (State.cap maxevents (t.ready specs)) p.2.2)
      have hany : ((State.cap maxevents (t.ready specs)).any fun q => decide (q.2.2 = p.2.2)) = true :=
        any_eq_true.2 ⟨p, hp, by simp⟩
      rw [hregs]
      refine hafter.trans ?_
      rw [(hcore p.2.2).2.2.1, honeshot, hany, Bool.and_true, Bool.or_true]
    · intro p hp hnot
      rw [hfound] at hp
      rw [hresults] at hnot
      -- no report has to do with its registration
      have hother : ∀ q ∈ State.cap maxevents (t.ready specs), q.2.2 ≠ p.2.2 := by
        intro q hq heq
        have hsame : q = p := inj_on_of_nodup_map honce (mem_cap hq) hp heq
        exact hnot (hsame ▸ hq)
      have hcontent := content_returns t env specs (State.cap maxevents (t.ready specs))
      apply ready_congr hp
      · rw [hregs]
        exact (congrFun (Prod.mk.inj hcontent).1 p.2.2).trans (reported_of_notMem hother)
      · rw [hwatches]
        have hstored := congrFun (Prod.mk.inj hcontent).2 p.1
        rw [hstored, reported_watches]

/-! ## Runs -/

/-- A registration that has been reported is not reported again before it is modified, if it is
oneshot. -/
def OnceBetween (start : State) (run : List Action) : Prop :=
  ∀ pre a mid b post s s₁ s₂, run = pre ++ a :: (mid ++ b :: post) → exec step start pre = some s →
    step s a = some s₁ →
    exec step s₁ mid = some s₂ → ∀ p ∈ s.results a, (s.regs p.2.2).oneshot = true →
      (step s₂ b).isSome = true →
      (∃ q ∈ s₂.results b, q.2.2 = p.2.2) → ¬ Along step (fun s x => ¬ s.Modifies x p.2.2) s₁ mid

theorem inv_exec {as : List Action} (h : ArmInv (fun _ => False) s)
    (ha : Along step (fun s a => s.Items a ∧ s.Releases a) s as) (he : exec step s as = some s') :
    ArmInv (fun _ => False) s' := by
  have halways : Always step (ArmInv fun _ => False) s as :=
    always_of_along (fun _ hI => hI) (fun _ _ _ hI hc hs => hI.step hc.1 hc.2 hs) as s h ha
  exact halways.exec he

theorem shut_of_reported {a : Action} (h : ArmInv (fun _ => False) s) (hitems : s.Items a)
    (hs : step s a = some s')
    {p : Nat × Mask × Nat} (hp : p ∈ s.results a) (honeshot : (s.regs p.2.2).oneshot = true) :
      Shut p.2.2 s' := by
  refine ⟨?_, ((step_polls h hitems hs).disarms p hp).2 honeshot⟩
  unfold State.results at hp
  cases hr : s.report? a with
  | none =>
    rw [hr] at hp
    exact absurd hp not_mem_nil
  | some x =>
    rcases x with ⟨t, specs, maxevents⟩
    rw [hr] at hp
    rcases report_spec h hitems hs hr with ⟨hquiet, hhomed, _, env, _, _, hnext⟩
    have hlt : p.2.2 < s.nextReg := (hhomed _ (ready_spec (mem_cap hp)).1).1
    have hsame : s'.nextReg = s.nextReg := by
      calc
        s'.nextReg = ((t.commit env (State.cap maxevents (t.ready specs))).leave specs).nextReg := hnext
        _ = (t.reported (State.cap maxevents (t.ready specs))).nextReg :=
              base_nextReg ((base_leave _ specs).trans (base_commit t env _))
        _ = t.nextReg := (reported_rest _ t).1
        _ = s.nextReg := base_nextReg hquiet.base
    rw [hsame]
    exact hlt

theorem once_between {start : State} {run : List Action} (h : ArmInv (fun _ => False) start)
    (hrun : Along step (fun s a => s.Items a ∧ s.Releases a) start run) : OnceBetween start run := by
  intro pre a mid b post s s₁ s₂ heq hpre ha hmid p hp honeshot hb hq hm
  subst heq
  rcases hrun.split hpre with ⟨hbefore, hrest⟩
  have hs := inv_exec h hbefore hpre
  rcases hrest.next ha with ⟨hca, hrest⟩
  rcases hrest.split hmid with ⟨hbetween, hrest⟩
  have hs₂ := inv_exec (hs.step hca.1 hca.2 ha) hbetween hmid
  -- it is disarmed after the first report, up to the second one
  have hshut : Shut p.2.2 s₂ := (shut_of_reported hs hca.1 ha hp honeshot).exec hm hmid
  rcases isSome_iff_exists.1 hb with ⟨s₃, hb⟩
  rcases hq with ⟨q, hq, hsame⟩
  have harmed := ((step_polls hs₂ (hrest.next hb).1.1 hb).disarms q hq).1
  rw [hsame, hshut.2] at harmed
  cases harmed

theorem ArmInv.init (selector : Bool) : ArmInv (fun _ => False) (init selector) := by
  refine ⟨fun _ _ hw => (nomatch hw), ?_, fun _ _ _ hw => (nomatch hw)⟩
  simp [Poll.init]

/-- In every run in which no call of `wait` on the selector leaves an arm that is for more than what
others ask for, the arms are exact, and what a call reports is as asked for, once, and not lost. -/
theorem arms_exact (selector : Bool) (run : List Action)
    (h : Along step (fun s a => s.Items a ∧ s.Releases a) (init selector) run) :
    Always step ArmsExact (init selector) run ∧
      Along step (fun s a => ∀ s', step s a = some s' → Polls s a s') (init selector) run ∧
      OnceBetween (init selector) run := by
  refine ⟨?_, ?_, once_between (ArmInv.init selector) h⟩
  · exact always_of_along (I := ArmInv fun _ => False) (fun s hI fd => hI.armed fd not_false)
      (fun _ _ _ hI hc hs => hI.step hc.1 hc.2 hs) run _ (ArmInv.init selector) h
  · exact along_of_along (I := ArmInv fun _ => False) (fun _ _ hI hc _ hs => step_polls hI hc.1 hs)
      (fun _ _ _ hI hc hs => hI.step hc.1 hc.2 hs) run _ (ArmInv.init selector) h

/-- Descriptor 5, once: one owner waits to read, and another one to write. -/
def onceReg (owner bit : Nat) : Reg := { owner, interest := {bit}, oneshot := true, fd := 5 }

/-- The only wait on the descriptor returns, on the selector. -/
theorem arms_exact_alone :
    Played step (fun s as => Always step ArmsExact s as ∧
      Along step (fun s a => ∀ s', step s a = some s' → Polls s a s') s as ∧ OnceBetween s as) (init true)
      [.register (onceReg 1 pollIn) {}, .wait [0] .forever none {}, .deliver 1 readyIn {}, .wake 0 {},
        .wait [0] .zero none readable] :=
  ⟨arms_exact true _ (by decide +kernel), by decide +kernel⟩

/-- Two waits on the descriptor.  The one that returns leaves the arm for both bits, of which one is
asked for. -/
def sharedRun : List Action :=
  [.register (onceReg 1 pollIn) {}, .register (onceReg 2 2) {}, .wait [0] .forever none {},
    .wait [1] .forever none {},
    .deliver 2 readyIn {}, .wake 0 {}]

theorem wide_arm_left : ¬ Always step ArmsExact (init true) sharedRun := by
  intro h
  have hfive : Always step (fun s => ∀ w ∈ s.watches 5, w.handle.isSome = true →
      w.armedMask = s.wanted w) (init true)
      sharedRun := h.mono fun s hs w hw harm => (hs 5 w hw harm).1
  exact absurd hfive (by decide +kernel)

end Pytealet.Poll
