import Pytealet.Poll.Table

/-!
# Edges — what is owed to an edge-triggered registration

A delivery that carries a bit of an edge-triggered registration owes it a report.  What is owed is
among the bits that the next call of `wait` reports as long as deliveries do not find the bit in
`seen`, where the last report has left it: `_on_delivery` looks only at bits that are not in `seen`.
A bit is taken out of `seen`, and out of what is stored, when a probe finds that the descriptor is
not ready any more.
-/

namespace Pytealet.Poll

open Lib Lib.Transition Function List Option

namespace State

/-- A delivery does not carry a bit of an edge-triggered registration that it has seen, and the last
one of an arm carries none of its bits.  In a call of `wait`, what is owed is still ready when it is
probed. -/
def Fresh (s : State) : Action → Prop
  | .deliver k d env =>
    ∀ (a : Arm) (w : Watch) (value : Mask), s.arms[k]? = some a → s.watches a.fd = some w →
      w.generation = a.generation → d.exception = none → d.value = some value →
      ∀ r ∈ w.regs, (s.regs r).edge = true → (s.regs r).disarmed = false →
        if d.more then ((s.checkPri env a.fd value).1 ∩ (s.regs r).interest) ∩ (s.regs r).seen = ∅
        else value ∩ (s.regs r).interest = ∅
  | .wait _ _ _ env =>
    ∀ (k fd : Nat) (mask got : Mask), env.probe k fd mask = some got →
      ∀ w : Watch, s.watches fd = some w → ∀ r ∈ w.regs, (s.regs r).owed ∩ mask ⊆ got
  | _ => True

/-- Nothing is owed to these registrations. -/
def Settled (s : State) (specs : List (Nat × Nat)) : Prop :=
  ∀ p ∈ specs, ∀ w : Watch, s.watches p.1 = some w → p.2 ∈ w.regs → (s.regs p.2).owed = ∅

/-- A call of `wait` without `maxevents` reports all that is owed to its registrations, and one that
parks finds nothing that is. -/
def Reports (s : State) : Action → Prop
  | .wait rs timeout none env =>
    ∀ s', step s (.wait rs timeout none env) = some s' → s'.Settled (rs.map fun r => ((s.regs r).fd, r))
  | .wake j env =>
    ∀ (wt : Wait) (s' : State), s.waits[j]? = some (some wt) → wt.maxevents = none →
      step s (.wake j env) = some s' → s'.Settled wt.specs
  | .expire j env =>
    ∀ (wt : Wait) (s' : State), s.waits[j]? = some (some wt) → wt.maxevents = none →
      step s (.expire j env) = some s' → s'.Settled wt.specs
  | _ => True

end State

variable {s s' s'' : State} {env : Env} {fd r : Nat} {w w' : Watch} {specs : List (Nat × Nat)}

/-! ## One registration -/

theorem owed_report (bits : Mask) (g : Reg) : (Reg.report bits g).owed = if g.edge then
    g.owed \ bits else g.owed := by
  unfold Reg.report
  dsimp only
  split <;> split <;> rfl

theorem owed_report_subset (bits : Mask) (g : Reg) : (Reg.report bits g).owed ⊆ g.owed := by
  rw [owed_report]
  split
  · exact Finset.sdiff_subset
  · exact Finset.Subset.refl _

theorem fd_report (bits : Mask) (g : Reg) : (Reg.report bits g).fd = g.fd := by
  unfold Reg.report
  dsimp only
  split <;> split <;> rfl

structure RegOk (fd : Nat) (stored : Mask) (g : Reg) : Prop where
  home : g.fd = fd
  idle : g.edge = false ∨ g.disarmed = true → g.owed = ∅
  owed : g.owed ⊆ (stored ∩ g.interest) \ g.seen

namespace RegOk

variable {stored value : Mask} {g : Reg}

theorem mono (h : RegOk fd stored g) (value : Mask) : RegOk fd (stored ∪ value) g := by
  refine ⟨h.home, h.idle, fun b hb => ?_⟩
  have hmem := h.owed hb
  simp only [Finset.mem_sdiff, Finset.mem_inter, Finset.mem_union] at hmem ⊢
  exact ⟨⟨.inl hmem.1.1, hmem.1.2⟩, hmem.2⟩

theorem bits (h : RegOk fd stored g) : g.owed ⊆ Reg.bits stored g := by
  cases hedge : g.edge with
  | true =>
    simpa [Reg.bits, hedge] using h.owed
  | false =>
    rw [h.idle (.inl hedge)]
    exact Finset.empty_subset _

theorem refresh {mask got : Mask} (h : RegOk fd stored g) (hgot : g.owed ∩ mask ⊆ got) :
    RegOk fd ((stored \ mask) ∪ (got ∩ mask))
      { g with seen := g.seen ∩ ((stored \ mask) ∪ (got ∩ mask)) } := by
  refine ⟨h.home, h.idle, fun b hb => ?_⟩
  have hmem := h.owed hb
  simp only [Finset.mem_sdiff, Finset.mem_inter, Finset.mem_union] at hmem ⊢
  refine ⟨⟨?_, hmem.1.2⟩, fun hseen => hmem.2 hseen.1⟩
  by_cases hm : b ∈ mask
  · exact .inr ⟨hgot (Finset.mem_inter.2 ⟨hb, hm⟩), hm⟩
  · exact .inl ⟨hmem.1.1, hm⟩

theorem take (h : RegOk fd stored g) (newBits : Mask)
    (hfresh : g.edge = true → g.disarmed = false → (value ∩ g.interest) ∩ g.seen = ∅) :
    RegOk fd (stored ∪ value) (Reg.take newBits value (stored ∪ value) g) := by
  unfold Reg.take
  by_cases hdis : g.disarmed = true
  · rw [if_pos hdis]
    exact h.mono value
  · rw [if_neg hdis]
    dsimp only
    have hdis' : g.disarmed = false := by simpa using hdis
    by_cases hedge : g.edge = true
    · rw [if_pos hedge]
      refine ⟨h.home, fun hidle => ?_, fun b hb => ?_⟩
      · rcases hidle with hidle | hidle
        · exact absurd (hedge.symm.trans hidle) (by simp)
        · exact absurd hidle hdis
      · -- whether or not bits are taken out of `seen`, it does not grow
        have hseen : ∀ seen' : Mask, seen' ⊆ g.seen → b ∈ g.owed ∪ value ∩ g.interest →
            b ∈ ((stored ∪ value) ∩ g.interest) \ (seen' ∩ (stored ∪ value)) := by
          intro seen' hsub hmem
          simp only [Finset.mem_sdiff, Finset.mem_inter, Finset.mem_union] at hmem ⊢
          rcases hmem with howed | ⟨hvalue, hinterest⟩
          · have hold := h.owed howed
            simp only [Finset.mem_sdiff, Finset.mem_inter] at hold
            exact ⟨⟨.inl hold.1.1, hold.1.2⟩, fun hs => hold.2 (hsub hs.1)⟩
          · refine ⟨⟨.inr hvalue, hinterest⟩, fun hs => ?_⟩
            have hempty := hfresh hedge hdis'
            have hin : b ∈ (value ∩ g.interest) ∩ g.seen :=
              Finset.mem_inter.2 ⟨Finset.mem_inter.2 ⟨hvalue, hinterest⟩, hsub hs.1⟩
            rw [hempty] at hin
            exact absurd hin (Finset.notMem_empty b)
        refine hseen _ ?_ hb
        split
        · exact Finset.sdiff_subset
        · exact Finset.Subset.refl _
    · rw [if_neg hedge]
      have hedge' : g.edge = false := by simpa using hedge
      refine ⟨h.home, fun _ => h.idle (.inl hedge'), ?_⟩
      show g.owed ⊆ _
      rw [h.idle (.inl hedge')]
      exact Finset.empty_subset _

theorem report {bits : Mask} (h : RegOk fd stored g) (hbits : g.owed ⊆ bits) :
    RegOk fd stored (Reg.report bits g) ∧ (Reg.report bits g).owed = ∅ := by
  have hnone : (Reg.report bits g).owed = ∅ := by
    rw [owed_report]
    split
    · exact Finset.sdiff_eq_empty_iff_subset.2 hbits
    · rename_i hedge
      exact h.idle (.inl (by simpa using hedge))
  refine ⟨⟨(fd_report bits g).trans h.home, fun _ => hnone, ?_⟩, hnone⟩
  rw [hnone]
  exact Finset.empty_subset _

end RegOk

/-! ## The invariant -/

structure RegInv (s : State) : Prop where
  backend : s.selector = false
  fresh : ∀ (fd : Nat) (w : Watch), s.watches fd = some w → ∀ r ∈ w.regs, r < s.nextReg
  regs : ∀ (fd : Nat) (w : Watch), s.watches fd = some w → ∀ r ∈ w.regs, RegOk fd w.stored (s.regs r)
  specs : ∀ (j : Nat) (wt : Wait), s.waits[j]? = some (some wt) → ∀ p ∈ wt.specs,
    p.2 < s.nextReg ∧ (s.regs p.2).fd = p.1

structure EdgeInv (s : State) : Prop extends RegInv s where
  waiting : ∀ (j : Nat) (wt : Wait), s.waits[j]? = some (some wt) → wt.sleeping = false → wt.woken = false →
    s.Settled wt.specs

theorem EdgeInv.disjoint (h : EdgeInv s) {fd' : Nat} {v : Watch} (hw : s.watches fd = some w)
    (hv : s.watches fd' = some v) (hne : fd' ≠ fd) : ∀ r ∈ v.regs, r ∉ w.regs := by
  intro r hr hmem
  exact hne ((h.regs fd' v hv r hr).home.symm.trans (h.regs fd w hw r hmem).home)

theorem EdgeInv.init : EdgeInv (init false) where
  backend := rfl
  fresh := nofun
  regs := nofun
  specs := nofun
  waiting := nofun

/-- A step that takes no delivery: nothing more is owed, and what is owed stays reportable. -/
structure Keeps (s s' : State) : Prop where
  selector : s'.selector = s.selector
  nextReg : s'.nextReg = s.nextReg
  homes : ∀ r, (s'.regs r).fd = (s.regs r).fd
  watches : ∀ (fd : Nat) (w' : Watch), s'.watches fd = some w' → ∃ w, s.watches fd = some w ∧ ∀ r ∈ w'.regs,
    r ∈ w.regs ∧ (s'.regs r).owed ⊆ (s.regs r).owed ∧
      (RegOk fd w.stored (s.regs r) → RegOk fd w'.stored (s'.regs r))
  waits : ∀ (j : Nat) (wt' : Wait), s'.waits[j]? = some (some wt') → ∃ wt, s.waits[j]? = some (some wt) ∧
    wt.specs = wt'.specs ∧ (wt'.sleeping = false → wt'.woken = false →
      wt.sleeping = false ∧ wt.woken = false)

namespace Keeps

theorem refl (s : State) : Keeps s s :=
  ⟨rfl, rfl, fun _ => rfl, fun _ w hw => ⟨w, hw, fun _ hr => ⟨hr, Finset.Subset.refl _, id⟩⟩,
    fun _ wt hj => ⟨wt, hj, rfl, fun hsleep hwoken => ⟨hsleep, hwoken⟩⟩⟩

theorem trans (h : Keeps s s') (h' : Keeps s' s'') : Keeps s s'' := by
  refine ⟨h'.selector.trans h.selector, h'.nextReg.trans h.nextReg, fun r => (h'.homes r).trans (h.homes r),
    fun fd w'' hw'' => ?_, fun j wt'' hj => ?_⟩
  · rcases h'.watches fd w'' hw'' with ⟨w', hw', hregs'⟩
    rcases h.watches fd w' hw' with ⟨w, hw, hregs⟩
    refine ⟨w, hw, fun r hr => ?_⟩
    rcases hregs' r hr with ⟨hr', howed', hok'⟩
    rcases hregs r hr' with ⟨hr, howed, hok⟩
    exact ⟨hr, howed'.trans howed, fun h => hok' (hok h)⟩
  · rcases h'.waits j wt'' hj with ⟨wt', hj', hspecs', hwoken'⟩
    rcases h.waits j wt' hj' with ⟨wt, hj, hspecs, hwoken⟩
    refine ⟨wt, hj, hspecs.trans hspecs', fun hs hw => ?_⟩
    rcases hwoken' hs hw with ⟨hs', hw'⟩
    exact hwoken hs' hw'

theorem settled (h : Keeps s s') (hs : s.Settled specs) : s'.Settled specs := by
  intro p hp w' hw' hr
  rcases h.watches p.1 w' hw' with ⟨w, hw, hregs⟩
  rcases hregs p.2 hr with ⟨hr, howed, -⟩
  rw [hs p hp w hw hr] at howed
  exact Finset.subset_empty.1 howed

theorem inv (h : Keeps s s') (hI : EdgeInv s) : EdgeInv s' := by
  refine ⟨⟨h.selector.trans hI.backend, fun fd w' hw' r hr => ?_, fun fd w' hw' r hr => ?_,
    fun j wt' hj p hp => ?_⟩,
    fun j wt' hj hsleep hwoken => ?_⟩
  · rcases h.watches fd w' hw' with ⟨w, hw, hregs⟩
    rw [h.nextReg]
    exact hI.fresh fd w hw r (hregs r hr).1
  · rcases h.watches fd w' hw' with ⟨w, hw, hregs⟩
    rcases hregs r hr with ⟨hr, -, hok⟩
    exact hok (hI.regs fd w hw r hr)
  · rcases h.waits j wt' hj with ⟨wt, hj, hspecs, -⟩
    rw [h.nextReg, h.homes]
    exact hI.specs j wt hj p (hspecs ▸ hp)
  · rcases h.waits j wt' hj with ⟨wt, hj, hspecs, hold⟩
    rcases hold hsleep hwoken with ⟨hsleep, hwoken⟩
    exact h.settled (hspecs ▸ hI.waiting j wt hj hsleep hwoken)

theorem ofRegs {regs : Nat → Reg} (hfd : ∀ r, (regs r).fd = (s.regs r).fd)
    (howed : ∀ r, (regs r).owed ⊆ (s.regs r).owed)
    (hok : ∀ (fd : Nat) (w : Watch) (r : Nat), s.watches fd = some w → r ∈ w.regs →
      RegOk fd w.stored (s.regs r) → RegOk fd w.stored (regs r)) : Keeps s { s with regs := regs } :=
  ⟨rfl, rfl, hfd, fun fd w hw => ⟨w, hw, fun r hr => ⟨hr, howed r, hok fd w r hw hr⟩⟩,
    fun _ wt hj => ⟨wt, hj, rfl, fun hsleep hwoken => ⟨hsleep, hwoken⟩⟩⟩

theorem setReg {f : Reg → Reg} (r : Nat) (hfd : ∀ g, (f g).fd = g.fd) (howed : ∀ g, (f g).owed ⊆ g.owed)
    (hok : ∀ (fd : Nat) (w : Watch), s.watches fd = some w → r ∈ w.regs →
      RegOk fd w.stored (s.regs r) → RegOk fd w.stored (f (s.regs r))) : Keeps s (s.setReg r f) := by
  have hcases : ∀ q, update s.regs r (f (s.regs r)) q = if q = r then f (s.regs r) else s.regs q := by
    intro q
    rw [update_apply]
  refine ofRegs (fun q => ?_) (fun q => ?_) (fun fd w q hw hq hk => ?_)
  · rw [hcases]
    split
    · rename_i heq
      rw [hfd, heq]
    · rfl
  · rw [hcases]
    split
    · rename_i heq
      rw [heq]
      exact howed _
    · exact Finset.Subset.refl _
  · rw [hcases]
    split
    · rename_i heq
      subst heq
      exact hok fd w hw hq hk
    · exact hk

theorem setWatch {v : Watch} (hw : s.watches fd = some w) (hregs : ∀ r ∈ v.regs, r ∈ w.regs)
    (hstored : v.stored = w.stored) : Keeps s (s.setWatch fd v) := by
  refine ⟨rfl, rfl, fun _ => rfl, fun fd' u hu => ?_, fun _ wt hj => ⟨wt, hj, rfl, fun hs hw => ⟨hs, hw⟩⟩⟩
  rcases watches_setWatch hu with ⟨rfl, rfl⟩ | ⟨-, hu⟩
  · refine ⟨w, hw, fun r hr => ⟨hregs r hr, Finset.Subset.refl _, fun hok => ?_⟩⟩
    rw [hstored]
    exact hok
  · exact ⟨u, hu, fun r hr => ⟨hr, Finset.Subset.refl _, id⟩⟩

theorem pulse (s : State) : Keeps s s.pulse := by
  refine ⟨rfl, rfl, fun _ => rfl, fun _ w hw => ⟨w, hw, fun _ hr => ⟨hr, Finset.Subset.refl _, id⟩⟩,
    fun j wt' hj => ?_⟩
  have hj' : (s.waits.map (Option.map fun w => { w with woken := true }))[j]? = some (some wt') := hj
  rw [List.getElem?_map] at hj'
  rcases map_eq_some_iff.1 hj' with ⟨o, ho, heq⟩
  rcases map_eq_some_iff.1 heq with ⟨wt, rfl, rfl⟩
  exact ⟨wt, ho, rfl, fun _ hwoken => absurd hwoken (by simp)⟩

theorem popWatch (s : State) (fd : Nat) : Keeps s (s.popWatch fd) := by
  exact ⟨rfl, rfl, fun _ => rfl, fun fd' w hw =>
    ⟨w, (watches_popWatch hw).2, fun r hr => ⟨hr, Finset.Subset.refl _, id⟩⟩,
    fun _ wt hj => ⟨wt, hj, rfl, fun hs hw => ⟨hs, hw⟩⟩⟩

theorem ofSame (hsel : s'.selector = s.selector) (hnext : s'.nextReg = s.nextReg) (hregs : s'.regs = s.regs)
    (hwatches : s'.watches = s.watches) (hwaits : s'.waits = s.waits) : Keeps s s' := by
  refine ⟨hsel, hnext, fun r => by rw [hregs], fun fd w hw => ?_, fun j wt hj => ?_⟩
  · rw [hwatches] at hw
    rw [hregs]
    exact ⟨w, hw, fun r hr => ⟨hr, Finset.Subset.refl _, id⟩⟩
  · rw [hwaits] at hj
    exact ⟨wt, hj, rfl, fun hs hw => ⟨hs, hw⟩⟩

theorem foldl {α : Type*} {P : State → Prop} {f : State → α → State} (hP : ∀ s s', Keeps s s' → P s → P s')
    (hf : ∀ s x, P s → Keeps s (f s x)) (xs : List α) (h : P s) : Keeps s (xs.foldl f s) := by
  induction xs generalizing s with
  | nil => exact refl s
  | cons x xs ih =>
    have hstep := hf s x h
    exact hstep.trans (ih (hP s _ hstep h))

/-! ## Arms -/

theorem disarm (s : State) (fd : Nat) : Keeps s (s.disarm fd) := by
  unfold State.disarm
  split
  · exact refl s
  · rename_i w hw
    split
    · exact setWatch hw (fun _ hr => hr) rfl
    · exact refl s

theorem arm (h : s.selector = false) (env : Env) (fd : Nat) (mask : Mask) :
    Keeps s (s.arm env fd mask) := by
  unfold State.arm
  split
  · exact refl s
  · rename_i w hw
    have hset := setWatch (v := { w with handle := some s.arms.length, armedMask := mask }) hw
        (fun _ hr => hr) rfl
    dsimp only
    have hnone : (if s.selector then env.first fd else none) = none := by
      rw [h]
      rfl
    rw [hnone]
    exact hset.trans (ofSame rfl rfl rfl rfl rfl)

theorem ensureArmed (h : s.selector = false) (env : Env) (fd : Nat) : Keeps s (s.ensureArmed env fd) := by
  unfold State.ensureArmed
  split
  · exact refl s
  · split
    · exact disarm s fd
    · split
      · exact refl s
      · have hdis := disarm s fd
        exact hdis.trans (arm (hdis.selector.trans h) env fd _)

theorem noteInterest (h : s.selector = false) (env : Env) (fd : Nat) : Keeps s (s.noteInterest env fd) := by
  have harmed := ensureArmed h env fd
  unfold State.noteInterest
  dsimp only
  split
  · exact harmed.trans (disarm _ fd)
  · exact harmed

end Keeps

/-! ## Probes -/

/-- What is owed is found ready by all probes. -/
def Truthful (env : Env) (s : State) : Prop :=
  ∀ (k fd : Nat) (mask got : Mask), env.probe k fd mask = some got →
    ∀ w : Watch, s.watches fd = some w → ∀ r ∈ w.regs, (s.regs r).owed ∩ mask ⊆ got

theorem Truthful.keeps (h : Truthful env s) (hk : Keeps s s') : Truthful env s' := by
  intro k fd mask got hprobe w' hw' r hr
  rcases hk.watches fd w' hw' with ⟨w, hw, hregs⟩
  rcases hregs r hr with ⟨hr, howed, -⟩
  exact (Finset.inter_subset_inter_right howed).trans (h k fd mask got hprobe w hw r hr)

namespace Keeps

theorem probe (h : Truthful env s) (fd : Nat) (mask : Mask) : Keeps s (s.probe env fd mask).1 ∧
    ∀ got, (s.probe env fd mask).2 = some got → ∀ w : Watch, (s.probe env fd mask).1.watches fd = some w →
      ∀ r ∈ w.regs, ((s.probe env fd mask).1.regs r).owed ∩ mask ⊆ got := by
  have hcount : Keeps s { s with probes := s.probes + 1 } := ofSame rfl rfl rfl rfl rfl
  unfold State.probe
  split
  · rename_i hmask
    refine ⟨refl s, fun got _ w _ r _ => ?_⟩
    rw [hmask]
    exact fun b hb => absurd (Finset.mem_inter.1 hb).2 (Finset.notMem_empty b)
  · dsimp only
    split
    · rename_i got hprobe
      refine ⟨hcount, fun got' hgot w hw r hr => ?_⟩
      cases hgot
      exact Finset.subset_inter (h s.probes fd mask got hprobe w hw r hr) Finset.inter_subset_right
    · rename_i w hprobe hw
      exact ⟨hcount.trans (setWatch (s := { s with probes := s.probes + 1 }) hw
        (fun _ hr => hr) rfl), nofun⟩
    · exact ⟨hcount, nofun⟩

theorem refresh {mask got : Mask} (hgot : ∀ w : Watch, s.watches fd = some w → ∀ r ∈ w.regs,
    (s.regs r).owed ∩ mask ⊆ got) (hI : EdgeInv s) : Keeps s (s.refresh fd mask got) := by
  unfold State.refresh
  split
  · exact refl s
  · rename_i w hw
    have hregs : ∀ r, (if r ∈ w.regs then { s.regs r with
        seen := (s.regs r).seen ∩ ((w.stored \ mask) ∪ (got ∩ mask)) } else s.regs r).fd =
          (s.regs r).fd := by
      intro r
      split <;> rfl
    refine ⟨rfl, rfl, hregs, fun fd' v hv => ?_, fun _ wt hj => ⟨wt, hj, rfl, fun hs hw => ⟨hs, hw⟩⟩⟩
    rcases watches_setWatch hv with ⟨rfl, rfl⟩ | ⟨hne, hv⟩
    · refine ⟨w, hw, fun r hr => ?_⟩
      have hr' : r ∈ w.regs := hr
      dsimp only
      rw [if_pos hr']
      exact ⟨hr', Finset.Subset.refl _, fun hok => hok.refresh (hgot w hw r hr')⟩
    · refine ⟨v, hv, fun r hr => ?_⟩
      dsimp only
      rw [if_neg (hI.disjoint hw hv hne r hr)]
      exact ⟨hr, Finset.Subset.refl _, id⟩

theorem revalidateLevel (h : Truthful env s) (hI : EdgeInv s) (fd : Nat) :
    Keeps s (s.revalidateLevel env fd) := by
  unfold State.revalidateLevel
  split
  · exact refl s
  · rename_i w hw
    dsimp only
    split
    · exact refl s
    · rcases probe h fd (s.levelMask w) with ⟨hprobe, hgot⟩
      split
      · exact hprobe
      · rename_i got hsome
        exact hprobe.trans (refresh (hgot got hsome) (hprobe.inv hI))

theorem revalidateEdge (h : Truthful env s) (hI : EdgeInv s) (fd r : Nat) :
    Keeps s (s.revalidateEdge env fd r) := by
  unfold State.revalidateEdge
  dsimp only
  split
  · rcases probe h fd ((s.regs r).seen ∩ (s.regs r).interest) with ⟨hprobe, hgot⟩
    split
    · exact hprobe
    · rename_i got hsome
      split
      · refine hprobe.trans (setReg r (fun _ => rfl) (fun _ => Finset.Subset.refl _) fun _ _ _ _ hok => ?_)
        exact ⟨hok.home, hok.idle, hok.owed⟩
      · rename_i hgone
        have hseen : Keeps (s.probe env fd ((s.regs r).seen ∩ (s.regs r).interest)).1
            ((s.probe env fd ((s.regs r).seen ∩ (s.regs r).interest)).1.setReg r fun g =>
              { g with seen := g.seen \ ((s.regs r).seen ∩ (s.regs r).interest) }) := by
          refine setReg r (fun _ => rfl) (fun _ => Finset.Subset.refl _) fun _ _ _ _ hok =>
            ⟨hok.home, hok.idle, ?_⟩
          intro b hb
          have hmem := hok.owed hb
          simp only [Finset.mem_sdiff] at hmem ⊢
          exact ⟨hmem.1, fun hs => hmem.2 hs.1⟩
        have hall := hprobe.trans hseen
        split
        · rename_i w hw
          refine hall.trans ?_
          refine ⟨rfl, rfl, fun _ => rfl, fun fd' v hv => ?_, fun _ wt hj =>
            ⟨wt, hj, rfl, fun hs hw => ⟨hs, hw⟩⟩⟩
          rcases watches_setWatch hv with ⟨rfl, rfl⟩ | ⟨-, hv⟩
          · refine ⟨w, hw, fun q hq => ⟨hq, Finset.Subset.refl _,
              fun hok => ⟨hok.home, hok.idle, fun b hb => ?_⟩⟩⟩
            have hmem := hok.owed hb
            have howed := (hseen.watches fd' w hw).elim fun v hv => (hv.2 q hq).2.1
            have hw' : ∃ v, (s.probe env fd' ((s.regs r).seen ∩ (s.regs r).interest)).1.watches
                fd' = some v ∧ q ∈ v.regs :=
              (hseen.watches fd' w hw).elim fun v hv => ⟨v, hv.1, (hv.2 q hq).1⟩
            rcases hw' with ⟨v, hv', hqv⟩
            simp only [Finset.mem_sdiff, Finset.mem_inter] at hmem ⊢
            refine ⟨⟨⟨hmem.1.1, fun hmask => ?_⟩, hmem.1.2⟩, hmem.2⟩
            have hmask' : b ∈ (s.regs r).seen ∩ (s.regs r).interest := Finset.mem_inter.2 hmask
            have hin := hgot got hsome v hv' q hqv (Finset.mem_inter.2 ⟨howed hb, hmask'⟩)
            exact hgone ⟨b, Finset.mem_inter.2 ⟨hin, hmask'⟩⟩
          · exact ⟨v, hv, fun q hq => ⟨hq, Finset.Subset.refl _, id⟩⟩
        · exact hall
  · exact refl s

theorem unlatch (s : State) (r : Nat) : Keeps s (s.setReg r fun g => { g with latched := false }) :=
  setReg r (fun _ => rfl) (fun _ => Finset.Subset.refl _) fun _ _ _ _ hok => ⟨hok.home, hok.idle, hok.owed⟩

theorem revalidate (specs : List (Nat × Nat)) : ∀ (s : State) (seenFds : List Nat),
    Truthful env s → EdgeInv s →
    Keeps s (State.revalidate env s seenFds specs) := by
  induction specs with
  | nil => exact fun s _ _ _ => refl s
  | cons p rest ih =>
    intro s seenFds h hI
    have hfirst := unlatch s p.2
    unfold State.revalidate
    dsimp only
    split
    · exact hfirst.trans (ih _ _ (h.keeps hfirst) (hfirst.inv hI))
    · have hsecond : Keeps s (if seenFds.contains p.1 then s.setReg p.2 fun g => { g with latched := false }
          else (s.setReg p.2 fun g => { g with latched := false }).revalidateLevel env p.1) := by
        split
        · exact hfirst
        · exact hfirst.trans (revalidateLevel (h.keeps hfirst) (hfirst.inv hI) p.1)
      have hthird := hsecond.trans (revalidateEdge (h.keeps hsecond) (hsecond.inv hI) p.1 p.2)
      exact hthird.trans (ih _ _ (h.keeps hthird) (hthird.inv hI))

theorem probeEmptyAt (h : Truthful env s) (hI : EdgeInv s) (p : Nat × Nat) :
    Keeps s (State.probeEmptyAt env s p) := by
  unfold State.probeEmptyAt
  dsimp only
  split
  · exact refl s
  · split
    · exact refl s
    · split
      · exact refl s
      · rcases probe h p.1 (s.regs p.2).interest with ⟨hprobe, hgot⟩
        split
        · exact hprobe
        · rename_i got hsome
          exact hprobe.trans (refresh (hgot got hsome) (hprobe.inv hI))

/-! ## Reports -/

/-- The reports of a list have all that is owed to their registrations. -/
def Covers (ready : List (Nat × Mask × Nat)) (s : State) : Prop :=
  ∀ p ∈ ready, ∀ (fd : Nat) (w : Watch), s.watches fd = some w → p.2.2 ∈ w.regs →
    (s.regs p.2.2).owed ⊆ p.2.1

theorem covers_keeps {ready : List (Nat × Mask × Nat)} (h : Covers ready s) (hk : Keeps s s') :
    Covers ready s' := by
  intro p hp fd w' hw' hr
  rcases hk.watches fd w' hw' with ⟨w, hw, hregs⟩
  rcases hregs p.2.2 hr with ⟨hr, howed, -⟩
  exact howed.trans (h p hp fd w hw hr)

theorem reports (ready : List (Nat × Mask × Nat)) (h : Covers ready s) :
    Keeps s (ready.foldl (fun s p => s.setReg p.2.2 (Reg.report p.2.1)) s) := by
  induction ready generalizing s with
  | nil => exact refl s
  | cons p rest ih =>
    have hstep : Keeps s (s.setReg p.2.2 (Reg.report p.2.1)) :=
      setReg p.2.2 (fd_report p.2.1) (owed_report_subset p.2.1) fun fd w hw hr hok =>
        (hok.report (h p mem_cons_self fd w hw hr)).1
    exact hstep.trans (ih (covers_keeps (fun q hq => h q (mem_cons_of_mem _ hq)) hstep))

theorem commit {ready : List (Nat × Mask × Nat)} (h : Covers ready s) (hsel : s.selector = false)
    (env : Env) :
    Keeps s (s.commit env ready) := by
  have hreports := reports ready h
  unfold State.commit
  dsimp only
  split
  · exact hreports
  · refine hreports.trans (foldl (P := fun s => s.selector = false) (fun s s' hk hs => hk.selector.trans hs)
      (fun s p hs => ?_) ready (hreports.selector.trans hsel))
    split
    · exact ensureArmed hs env p.1
    · exact refl s

theorem leave (s : State) (specs : List (Nat × Nat)) : Keeps s (s.leave specs) := by
  unfold State.leave
  split
  · refine foldl (P := fun _ => True) (fun _ _ _ _ => trivial) (fun s p _ => ?_) specs trivial
    have hcount : Keeps s { s with fdWaits := update s.fdWaits p.1 (s.fdWaits p.1 - 1) } :=
      ofSame rfl rfl rfl rfl rfl
    dsimp only
    split
    · exact hcount.trans (disarm _ p.1)
    · exact hcount
  · exact refl s

end Keeps

/-- The registrations of a call belong to their descriptors. -/
def Homed (specs : List (Nat × Nat)) (s : State) : Prop :=
  ∀ p ∈ specs, p.2 < s.nextReg ∧ (s.regs p.2).fd = p.1

theorem Homed.keeps (h : Homed specs s) (hk : Keeps s s') : Homed specs s' := by
  intro p hp
  rw [hk.nextReg, hk.homes]
  exact h p hp

theorem mem_ready {q : Nat × Mask × Nat} (h : q ∈ s.ready specs) : (q.1, q.2.2) ∈ specs ∧
    ∃ w, s.watches q.1 = some w ∧ q.2.1 = Reg.bits w.stored (s.regs q.2.2) := by
  unfold State.ready at h
  rcases mem_filterMap.1 h with ⟨p, hp, hq⟩
  split at hq
  · cases hq
  · rename_i w hw
    dsimp only at hq
    split at hq
    · cases hq
      exact ⟨hp, w, hw, rfl⟩
    · cases hq

namespace EdgeInv

theorem covers (h : EdgeInv s) (hspecs : Homed specs s) : Keeps.Covers (s.ready specs) s := by
  intro q hq fd w hw hr
  rcases mem_ready hq with ⟨hmem, w', hw', hbits⟩
  have hfd : fd = q.1 := (h.regs fd w hw q.2.2 hr).home.symm.trans (hspecs _ hmem).2
  subst hfd
  rw [hw] at hw'
  cases hw'
  rw [hbits]
  exact (h.regs q.1 w hw q.2.2 hr).bits

theorem covers_cap (h : EdgeInv s) (hspecs : Homed specs s) (maxevents : Option Nat) :
    Keeps.Covers (State.cap maxevents (s.ready specs)) s := by
  intro q hq
  refine h.covers hspecs q ?_
  unfold State.cap at hq
  split at hq
  · exact hq
  · exact mem_of_mem_take hq

theorem ready_of_owed (h : EdgeInv s) {p : Nat × Nat} (hp : p ∈ specs) (hw : s.watches p.1 = some w)
    (hr : p.2 ∈ w.regs)
    (hne : (s.regs p.2).owed ≠ ∅) : (p.1, Reg.bits w.stored (s.regs p.2), p.2) ∈ s.ready specs := by
  have hok := h.regs p.1 w hw p.2 hr
  have hdis : (s.regs p.2).disarmed = false := by
    by_contra hdis
    exact hne (hok.idle (.inr (by simpa using hdis)))
  have hbits : (Reg.bits w.stored (s.regs p.2)).Nonempty :=
    (Finset.nonempty_iff_ne_empty.2 hne).mono hok.bits
  unfold State.ready
  refine mem_filterMap.2 ⟨p, hp, ?_⟩
  rw [hw]
  dsimp only
  rw [if_pos ⟨hdis, hbits⟩]

theorem settled_of_ready (h : EdgeInv s) (hnone : s.ready specs = []) : s.Settled specs := by
  intro p hp w hw hr
  by_contra hne
  have hmem := h.ready_of_owed hp hw hr hne
  rw [hnone] at hmem
  cases hmem

theorem watches_reports (ready : List (Nat × Mask × Nat)) :
    ∀ s : State, (ready.foldl (fun s p => s.setReg p.2.2 (Reg.report p.2.1)) s).watches = s.watches := by
  induction ready with
  | nil => exact fun _ => rfl
  | cons q rest ih => exact fun s => ih (s.setReg q.2.2 (Reg.report q.2.1))

theorem settled_reports (ready : List (Nat × Mask × Nat)) (hcovers : Keeps.Covers ready s) (h : EdgeInv s)
    {q : Nat × Mask × Nat} (hq : q ∈ ready) (hw : s.watches fd = some w) (hr : q.2.2 ∈ w.regs) :
    ((ready.foldl (fun s p => s.setReg p.2.2 (Reg.report p.2.1)) s).regs q.2.2).owed = ∅ := by
  induction ready generalizing s with
  | nil => cases hq
  | cons p rest ih =>
    have hone := Keeps.reports [p] fun q hq => hcovers q (by
      rcases mem_singleton.1 hq with rfl
      exact mem_cons_self)
    have hrest := Keeps.covers_keeps (fun q hq => hcovers q (mem_cons_of_mem _ hq)) hone
    rcases mem_cons.1 hq with rfl | hq
    · -- the report itself; those after it owe no more
      have hnow : ((s.setReg q.2.2 (Reg.report q.2.1)).regs q.2.2).owed = ∅ := by
        have hself : (s.setReg q.2.2 (Reg.report q.2.1)).regs q.2.2 = Reg.report q.2.1 (s.regs q.2.2) :=
          update_self q.2.2 _ s.regs
        rw [hself]
        exact ((h.regs fd w hw q.2.2 hr).report (hcovers q mem_cons_self fd w hw hr)).2
      have hafter := Keeps.reports rest hrest
      have hsame := watches_reports rest (s.setReg q.2.2 (Reg.report q.2.1))
      have hsub := (hafter.watches fd w ((congrFun hsame fd).trans hw)).elim fun v hv => (hv.2 q.2.2 hr).2.1
      exact Finset.subset_empty.1 (hsub.trans (Finset.subset_empty.2 hnow))
    · exact ih hrest (hone.inv h) hq hw

theorem settled_commit (h : EdgeInv s) (hspecs : Homed specs s) (env : Env) :
    (s.commit env (s.ready specs)).Settled specs := by
  have hcovers := h.covers hspecs
  have hreports := Keeps.reports (s.ready specs) hcovers
  have hsettled :
      ((s.ready specs).foldl (fun s p => s.setReg p.2.2 (Reg.report p.2.1)) s).Settled specs := by
    intro p hp w hw hr
    have hw' : s.watches p.1 = some w := by
      rw [← watches_reports (s.ready specs) s]
      exact hw
    by_cases howed : (s.regs p.2).owed = ∅
    · rcases hreports.watches p.1 w hw with ⟨v, -, hregs⟩
      have hsub := (hregs p.2 hr).2.1
      rw [howed] at hsub
      exact Finset.subset_empty.1 hsub
    · exact settled_reports _ hcovers h (h.ready_of_owed hp hw' hr howed) hw' hr
  unfold State.commit
  dsimp only
  split
  · exact hsettled
  · refine (Keeps.foldl (P := fun s => s.selector = false) (fun s s' hk hs => hk.selector.trans hs)
      (fun s p hs => ?_) _ (hreports.selector.trans h.backend)).settled hsettled
    split
    · exact Keeps.ensureArmed hs env p.1
    · exact Keeps.refl s

theorem finish? (h : EdgeInv s) (hspecs : Homed specs s) {maxevents : Option Nat}
    (hs : s.finish? env specs maxevents = some s') : Keeps s s' ∧
      (maxevents = none → s'.Settled specs) := by
  unfold State.finish? at hs
  split at hs
  · cases hs
    have hcommit := Keeps.commit (h.covers_cap hspecs maxevents) h.backend env
    refine ⟨hcommit.trans (Keeps.leave _ specs), fun hnone => ?_⟩
    subst hnone
    exact (Keeps.leave _ specs).settled (h.settled_commit hspecs env)
  · rename_i hready
    split at hs
    · cases hs
      have hleave := Keeps.leave s specs
      exact ⟨hleave, fun _ => hleave.settled (h.settled_of_ready (by simpa using hready))⟩
    · cases hs

theorem settled_of_finish? (h : EdgeInv s) {maxevents : Option Nat}
    (hs : s.finish? env specs maxevents = none) :
    s.Settled specs := by
  unfold State.finish? at hs
  split at hs
  · cases hs
  · rename_i hready
    exact h.settled_of_ready (by simpa using hready)

theorem park (h : EdgeInv s) {wt : Wait} (hspecs : Homed wt.specs s) (hsettled : s.Settled wt.specs) :
    EdgeInv (s.park wt) := by
  have hcases : ∀ (j : Nat) (x : Wait), (s.waits ++ [some wt])[j]? = some (some x) →
      s.waits[j]? = some (some x) ∨ x = wt := by
    intro j x hj
    rw [List.getElem?_append] at hj
    split at hj
    · exact .inl hj
    · rw [List.getElem?_singleton] at hj
      split at hj
      · cases hj
        exact .inr rfl
      · cases hj
  refine ⟨⟨h.backend, h.fresh, h.regs, fun j x hj => ?_⟩, fun j x hj hsleep hwoken => ?_⟩
  · rcases hcases j x hj with hj | rfl
    · exact h.specs j x hj
    · exact hspecs
  · rcases hcases j x hj with hj | rfl
    · exact h.waiting j x hj hsleep hwoken
    · exact hsettled

theorem waitArmed (h : EdgeInv s) (hspecs : Homed specs s) (hsettled : s.Settled specs)
    (env : Env) (timeout : Timeout)
    (maxevents : Option Nat) : EdgeInv (s.waitArmed env specs timeout maxevents) ∧
      (maxevents = none → (s.waitArmed env specs timeout maxevents).Settled specs) := by
  unfold State.waitArmed
  split
  · have harmed : Keeps s (specs.foldl (fun s p =>
        if (s.regs p.2).disarmed || (s.regs p.2).latched then s else s.ensureArmed env p.1) s) := by
      refine Keeps.foldl (P := fun s => s.selector = false) (fun s s' hk hs => hk.selector.trans hs)
        (fun s p hs => ?_)
        specs h.backend
      split
      · exact Keeps.refl s
      · exact Keeps.ensureArmed hs env p.1
    have hI := harmed.inv h
    have hhomed := hspecs.keeps harmed
    have hset := harmed.settled hsettled
    dsimp only
    split
    · rename_i hfinish
      rcases hI.finish? hhomed hfinish with ⟨hk, hreported⟩
      exact ⟨hk.inv hI, hreported⟩
    · exact ⟨hI.park hhomed hset, fun _ => hset⟩
  · exact ⟨h.park hspecs hsettled, fun _ => hsettled⟩

theorem wait (h : EdgeInv s) (htruth : Truthful env s) (hspecs : Homed specs s) (timeout : Timeout)
    (maxevents : Option Nat) : EdgeInv (s.wait env specs timeout maxevents) ∧
      (maxevents = none → (s.wait env specs timeout maxevents).Settled specs) := by
  have hcount : Keeps s { s with fdWaits := fun fd => s.fdWaits fd + specs.countP fun p => p.1 = fd } :=
    Keeps.ofSame rfl rfl rfl rfl rfl
  have hfirst := hcount.trans (Keeps.revalidate specs _ [] (htruth.keeps hcount) (hcount.inv h))
  unfold State.wait
  dsimp only
  generalize State.revalidate env { s with fdWaits := fun fd => s.fdWaits fd + specs.countP fun p =>
    p.1 = fd } []
    specs = s₁ at hfirst ⊢
  have hI := hfirst.inv h
  have hhomed := hspecs.keeps hfirst
  split
  · have hcommit :=
      (Keeps.commit (hI.covers_cap hhomed maxevents) hI.backend env).trans (Keeps.leave _ specs)
    refine ⟨hcommit.inv hI, fun hnone => ?_⟩
    subst hnone
    exact (Keeps.leave _ specs).settled (hI.settled_commit hhomed env)
  · rename_i hready
    have hsettled := hI.settled_of_ready (by simpa using hready)
    split
    · have hprobed : Keeps s₁ (specs.foldl (State.probeEmptyAt env) s₁) :=
        Keeps.foldl (P := fun s => Truthful env s ∧ EdgeInv s)
          (fun s s' hk hs => ⟨hs.1.keeps hk, hk.inv hs.2⟩)
          (fun s p hs => Keeps.probeEmptyAt hs.1 hs.2 p) specs ⟨htruth.keeps hfirst, hI⟩
      have hI₂ := hprobed.inv hI
      split
      · rename_i hfinish
        rcases hI₂.finish? (hhomed.keeps hprobed) hfinish with ⟨hk, hreported⟩
        exact ⟨hk.inv hI₂, hreported⟩
      · have hleave := Keeps.leave (specs.foldl (State.probeEmptyAt env) s₁) specs
        exact ⟨hleave.inv hI₂, fun _ => hleave.settled (hprobed.settled hsettled)⟩
    · split
      · have hleave := Keeps.leave s₁ specs
        exact ⟨hleave.inv hI, fun _ => hleave.settled hsettled⟩
      · exact hI.waitArmed hhomed hsettled env _ maxevents

theorem endWait (s : State) (j : Nat) : Keeps s (s.endWait j) := by
  refine ⟨rfl, rfl, fun _ => rfl, fun _ w hw => ⟨w, hw, fun _ hr => ⟨hr, Finset.Subset.refl _, id⟩⟩,
    fun i wt hi => ?_⟩
  have hi' : (s.waits.set j none)[i]? = some (some wt) := hi
  rw [List.getElem?_set] at hi'
  split at hi'
  · split at hi' <;> cases hi'
  · exact ⟨wt, hi', rfl, fun hs hw => ⟨hs, hw⟩⟩

theorem again (h : EdgeInv s) {j : Nat} {wt : Wait} (hj : s.waits[j]? = some (some wt))
    (env : Env) (stays : Bool) :
    EdgeInv (s.again env j wt stays) ∧ (wt.maxevents = none →
      (s.again env j wt stays).Settled wt.specs) := by
  have hspecs : Homed wt.specs s := h.specs j wt hj
  unfold State.again
  split
  · rename_i s₁ hfinish
    rcases h.finish? hspecs hfinish with ⟨hk, hreported⟩
    have hend := endWait s₁ j
    exact ⟨hend.inv (hk.inv h), fun hnone => hend.settled (hreported hnone)⟩
  · rename_i hfinish
    have hsettled := h.settled_of_finish? hfinish
    split
    · refine ⟨⟨⟨h.backend, h.fresh, h.regs, fun i x hi => ?_⟩, fun i x hi hsleep hwoken => ?_⟩,
        fun _ => hsettled⟩
      · rw [List.getElem?_set] at hi
        split at hi
        · split at hi
          · cases hi
            exact h.specs j wt hj
          · cases hi
        · exact h.specs i x hi
      · rw [List.getElem?_set] at hi
        split at hi
        · split at hi
          · cases hi
            exact hsettled
          · cases hi
        · exact h.waiting i x hi hsleep hwoken
    · have hk := (Keeps.leave s wt.specs).trans (endWait _ j)
      exact ⟨hk.inv h, fun _ => hk.settled hsettled⟩

/-! ## Deliveries -/

theorem regs_store_of_mem (s : State) (fd : Nat) (value : Mask) (hr : r ∈ w.regs) :
    (s.store fd w value).regs r =
    Reg.take (value \ w.stored) value (w.stored ∪ value) (s.regs r) :=
  if_pos hr

theorem regs_store_of_notMem (s : State) (fd : Nat) (value : Mask) (hr : r ∉ w.regs) :
    (s.store fd w value).regs r = s.regs r :=
  if_neg hr

theorem fd_regs_store (s : State) (fd : Nat) (w : Watch) (value : Mask) (r : Nat) :
    ((s.store fd w value).regs r).fd = (s.regs r).fd := by
  by_cases hr : r ∈ w.regs
  · rw [regs_store_of_mem s fd value hr]
    unfold Reg.take
    split
    · rfl
    · dsimp only
      split <;> rfl
  · rw [regs_store_of_notMem s fd value hr]

section Store

variable {value : Mask}

theorem store (h : EdgeInv s) (hw : s.watches fd = some w)
    (hfresh : ∀ r ∈ w.regs, (s.regs r).edge = true → (s.regs r).disarmed = false →
      (value ∩ (s.regs r).interest) ∩ (s.regs r).seen = ∅) : RegInv (s.store fd w value) := by
  refine ⟨h.backend, fun fd' v hv r hr => ?_, fun fd' v hv r hr => ?_, fun j wt hj p hp => ?_⟩
  · rcases watches_setWatch hv with ⟨rfl, rfl⟩ | ⟨-, hv⟩
    · exact h.fresh fd' w hw r hr
    · exact h.fresh fd' v hv r hr
  · rcases watches_setWatch hv with ⟨rfl, rfl⟩ | ⟨hne, hv⟩
    · have hmem : r ∈ w.regs := hr
      rw [regs_store_of_mem s fd' value hmem]
      exact (h.regs fd' w hw r hmem).take _ (hfresh r hmem)
    · rw [regs_store_of_notMem s fd value (h.disjoint hw hv hne r hr)]
      exact h.regs fd' v hv r hr
  · rw [fd_regs_store]
    exact h.specs j wt hj p hp

theorem pulse (h : RegInv s) : EdgeInv s.pulse := by
  have hback : ∀ (j : Nat) (wt : Wait), s.pulse.waits[j]? = some (some wt) →
      ∃ x, s.waits[j]? = some (some x) ∧ x.specs = wt.specs ∧ wt.woken = true := by
    intro j wt hj
    have hj' : (s.waits.map (Option.map fun w => { w with woken := true }))[j]? = some (some wt) := hj
    rw [List.getElem?_map] at hj'
    rcases map_eq_some_iff.1 hj' with ⟨o, ho, heq⟩
    rcases map_eq_some_iff.1 heq with ⟨x, rfl, rfl⟩
    exact ⟨x, ho, rfl, rfl⟩
  refine ⟨⟨h.backend, h.fresh, h.regs, fun j wt hj p hp => ?_⟩, fun j wt hj _ hwoken => ?_⟩
  · rcases hback j wt hj with ⟨x, hx, hspecs, -⟩
    exact h.specs j x hx p (hspecs ▸ hp)
  · rcases hback j wt hj with ⟨-, -, -, hset⟩
    exact absurd (hset.symm.trans hwoken) (by simp)

theorem owed_of_hidden (h : RegInv (s.store fd w value))
    (hnone : ¬ (w.regs.any fun r => !((s.store fd w value).regs r).disarmed &&
      decide (Reg.bits (w.stored ∪ value) ((s.store fd w value).regs r)).Nonempty) = true)
        (hr : r ∈ w.regs) :
    ((s.store fd w value).regs r).owed = ∅ := by
  have hok := h.regs fd { w with stored := w.stored ∪ value } (watches_setWatch_self _ fd _) r hr
  by_contra hne
  have hdis : ((s.store fd w value).regs r).disarmed = false := by
    by_contra hdis
    exact hne (hok.idle (.inr (by simpa using hdis)))
  have hbits := (Finset.nonempty_iff_ne_empty.2 hne).mono hok.bits
  refine hnone (any_eq_true.2 ⟨r, hr, ?_⟩)
  rw [hdis]
  simpa using hbits

theorem absorb (h : EdgeInv s) (hw : s.watches fd = some w)
    (hfresh : ∀ r ∈ w.regs, (s.regs r).edge = true → (s.regs r).disarmed = false →
      (value ∩ (s.regs r).interest) ∩ (s.regs r).seen = ∅) : EdgeInv (s.absorb fd w value) := by
  have hstored := h.store hw hfresh
  unfold State.absorb
  dsimp only
  split
  · exact pulse hstored
  · rename_i hnone
    refine ⟨hstored, fun j wt hj hsleep hwoken p hp v hv hr => ?_⟩
    rcases watches_setWatch hv with ⟨-, rfl⟩ | ⟨hne, hv⟩
    · exact owed_of_hidden hstored hnone hr
    · rw [regs_store_of_notMem s fd value (h.disjoint hw hv hne p.2 hr)]
      exact h.waiting j wt hj hsleep hwoken p hp v hv hr

end Store

theorem deliver (h : EdgeInv s) {k : Nat} {d : Delivery} (hc : s.Fresh (.deliver k d env)) :
    EdgeInv (s.deliver env k d) := by
  unfold State.deliver
  cases ha : s.arms[k]? with
  | none => exact h
  | some a =>
    dsimp only
    cases hw : s.watches a.fd with
    | none => exact h
    | some w =>
      dsimp only
      split
      · rename_i hgen
        unfold State.onDelivery
        split
        · exact h
        · exact ((Keeps.setWatch (v := { w with error := true }) hw (fun _ hr => hr) rfl).trans
            (Keeps.pulse _)).inv h
        · exact h
        · rename_i value hexc hvalue
          have hbits := hc a w value ha hw hgen hexc hvalue
          have hcount : Keeps s { s with probes := s.probes + 1 } := Keeps.ofSame rfl rfl rfl rfl rfl
          cases hmore : d.more with
          | true =>
            rw [if_pos rfl]
            dsimp only
            have hbits' : ∀ r ∈ w.regs, (s.regs r).edge = true → (s.regs r).disarmed = false →
                ((s.checkPri env a.fd value).1 ∩ (s.regs r).interest) ∩ (s.regs r).seen = ∅ := by
              intro r hr hedge hdis
              have hone := hbits r hr hedge hdis
              rwa [hmore, if_pos rfl] at hone
            split
            · have herror := hcount.trans ((Keeps.setWatch (s := { s with probes := s.probes + 1 })
                (v := { w with error := true }) hw (fun _ hr => hr) rfl).trans (Keeps.pulse _))
              exact (herror.inv h).absorb (watches_setWatch_self _ a.fd _) hbits'
            · exact (hcount.inv h).absorb hw hbits'
          | false =>
            rw [if_neg (by simp)]
            have hnone : ∀ r ∈ w.regs, (s.regs r).edge = true → (s.regs r).disarmed = false →
                value ∩ (s.regs r).interest = ∅ := by
              intro r hr hedge hdis
              have hone := hbits r hr hedge hdis
              rwa [hmore, if_neg (by simp)] at hone
            have hsame : s.owe w value = s := by
              unfold State.owe
              have hregs : (fun r => if r ∈ w.regs ∧ (s.regs r).edge = true ∧
                  (s.regs r).disarmed = false then
                  { s.regs r with owed := (s.regs r).owed ∪ (value ∩ (s.regs r).interest) } else s.regs r) =
                  s.regs := by
                funext r
                split
                · rename_i hr
                  rw [hnone r hr.1 hr.2.1 hr.2.2]
                  exact congrArg (fun owed => { s.regs r with owed }) (sup_bot_eq _)
                · rfl
              dsimp only
              rw [hregs]
            rw [hsame]
            exact h
      · exact h

/-! ## Registrations -/

theorem setWatch (h : EdgeInv s) (fd : Nat) {v : Watch} (hfresh : ∀ r ∈ v.regs, r < s.nextReg)
    (hregs : ∀ r ∈ v.regs, RegOk fd v.stored (s.regs r))
    (hold : ∀ r ∈ v.regs, (∃ w, s.watches fd = some w ∧ r ∈ w.regs) ∨ (s.regs r).owed = ∅) :
    EdgeInv (s.setWatch fd v) := by
  refine ⟨⟨h.backend, fun fd' u hu r hr => ?_, fun fd' u hu r hr => ?_, h.specs⟩,
    fun j wt hj hsleep hwoken p hp u hu hr => ?_⟩
  · rcases watches_setWatch hu with ⟨-, rfl⟩ | ⟨-, hu⟩
    · exact hfresh r hr
    · exact h.fresh fd' u hu r hr
  · rcases watches_setWatch hu with ⟨rfl, rfl⟩ | ⟨-, hu⟩
    · exact hregs r hr
    · exact h.regs fd' u hu r hr
  · rcases watches_setWatch hu with ⟨heq, rfl⟩ | ⟨-, hu⟩
    · rcases hold p.2 hr with ⟨w, hw, hr⟩ | hnone
      · exact h.waiting j wt hj hsleep hwoken p hp w (heq ▸ hw) hr
      · exact hnone
    · exact h.waiting j wt hj hsleep hwoken p hp u hu hr

theorem addReg (h : EdgeInv s) (env : Env) {g : Reg} (hseen : g.owed = ∅) : EdgeInv (s.addReg env g) := by
  have hlater : ∀ r, r < s.nextReg → update s.regs s.nextReg g r = s.regs r :=
    fun r hr => update_of_ne (Nat.ne_of_lt hr) g s.regs
  have hreg : EdgeInv { s with regs := update s.regs s.nextReg g, nextReg := s.nextReg + 1 } := by
    refine ⟨⟨h.backend, fun fd w hw r hr => Nat.lt_succ_of_lt (h.fresh fd w hw r hr),
      fun fd w hw r hr => ?_,
      fun j wt hj p hp => ?_⟩, fun j wt hj hsleep hwoken p hp w hw hr => ?_⟩
    · show RegOk fd w.stored (update s.regs s.nextReg g r)
      rw [hlater r (h.fresh fd w hw r hr)]
      exact h.regs fd w hw r hr
    · rcases h.specs j wt hj p hp with ⟨hlt, hfd⟩
      refine ⟨Nat.lt_succ_of_lt hlt, ?_⟩
      show (update s.regs s.nextReg g p.2).fd = p.1
      rw [hlater p.2 hlt]
      exact hfd
    · show (update s.regs s.nextReg g p.2).owed = ∅
      rw [hlater p.2 (h.fresh p.1 w hw p.2 hr)]
      exact h.waiting j wt hj hsleep hwoken p hp w hw hr
  have hself : update s.regs s.nextReg g s.nextReg = g := update_self _ _ _
  unfold State.addReg
  dsimp only
  generalize hs₁ : ({ s with regs := update s.regs s.nextReg g, nextReg := s.nextReg + 1 } : State) = s₁
    at hreg ⊢
  have hnew : s₁.regs s.nextReg = g ∧ s₁.nextReg = s.nextReg + 1 := by
    subst hs₁
    exact ⟨hself, rfl⟩
  have hwatch : EdgeInv (s₁.ensureWatch g.fd).1 ∧ (s₁.ensureWatch g.fd).1.watches g.fd =
      some (s₁.ensureWatch g.fd).2 ∧
      (s₁.ensureWatch g.fd).1.regs = s₁.regs ∧ (s₁.ensureWatch g.fd).1.nextReg = s₁.nextReg := by
    unfold State.ensureWatch
    split
    · rename_i w hw
      exact ⟨hreg, hw, rfl, rfl⟩
    · refine ⟨?_, watches_setWatch_self s₁ g.fd _, rfl, rfl⟩
      have hset := hreg.setWatch g.fd (v := { id := s₁.nextWatch }) nofun nofun nofun
      refine Keeps.inv (Keeps.ofSame ?_ ?_ ?_ ?_ ?_) hset
      all_goals rfl
  rcases hwatch with ⟨hI, hw, hregs, hnext⟩
  generalize s₁.ensureWatch g.fd = q at hI hw hregs hnext ⊢
  have hmem : ∀ r ∈ (s₁.putReg q.2 s.nextReg).regs, r = s.nextReg ∨ r ∈ q.2.regs := by
    intro r hr
    have hr' : r ∈ (if q.2.regs.any fun p => (s₁.regs p).owner = (s₁.regs s.nextReg).owner then
        q.2.regs.map fun p => if (s₁.regs p).owner = (s₁.regs s.nextReg).owner then s.nextReg else p
        else q.2.regs ++ [s.nextReg]) := hr
    split at hr'
    · rcases mem_map.1 hr' with ⟨p, hp, rfl⟩
      split
      · exact .inl rfl
      · exact .inr hp
    · rcases mem_append.1 hr' with hr' | hr'
      · exact .inr hr'
      · exact .inl (mem_singleton.1 hr')
  have hput : EdgeInv (q.1.setWatch g.fd (s₁.putReg q.2 s.nextReg)) := by
    refine hI.setWatch g.fd (fun r hr => ?_) (fun r hr => ?_) fun r hr => ?_
    · rcases hmem r hr with rfl | hr
      · rw [hnext, hnew.2]
        exact Nat.lt_succ_self _
      · exact hI.fresh g.fd q.2 hw r hr
    · rcases hmem r hr with rfl | hr
      · rw [hregs, hnew.1]
        refine ⟨rfl, fun _ => hseen, ?_⟩
        rw [hseen]
        exact Finset.empty_subset _
      · exact hI.regs g.fd q.2 hw r hr
    · rcases hmem r hr with rfl | hr
      · rw [hregs, hnew.1]
        exact .inr hseen
      · exact .inl ⟨q.2, hw, hr⟩
  exact (Keeps.noteInterest hput.backend env g.fd).inv hput

theorem modify (h : EdgeInv s) (env : Env) (fd owner : Nat) (interest : Mask) (edge oneshot : Bool) :
    EdgeInv (s.modify env fd owner interest edge oneshot) := by
  unfold State.modify
  split
  · exact h
  · rename_i r _
    have hset : Keeps s (s.setReg r fun g =>
        { g with
          interest, edge, oneshot
          disarmed := false
          seen := ∅
          latched := false
          owed := if edge then g.owed ∩ interest else ∅ }) := by
      refine Keeps.setReg r (fun _ => rfl) (fun g => ?_) fun fd w _ _ hok =>
        ⟨hok.home, fun hidle => ?_, fun b hb => ?_⟩
      · show (if edge then g.owed ∩ interest else ∅) ⊆ g.owed
        split
        · exact Finset.inter_subset_left
        · exact Finset.empty_subset _
      · rcases hidle with hidle | hidle
        · have hedge : edge = false := hidle
          show (if edge then _ else ∅ : Mask) = ∅
          rw [hedge]
          rfl
        · cases hidle
      · have hb' : b ∈ (if edge then (s.regs r).owed ∩ interest else ∅ : Mask) := hb
        split at hb'
        · rcases Finset.mem_inter.1 hb' with ⟨howed, hinterest⟩
          have hmem := hok.owed howed
          simp only [Finset.mem_sdiff, Finset.mem_inter] at hmem ⊢
          exact ⟨⟨hmem.1.1, hinterest⟩, Finset.notMem_empty b⟩
        · exact absurd hb' (Finset.notMem_empty b)
    exact (hset.trans (Keeps.noteInterest (hset.selector.trans h.backend) env fd)).inv h

end EdgeInv

namespace Keeps

theorem removeOwner (h : s.selector = false) (env : Env) (fd owner : Nat) (keepShell : Bool) :
    Keeps s (s.removeOwner env fd owner keepShell) := by
  unfold State.removeOwner
  split
  · exact refl s
  · rename_i w hw
    dsimp only
    have hset := setWatch (v := { w with regs := w.regs.filter fun r => (s.regs r).owner ≠ owner }) hw
      (fun r hr => (mem_filter.1 hr).1) rfl
    split
    · have hdis := hset.trans (disarm _ fd)
      split
      · split
        · rename_i w₂ hw₂
          exact hdis.trans (setWatch hw₂ (fun _ hr => hr) rfl)
        · exact hdis
      · exact hdis.trans (popWatch _ fd)
    · exact hset.trans (noteInterest (hset.selector.trans h) env fd)

theorem sweepShells (s : State) (keep : List Nat) : Keeps s (s.sweepShells keep) := by
  refine foldl (P := fun _ => True) (fun _ _ _ _ => trivial) (fun s fd _ => ?_) s.fds trivial
  unfold State.sweepShell
  split
  · exact refl s
  · split
    · exact (disarm s fd).trans (popWatch _ fd)
    · exact refl s

theorem finishEphemeral (h : s.selector = false) (env : Env) (owner : Nat) :
    Keeps s (s.finishEphemeral env owner) := by
  refine foldl (P := fun s => s.selector = false) (fun s s' hk hs => hk.selector.trans hs)
    (fun s fd hs => ?_) s.fds h
  unfold State.finishEphemeralAt
  split
  · exact refl s
  · split
    · have hremoved := removeOwner hs env fd owner true
      dsimp only
      split
      · split
        · exact hremoved.trans (ensureArmed (hremoved.selector.trans hs) env fd)
        · exact hremoved
      · exact hremoved
    · exact refl s

end Keeps

/-! ## Runs -/

namespace EdgeInv

theorem homed (rs : List Nat) (h : (rs.all fun r => decide (r < s.nextReg)) = true) :
    Homed (rs.map fun r => ((s.regs r).fd, r)) s := by
  intro p hp
  rcases mem_map.1 hp with ⟨r, hr, rfl⟩
  exact ⟨by simpa using all_eq_true.1 h r hr, rfl⟩

theorem step {a : Action} (h : EdgeInv s) (hc : s.Fresh a) (hs : Poll.step s a = some s') : EdgeInv s' := by
  cases a with
  | register g env =>
    cases hs
    exact h.addReg env rfl
  | modify fd owner interest edge oneshot env =>
    cases hs
    exact h.modify env fd owner interest edge oneshot
  | unregister fd owner env =>
    cases hs
    exact (Keeps.removeOwner h.backend env fd owner false).inv h
  | sweepShells keep =>
    cases hs
    exact (Keeps.sweepShells s keep).inv h
  | finishEphemeral owner env =>
    cases hs
    exact (Keeps.finishEphemeral h.backend env owner).inv h
  | wait rs timeout maxevents env =>
    simp only [Poll.step] at hs
    split at hs
    · rename_i hall
      cases hs
      split
      · exact h
      · exact (h.wait hc (homed rs hall) timeout maxevents).1
    · cases hs
  | wake j env =>
    simp only [Poll.step] at hs
    split at hs
    · rename_i wt hj
      split at hs
      · cases hs
        exact (h.again hj env true).1
      · cases hs
    · cases hs
  | expire j env =>
    simp only [Poll.step] at hs
    split at hs
    · rename_i wt hj
      split at hs
      · cases hs
        exact (h.again hj env false).1
      · cases hs
    · cases hs
  | throw j =>
    simp only [Poll.step] at hs
    split at hs
    · cases hs
      exact ((Keeps.leave s _).trans (endWait _ j)).inv h
    · cases hs
  | deliver k d env =>
    cases hs
    exact h.deliver hc

theorem reports (h : EdgeInv s) {a : Action} (hc : s.Fresh a) : s.Reports a := by
  cases a with
  | wait rs timeout maxevents env =>
    cases maxevents with
    | none =>
      intro s' hs
      simp only [Poll.step] at hs
      split at hs
      · rename_i hall
        cases hs
        split
        · rename_i hempty
          intro p hp
          rw [List.isEmpty_iff.1 hempty] at hp
          cases hp
        · exact (h.wait hc (homed rs hall) timeout none).2 rfl
      · cases hs
    | some n => trivial
  | wake j env =>
    intro wt s' hj hnone hs
    simp only [Poll.step, hj] at hs
    split at hs
    · cases hs
      exact (h.again hj env true).2 hnone
    · cases hs
  | expire j env =>
    intro wt s' hj hnone hs
    simp only [Poll.step, hj] at hs
    split at hs
    · cases hs
      exact (h.again hj env false).2 hnone
    · cases hs
  | _ => trivial

end EdgeInv

section Runs

/-- Whatever is asked for is ready. -/
def readable : Env := { probe := fun _ _ mask => some mask }

def readyIn : Delivery := { value := some {pollIn} }

end Runs

end Pytealet.Poll
