import Pytealet.Tealet.Lineage

/-!
# ExcInfo — which exception slots the tealets refer to

While a tealet runs, `exc_info` points to the slot of the thread state or to the slot of a frame
that the tealet runs.  A saved state refers to its own slot or to such a frame:
`PyTealetTstate_GetFrame` and `PyTealetTstate_PutFrame` turn the one pointer into the other.  So
each slot belongs to one tealet.

`PyTealetTstate_Duplicate` copies the pointer instead.  The saved state of a duplicate refers to the
slot in the wrapper of the stub that was duplicated, and when the duplicate runs, so does
`exc_info`.
-/

namespace Pytealet.Tealet

open Lib Lib.Transition

variable {ε : Type*}

/-! ## The property and the guard -/

/-- The exception in a slot. -/
def State.slotValue (s : State ε) : Slot → Option ε
  | .own => s.tstate.excState
  | .saved k => (s.wrappers[k]?).bind fun w => w.tstate.excState
  | .frame f => (s.frames[f]?).bind fun slot => slot.value

/-- The exception that a suspended tealet handles. -/
def State.handled (s : State ε) (k : Nat) : Option ε :=
  (s.wrappers[k]?).bind fun w => s.slotValue w.tstate.excInfo

/-- Wrapper `k` has a saved state that refers to `slot`. -/
def State.Refers (s : State ε) (k : Nat) (slot : Slot) : Prop :=
  ∃ w, s.wrappers[k]? = some w ∧ w.tstate.hasState = true ∧ w.tstate.excInfo = slot

structure Private (s : State ε) : Prop where
  /-- `exc_info` does not refer to the wrapper of another tealet. -/
  live : ∀ k, s.tstate.excInfo = .saved k → k = s.current
  /-- No two saved states refer to the same slot. -/
  apart : ∀ j k slot, s.Refers j slot → s.Refers k slot → j = k
  /-- An exception that is handled now is not seen by a suspended tealet. -/
  isolated : ∀ k e slot, k ≠ s.current → s.Refers k slot → (s.handle e).handled k = s.handled k

/-- No stub is duplicated. -/
def Unshared (s : State ε) : Act ε → Prop
  | .duplicate k => ∀ w, s.wrappers[k]? = some w → w.status ≠ .stub
  | .setStub k source => ∀ w src, s.wrappers[k]? = some w → s.wrappers[source]? = some src →
      w.status = .new → src.status ≠ .stub
  | _ => True

/-! ## Slots and their tealets -/

/-- The slot belongs to tealet `k`, where `own` stands for the one that is current. -/
def Slot.Of (frames : List (FrameSlot ε)) (k : Nat) : Slot → Prop
  | .own => True
  | .saved j => j = k
  | .frame f => ∃ slot, frames[f]? = some slot ∧ slot.owner = k

theorem Slot.Of.unique {frames : List (FrameSlot ε)} {j k : Nat} {slot : Slot} (hj : slot.Of frames j)
    (hk : slot.Of frames k) (hne : slot ≠ .own) : j = k := by
  cases slot with
  | own => exact absurd rfl hne
  | saved i => exact hj.symm.trans hk
  | frame f =>
    rcases hj with ⟨slot, hslot, rfl⟩
    rcases hk with ⟨slot', hslot', rfl⟩
    rw [hslot] at hslot'
    cases hslot'
    rfl

structure Tidy (s : State ε) : Prop where
  main : ∃ w, s.wrappers[0]? = some w ∧ w.status = .run
  active : ∃ w, s.wrappers[s.current]? = some w ∧ w.status = .run
  live : s.tstate.excInfo.Of s.frames s.current
  saved : ∀ (k : Nat) (w : Wrapper ε), s.wrappers[k]? = some w → w.tstate.hasState = true →
    w.tstate.excInfo.Of s.frames k ∧ w.tstate.excInfo ≠ .own
  frames : ∀ (f : Nat) (slot : FrameSlot ε), s.frames[f]? = some slot →
    slot.previous.Of s.frames slot.owner
  parked : ∀ (k : Nat) (w : Wrapper ε), s.wrappers[k]? = some w → k ≠ s.current →
    w.status.switchable = true ∨ w.status = .stub → w.tstate.hasState = true

theorem Tidy.init : Tidy (Tealet.init : State ε) where
  main := ⟨_, rfl, rfl⟩
  active := ⟨_, rfl, rfl⟩
  live := trivial
  saved := by
    intro k w hw hstate
    cases k with
    | zero =>
      cases hw
      cases hstate
    | succ k => cases hw
  frames := by
    intro f slot hslot
    cases hslot
  parked := by
    intro k w hw hk
    cases k with
    | zero => exact absurd rfl hk
    | succ k => cases hw

section Rules

variable {s : State ε} {k : Nat}

/-! ## The property -/

theorem handle_slotValue {slot : Slot} (e : Option ε) (hne : s.tstate.excInfo ≠ slot) :
    (s.handle e).slotValue slot = s.slotValue slot := by
  unfold State.handle
  cases hinfo : s.tstate.excInfo with
  | own =>
    cases slot with
    | own => exact absurd hinfo hne
    | saved j => rfl
    | frame f => rfl
  | saved i =>
    cases slot with
    | own => rfl
    | saved j =>
      have hij : i ≠ j := by
        rintro rfl
        exact hne hinfo
      simp only [State.slotValue, update_getElem?, if_neg hij]
      simp
    | frame f => rfl
  | frame i =>
    cases slot with
    | own => rfl
    | saved j => rfl
    | frame f =>
      have hif : i ≠ f := by
        rintro rfl
        exact hne hinfo
      simp only [State.slotValue, List.getElem?_modify, if_neg hif]
      simp

theorem handle_view (s : State ε) (e : Option ε) (k : Nat) :
    ((s.handle e).wrappers[k]?).map (fun w => (w.status, w.tstate.hasState, w.tstate.excInfo)) =
      (s.wrappers[k]?).map fun w => (w.status, w.tstate.hasState, w.tstate.excInfo) := by
  unfold State.handle
  cases s.tstate.excInfo with
  | own => rfl
  | saved i =>
    dsimp only
    rw [update_getElem?, Option.map_map]
    refine Option.map_congr ?_
    intro w _
    simp only [Function.comp]
    split <;> rfl
  | frame i => rfl

variable {w : Wrapper ε} {s' : State ε}

theorem wrapper_of_view
    (hview : (s'.wrappers[k]?).map (fun w => (w.status, w.tstate.hasState, w.tstate.excInfo)) =
      (s.wrappers[k]?).map fun w => (w.status, w.tstate.hasState, w.tstate.excInfo))
    (hw : s.wrappers[k]? = some w) :
    ∃ w', s'.wrappers[k]? = some w' ∧ w'.status = w.status ∧
      w'.tstate.hasState = w.tstate.hasState ∧ w'.tstate.excInfo = w.tstate.excInfo := by
  rw [hw, Option.map_some, Option.map_eq_some_iff] at hview
  rcases hview with ⟨w', hw', heq⟩
  simp only [Prod.mk.injEq] at heq
  exact ⟨w', hw', heq⟩

theorem Tidy.handle_handled (h : Tidy s) {slot : Slot} (e : Option ε) (hk : k ≠ s.current)
    (href : s.Refers k slot) : (s.handle e).handled k = s.handled k := by
  rcases href with ⟨w, hw, hstate, -⟩
  rcases h.saved k w hw hstate with ⟨hof, hown⟩
  -- the slot that is written belongs to the current tealet
  have hne : s.tstate.excInfo ≠ w.tstate.excInfo := by
    intro heq
    exact hk (hof.unique (heq ▸ h.live) hown)
  rcases wrapper_of_view (handle_view s e k) hw with ⟨w', hw', -, -, hinfo⟩
  have hafter : (s.handle e).handled k = (s.handle e).slotValue w.tstate.excInfo := by
    simp [State.handled, hw', hinfo]
  have hbefore : s.handled k = s.slotValue w.tstate.excInfo := by
    simp [State.handled, hw]
  rw [hafter, hbefore, handle_slotValue e hne]

theorem Tidy.isPrivate (h : Tidy s) : Private s where
  live := by
    intro k hk
    have hlive := h.live
    rw [hk] at hlive
    exact hlive
  apart := by
    rintro j k slot ⟨w, hw, hstate, rfl⟩ ⟨w', hw', hstate', heq⟩
    -- a slot that is not the one of the thread state has one owner
    rcases h.saved j w hw hstate with ⟨hof, hown⟩
    rcases h.saved k w' hw' hstate' with ⟨hof', -⟩
    exact hof.unique (heq ▸ hof') hown
  isolated := fun _ e _ hk href => h.handle_handled e hk href

theorem Tidy.congr (h : Tidy s) (hs : SameThread s s') : Tidy s' where
  main := by
    rcases h.main with ⟨w, hw, hrun⟩
    rcases hs.symm.wrapper hw with ⟨w', hw', hstatus, -⟩
    exact ⟨w', hw', hstatus.trans hrun⟩
  active := by
    rcases h.active with ⟨w, hw, hrun⟩
    rcases hs.symm.wrapper hw with ⟨w', hw', hstatus, -⟩
    exact ⟨w', hs.current.symm ▸ hw', hstatus.trans hrun⟩
  live := by
    rw [hs.tstate, hs.frames, hs.current]
    exact h.live
  saved := by
    intro k w' hw' hstate
    rcases hs.wrapper hw' with ⟨w, hw, -, htstate⟩
    rw [← htstate] at hstate ⊢
    rw [hs.frames]
    exact h.saved k w hw hstate
  frames := by
    rw [hs.frames]
    exact h.frames
  parked := by
    intro k w' hw' hk hstatus
    rcases hs.wrapper hw' with ⟨w, hw, hstat, htstate⟩
    rw [← hstat] at hstatus
    rw [hs.current] at hk
    rw [← htstate]
    exact h.parked k w hw hk hstatus

/-! ## Transfers -/

theorem Slot.Of.getFrame {t : Tstate ε} {frames : List (FrameSlot ε)} (h : t.excInfo.Of frames k) :
    (t.getFrame k).excInfo.Of frames k ∧ (t.getFrame k).excInfo ≠ .own := by
  unfold Tstate.getFrame
  dsimp only
  split
  · exact ⟨rfl, by simp⟩
  · rename_i hne
    exact ⟨h, hne⟩

theorem Slot.Of.putFrame {t : SavedTstate ε} {frames : List (FrameSlot ε)} (h : t.excInfo.Of frames k) :
    (t.putFrame k).excInfo.Of frames k := by
  unfold SavedTstate.putFrame
  dsimp only
  split
  · trivial
  · exact h

/-- No tealet runs: the state of each of them is saved. -/
structure Suspended (s : State ε) : Prop where
  main : ∃ w, s.wrappers[0]? = some w ∧ w.status = .run
  saved : ∀ (k : Nat) (w : Wrapper ε), s.wrappers[k]? = some w → w.tstate.hasState = true →
    w.tstate.excInfo.Of s.frames k ∧ w.tstate.excInfo ≠ .own
  frames : ∀ (f : Nat) (slot : FrameSlot ε), s.frames[f]? = some slot →
    slot.previous.Of s.frames slot.owner
  parked : ∀ (k : Nat) (w : Wrapper ε), s.wrappers[k]? = some w →
    w.status.switchable = true ∨ w.status = .stub → w.tstate.hasState = true

theorem save_wrapper (hw : s.wrappers[k]? = some w) :
    ∃ w', s.save.wrappers[k]? = some w' ∧ w'.status = w.status := by
  rw [State.save, update_getElem?, hw]
  refine ⟨_, rfl, ?_⟩
  dsimp only
  split <;> rfl

theorem save_current (hw : s.save.wrappers[s.current]? = some w) :
    w.tstate = s.tstate.getFrame s.current := by
  rw [State.save, update_getElem?, Option.map_eq_some_iff] at hw
  rcases hw with ⟨v, -, rfl⟩
  rw [if_pos rfl]

theorem Tidy.save (h : Tidy s) : Suspended s.save where
  main := by
    rcases h.main with ⟨w, hw, hrun⟩
    rcases save_wrapper hw with ⟨w', hw', heq⟩
    exact ⟨w', hw', heq.trans hrun⟩
  saved := by
    intro k w hw hstate
    by_cases hk : k = s.current
    · subst hk
      rw [save_current hw]
      exact h.live.getFrame
    · rw [State.save, update_other _ hk] at hw
      exact h.saved k w hw hstate
  frames := h.frames
  parked := by
    intro k w hw hstatus
    by_cases hk : k = s.current
    · subst hk
      rw [save_current hw]
      rfl
    · rw [State.save, update_other _ hk] at hw
      exact h.parked k w hw hk hstatus

theorem finish_wrapper (hk : k ≠ s.current) : s.finish.wrappers[k]? = s.wrappers[k]? := by
  rw [State.finish, update_other _ hk, State.save, update_other _ hk]

theorem finish_current (hw : s.finish.wrappers[s.current]? = some w) :
    w.status = .exit ∧ w.tstate.hasState = false := by
  rw [State.finish, update_getElem?, Option.map_eq_some_iff] at hw
  rcases hw with ⟨v, -, rfl⟩
  rw [if_pos rfl]
  exact ⟨rfl, rfl⟩

theorem Tidy.finish (h : Tidy s) (hne : s.current ≠ 0) : Suspended s.finish where
  main := by
    rw [finish_wrapper fun heq => hne heq.symm]
    exact h.main
  saved := by
    intro k w hw hstate
    by_cases hk : k = s.current
    · subst hk
      rw [(finish_current hw).2] at hstate
      cases hstate
    · rw [finish_wrapper hk] at hw
      exact h.saved k w hw hstate
  frames := h.frames
  parked := by
    intro k w hw hstatus
    by_cases hk : k = s.current
    · subst hk
      simp [(finish_current hw).1, Status.switchable] at hstatus
    · rw [finish_wrapper hk] at hw
      exact h.parked k w hw hk hstatus

theorem Suspended.resume (h : Suspended s) (hframes : s'.frames = s.frames)
    (hlive : s'.tstate.excInfo.Of s.frames s'.current)
    (hothers : ∀ j : Nat, j ≠ s'.current → s'.wrappers[j]? = s.wrappers[j]?)
    (hself : ∃ w, s'.wrappers[s'.current]? = some w ∧ w.status = .run ∧
      (w.tstate.hasState = true →
        w.tstate.excInfo.Of s.frames s'.current ∧ w.tstate.excInfo ≠ .own)) : Tidy s' where
  main := by
    by_cases hzero : 0 = s'.current
    · rcases hself with ⟨w, hw, hrun, -⟩
      exact ⟨w, hzero ▸ hw, hrun⟩
    · rw [hothers 0 hzero]
      exact h.main
  active := by
    rcases hself with ⟨w, hw, hrun, -⟩
    exact ⟨w, hw, hrun⟩
  live := hframes.symm ▸ hlive
  saved := by
    intro k w hw hstate
    rw [hframes]
    -- a tealet that starts anew has no saved state, and one that was restored neither
    by_cases hk : k = s'.current
    · rcases hself with ⟨w', hw', -, hsaved⟩
      rw [hk, hw'] at hw
      cases hw
      rw [hk]
      exact hsaved hstate
    · exact h.saved k w (hothers k hk ▸ hw) hstate
  frames := hframes.symm ▸ h.frames
  parked := fun k w hw hk hstatus => h.parked k w (hothers k hk ▸ hw) hstatus

theorem restore_eq (hw : s.wrappers[k]? = some w) : s.restore k =
      { s.update k (fun w => { w with tstate := { w.tstate with hasState := false } }) with
        tstate := w.tstate.putFrame k
        current := k } := by
  simp [State.restore, hw]

theorem Suspended.restore (h : Suspended s) (hw : s.wrappers[k]? = some w)
    (hrun : w.status = .run) : Tidy (s.restore k) := by
  have hstate := h.parked k w hw (.inl (by rw [hrun]; rfl))
  rw [restore_eq hw]
  refine h.resume rfl (h.saved k w hw hstate).1.putFrame ?_ ?_
  · exact fun j hj => update_other _ hj
  · refine ⟨{ w with tstate := { w.tstate with hasState := false } }, ?_, hrun, ?_⟩
    · dsimp only
      rw [update_getElem?, hw, Option.map_some, if_pos rfl]
    · intro hfalse
      cases hfalse

theorem Suspended.enter (h : Suspended s) (hw : s.wrappers[k]? = some w)
    (hstatus : w.status.switchable = true ∨ w.status = .stub) :
    Tidy ((s.restore k).setStatus k .run) := by
  have hstate := h.parked k w hw hstatus
  rw [restore_eq hw]
  refine h.resume rfl (h.saved k w hw hstate).1.putFrame ?_ ?_
  · exact fun j hj => (update_other _ hj).trans (update_other _ hj)
  · refine ⟨{ w with status := .run, tstate := { w.tstate with hasState := false } }, ?_, rfl, ?_⟩
    · show (State.setStatus _ k .run).wrappers[k]? = _
      rw [State.setStatus, update_getElem?, update_getElem?, hw, Option.map_some, Option.map_some,
        if_pos rfl, if_pos rfl]
    · intro hfalse
      cases hfalse

theorem Suspended.start (h : Suspended s) (hw : s.wrappers[k]? = some w) :
    Tidy (({ s with current := k, tstate := .setup } : State ε).setStatus k .run) := by
  refine h.resume rfl trivial ?_ ?_
  · exact fun j hj => update_other _ hj
  · refine ⟨{ w with status := .run }, ?_, rfl, fun hstate => h.saved k w hw hstate⟩
    show (State.setStatus _ k .run).wrappers[k]? = _
    rw [State.setStatus, update_getElem?]
    show (s.wrappers[k]?).map _ = _
    rw [hw, Option.map_some, if_pos rfl]

theorem Tidy.transfer (h : Tidy s) (hw : s.wrappers[k]? = some w)
    (hstatus : w.status.switchable = true ∨ w.status = .stub) : Tidy (s.transfer k) := by
  rcases save_wrapper hw with ⟨w', hw', heq⟩
  exact h.save.enter hw' (heq.symm ▸ hstatus)

theorem Tidy.transferFails (h : Tidy s) : Tidy s.transferFails := by
  rcases h.active with ⟨w, hw, hrun⟩
  rcases save_wrapper hw with ⟨w', hw', heq⟩
  have hback := h.save.restore hw' (heq.trans hrun)
  exact hback.congr ((sameThread_popPending _).trans (sameThread_note _ _))

theorem Tidy.switch (h : Tidy s) (k : Nat) (panic : Bool) (x : Transfer) : Tidy (s.switch k panic x) := by
  unfold State.switch
  split
  · rename_i w hw
    split
    · rename_i hsw
      -- what happens to the exceptions does not matter here
      have htransfer := h.transfer hw (.inl hsw)
      split
      · exact h.transferFails
      · split
        · exact htransfer.congr (sameThread_takePending _)
        · exact htransfer.congr (sameThread_resume _ x)
    · exact h
  · exact h

theorem Tidy.run (h : Tidy s) (k : Nat) (callable : Bool) (x : Transfer) :
    Tidy (s.run k callable x) := by
  unfold State.run
  split
  · rename_i w hw
    split
    · split
      · exact h.transferFails
      · split
        · rename_i hstub
          exact (h.transfer hw (.inr hstub)).congr (sameThread_resume _ x)
        · rcases save_wrapper hw with ⟨w', hw', -⟩
          exact (h.save.start hw').congr (sameThread_resume _ x)
    · exact h
  · exact h

theorem Tidy.throw (h : Tidy s) (k : Nat) (e : ε) (fallback : Option Nat) (panic : Bool) (x : Transfer) :
    Tidy (s.throw k e fallback panic x) := by
  unfold State.throw
  split
  · split
    · rename_i s₁ hs₁
      exact (h.congr (sameThread_setPendingInner hs₁)).switch k panic x
    · exact h
  · split
    · exact h
    · split
      · rename_i s₁ hs₁
        exact (h.congr (sameThread_setPendingInner hs₁)).run k false x
      · exact h

/-! ## The end of a tealet -/

theorem SameThread.switchable (h : SameThread s s') (hk : s.switchable k = true) :
    s'.switchable k = true := by
  rcases switchable_iff.1 hk with ⟨w, hw, hsw⟩
  rcases h.symm.wrapper hw with ⟨w', hw', hstatus, -⟩
  exact switchable_iff.2 ⟨w', hw', hstatus.symm ▸ hsw⟩

theorem sameThread_takeRedirectTarget [DecidableEq ε] (s : State ε) (links : Links ε) (e : ε) :
    SameThread s (s.takeRedirectTarget links e).2 :=
  sameThread_popInflight s s.current

/-- The target of an exit is another tealet, and can be switched to. -/
def State.Leads (s : State ε) (k : Nat) : Prop :=
  s.switchable k = true ∧ k ≠ s.current

theorem sameThread_resolveTarget {w : Worker ε} {excTarget : Option Nat} {r : Nat × State ε}
    (h : s.resolveTarget w excTarget = some r) : SameThread s r.2 ∧ s.Leads r.1 := by
  cases w with
  | returned target =>
    rcases Option.map_eq_some_iff.1 h with ⟨k, hk, rfl⟩
    exact ⟨.refl s, exitTarget_eq_some hk⟩
  | raised e links =>
    unfold State.resolveTarget at h
    dsimp only at h
    split at h
    · split at h
      · rename_i k s₁ hk hs₁
        cases h
        exact ⟨sameThread_setPendingInner hs₁, exitTarget_eq_some hk⟩
      · cases h
    · rcases Option.map_eq_some_iff.1 h with ⟨k, hk, rfl⟩
      exact ⟨.refl s, exitTarget_eq_some hk⟩

theorem resolveTarget_getD (w : Worker ε) (t : Option Nat) (hsame : SameThread s s') :
    SameThread s ((s'.resolveTarget w t).getD (0, s')).2 ∧
      (((s'.resolveTarget w t).getD (0, s')).1 = 0 ∨
        s.Leads ((s'.resolveTarget w t).getD (0, s')).1) := by
  cases hr : s'.resolveTarget w t with
  | none => exact ⟨hsame, .inl rfl⟩
  | some r =>
    rcases sameThread_resolveTarget hr with ⟨hthread, hsw, hne⟩
    exact ⟨hsame.trans hthread, .inr ⟨hsame.symm.switchable hsw, hsame.current ▸ hne⟩⟩

theorem sameThread_applyResolveTarget [DecidableEq ε] (s : State ε) (hook : Hook ε) :
    SameThread s (s.applyResolveTarget hook).2 ∧
      ((s.applyResolveTarget hook).1 = 0 ∨ s.Leads (s.applyResolveTarget hook).1) := by
  cases hook with
  | default w =>
    cases w with
    | returned target => exact resolveTarget_getD (.returned target) none (.refl s)
    | raised e links =>
      exact resolveTarget_getD (.raised e links) _ (sameThread_takeRedirectTarget s links e)
  | override target =>
    refine ⟨.refl s, ?_⟩
    show (s.exitTarget target).getD 0 = 0 ∨ s.Leads ((s.exitTarget target).getD 0)
    cases hk : s.exitTarget target with
    | none => exact .inl rfl
    | some k => exact .inr (exitTarget_eq_some hk)

theorem Tidy.leave (h : Tidy s) (hne : s.current ≠ 0) (hk : k = 0 ∨ s.Leads k) :
    Tidy ((s.finish.restore k).setStatus k .run) := by
  have hsusp := h.finish hne
  -- the main tealet runs, and so can be switched to
  have hwrapper : ∃ w, s.wrappers[k]? = some w ∧ w.status.switchable = true ∧ k ≠ s.current := by
    rcases hk with rfl | ⟨hsw, hcur⟩
    · rcases h.main with ⟨w, hw, hrun⟩
      exact ⟨w, hw, by rw [hrun]; rfl, fun heq => hne heq.symm⟩
    · rcases switchable_iff.1 hsw with ⟨w, hw, hsw⟩
      exact ⟨w, hw, hsw, hcur⟩
  rcases hwrapper with ⟨w, hw, hsw, hcur⟩
  exact hsusp.enter ((finish_wrapper hcur).trans hw) (.inl hsw)

theorem Tidy.exitTo (h : Tidy s) (hne : s.current ≠ 0) (hk : k = 0 ∨ s.Leads k) (x : Transfer) :
    Tidy (s.exitTo k x) := by
  unfold State.exitTo
  split
  · exact (h.leave hne (.inl rfl)).congr (sameThread_takePending _)
  · exact (h.leave hne hk).congr (sameThread_resume _ x)

/-! ## Wrappers that are not current -/

theorem Tidy.append (h : Tidy s) {w₀ : Wrapper ε} (hstate : w₀.tstate.hasState = false)
    (hstatus : w₀.status = .new) : Tidy { s with wrappers := s.wrappers ++ [w₀] } := by
  have hget : ∀ (k : Nat) (w : Wrapper ε), (s.wrappers ++ [w₀])[k]? = some w →
      s.wrappers[k]? = some w ∨ w = w₀ := by
    intro k w hw
    by_cases hlt : k < s.wrappers.length
    · rw [List.getElem?_append_left hlt] at hw
      exact .inl hw
    · rw [List.getElem?_append_right (by omega)] at hw
      exact .inr (List.mem_singleton.1 (List.mem_of_getElem? hw))
  have hold : ∀ (k : Nat) (w : Wrapper ε), s.wrappers[k]? = some w →
      (s.wrappers ++ [w₀])[k]? = some w := by
    intro k w hw
    have hlt : k < s.wrappers.length := (List.getElem?_eq_some_iff.1 hw).1
    rw [List.getElem?_append_left hlt]
    exact hw
  refine ⟨?_, ?_, h.live, ?_, h.frames, ?_⟩
  · rcases h.main with ⟨w, hw, hrun⟩
    exact ⟨w, hold 0 w hw, hrun⟩
  · rcases h.active with ⟨w, hw, hrun⟩
    exact ⟨w, hold s.current w hw, hrun⟩
  · intro k w hw hs
    rcases hget k w hw with hw | rfl
    · exact h.saved k w hw hs
    · rw [hstate] at hs
      cases hs
  · intro k w hw hk hs
    rcases hget k w hw with hw | rfl
    · exact h.parked k w hw hk hs
    · simp [hstatus, Status.switchable] at hs

theorem Tidy.update (h : Tidy s) (hw : s.wrappers[k]? = some w) (hrun : w.status ≠ .run)
    {f : Wrapper ε → Wrapper ε}
    (hsaved : (f w).tstate.hasState = true →
      (f w).tstate.excInfo.Of s.frames k ∧ (f w).tstate.excInfo ≠ .own)
    (hparked : (f w).tstate.hasState = true) : Tidy (s.update k f) := by
  have hself : (s.update k f).wrappers[k]? = some (f w) := by
    rw [update_getElem?, hw, Option.map_some, if_pos rfl]
  have hkeep : ∀ (j : Nat) (v : Wrapper ε), s.wrappers[j]? = some v → v.status = .run →
      (s.update k f).wrappers[j]? = some v := by
    intro j v hv hvrun
    rw [update_other]
    · exact hv
    · rintro rfl
      rw [hw] at hv
      cases hv
      exact hrun hvrun
  refine ⟨?_, ?_, h.live, ?_, h.frames, ?_⟩
  · rcases h.main with ⟨v, hv, hvrun⟩
    exact ⟨v, hkeep 0 v hv hvrun, hvrun⟩
  · rcases h.active with ⟨v, hv, hvrun⟩
    exact ⟨v, hkeep s.current v hv hvrun, hvrun⟩
  · intro j v hv hstate
    by_cases hj : j = k
    · subst hj
      rw [hself] at hv
      cases hv
      exact hsaved hstate
    · rw [update_other f hj] at hv
      exact h.saved j v hv hstate
  · intro j v hv hcur hstatus
    by_cases hj : j = k
    · subst hj
      rw [hself] at hv
      cases hv
      exact hparked
    · rw [update_other f hj] at hv
      exact h.parked j v hv hcur hstatus

theorem Tidy.spawn (h : Tidy s) (hw : s.wrappers[k]? = some w) (hnew : w.status = .new)
    (status : Status) : Tidy (s.spawn k status) :=
  h.update hw (by simp [hnew]) (fun _ => ⟨rfl, by simp [SavedTstate.setup]⟩) rfl

theorem Tidy.stub_saved (h : Tidy s) (hw : s.wrappers[k]? = some w)
    (hstub : w.status = .stub) : w.tstate.hasState = true := by
  refine h.parked k w hw ?_ (.inr hstub)
  rintro rfl
  rcases h.active with ⟨v, hv, hrun⟩
  rw [hw] at hv
  cases hv
  rw [hstub] at hrun
  cases hrun

theorem Tidy.primeStub (h : Tidy s) (hw : s.wrappers[k]? = some w)
    (hstub : w.status = .stub) : Tidy (s.setStatus k .primed) := by
  have hstate := h.stub_saved hw hstub
  exact h.update hw (by simp [hstub]) (fun _ => h.saved k w hw hstate) hstate

/-! ## Frames -/

theorem Slot.Of.mono {frames frames' : List (FrameSlot ε)} {slot : Slot}
    (hframes : ∀ (f : Nat) (x : FrameSlot ε), frames[f]? = some x →
      ∃ y, frames'[f]? = some y ∧ y.owner = x.owner) (h : slot.Of frames k) : slot.Of frames' k := by
  cases slot with
  | own => trivial
  | saved j => exact h
  | frame f =>
    rcases h with ⟨x, hx, howner⟩
    rcases hframes f x hx with ⟨y, hy, heq⟩
    exact ⟨y, hy, heq.trans howner⟩

theorem Tidy.pushFrame (h : Tidy s) : Tidy s.pushFrame := by
  have hmono : ∀ (f : Nat) (x : FrameSlot ε), s.frames[f]? = some x →
      ∃ y, s.pushFrame.frames[f]? = some y ∧ y.owner = x.owner := by
    intro f x hx
    have hlt : f < s.frames.length := (List.getElem?_eq_some_iff.1 hx).1
    exact ⟨x, by rw [State.pushFrame, List.getElem?_append_left hlt]; exact hx, rfl⟩
  refine ⟨h.main, h.active, ?_, ?_, ?_, h.parked⟩
  · exact ⟨{ value := none, previous := s.tstate.excInfo, owner := s.current },
      List.getElem?_concat_length, rfl⟩
  · intro k w hw hstate
    rcases h.saved k w hw hstate with ⟨hof, hne⟩
    exact ⟨hof.mono hmono, hne⟩
  · intro f slot hslot
    by_cases hlt : f < s.frames.length
    · rw [State.pushFrame, List.getElem?_append_left hlt] at hslot
      exact (h.frames f slot hslot).mono hmono
    · -- the new slot lies over what `exc_info` referred to before
      rw [State.pushFrame, List.getElem?_append_right (by omega)] at hslot
      have heq := List.mem_singleton.1 (List.mem_of_getElem? hslot)
      subst heq
      exact h.live.mono hmono

theorem Tidy.popFrame {f : Nat} {slot : FrameSlot ε} (h : Tidy s) (hinfo : s.tstate.excInfo = .frame f)
    (hslot : s.frames[f]? = some slot) :
    Tidy { s with tstate := { s.tstate with excInfo := slot.previous } } := by
  -- the slot that is uncovered belongs to the owner of the one that is popped
  have howner : slot.owner = s.current := by
    have hlive := h.live
    rw [hinfo] at hlive
    rcases hlive with ⟨x, hx, howner⟩
    rw [hslot] at hx
    cases hx
    exact howner
  exact ⟨h.main, h.active, howner ▸ h.frames f slot hslot, h.saved, h.frames, h.parked⟩

theorem handle_frames (s : State ε) (e : Option ε) :
    ∀ f : Nat, ((s.handle e).frames[f]?).map (fun x => (x.owner, x.previous)) =
      (s.frames[f]?).map fun x => (x.owner, x.previous) := by
  intro f
  unfold State.handle
  cases s.tstate.excInfo with
  | own => rfl
  | saved k => rfl
  | frame i =>
    dsimp only
    rw [List.getElem?_modify]
    cases s.frames[f]? with
    | none => rfl
    | some x =>
      by_cases hif : i = f
      · simp [hif]
      · simp [hif]

theorem handle_thread (s : State ε) (e : Option ε) :
    (s.handle e).tstate.excInfo = s.tstate.excInfo ∧ (s.handle e).current = s.current := by
  unfold State.handle
  split
  · exact ⟨rfl, rfl⟩
  · exact ⟨rfl, rfl⟩
  · exact ⟨rfl, rfl⟩

theorem Tidy.handle (h : Tidy s) (e : Option ε) : Tidy (s.handle e) := by
  rcases handle_thread s e with ⟨hinfo, hcur⟩
  have hto : ∀ (k : Nat) (w : Wrapper ε), s.wrappers[k]? = some w → w.status = .run →
      ∃ w', (s.handle e).wrappers[k]? = some w' ∧ w'.status = .run := by
    intro k w hw hrun
    rcases wrapper_of_view (handle_view s e k) hw with ⟨w', hw', hstatus, -, -⟩
    exact ⟨w', hw', hstatus.trans hrun⟩
  have hslots : ∀ (f : Nat) (x : FrameSlot ε), s.frames[f]? = some x →
      ∃ y, (s.handle e).frames[f]? = some y ∧ y.owner = x.owner := by
    intro f x hx
    have hget := handle_frames s e f
    rw [hx, Option.map_some, Option.map_eq_some_iff] at hget
    rcases hget with ⟨y, hy, heq⟩
    exact ⟨y, hy, (Prod.ext_iff.1 heq).1⟩
  refine ⟨?_, ?_, ?_, ?_, ?_, ?_⟩
  · rcases h.main with ⟨w, hw, hrun⟩
    exact hto 0 w hw hrun
  · rcases h.active with ⟨w, hw, hrun⟩
    rw [hcur]
    exact hto s.current w hw hrun
  · rw [hinfo, hcur]
    exact h.live.mono hslots
  · intro k w' hw' hstate
    rcases wrapper_of_view (handle_view s e k).symm hw' with ⟨w, hw, -, hs, hi⟩
    rcases h.saved k w hw (hs.trans hstate) with ⟨hof, hne⟩
    rw [hi] at hof hne
    exact ⟨hof.mono hslots, hne⟩
  · intro f y hy
    have hget := handle_frames s e f
    rw [hy, Option.map_some, eq_comm, Option.map_eq_some_iff] at hget
    rcases hget with ⟨x, hx, heq⟩
    simp only [Prod.mk.injEq] at heq
    rw [← heq.1, ← heq.2]
    exact (h.frames f x hx).mono hslots
  · intro k w' hw' hk hstatus
    rcases wrapper_of_view (handle_view s e k).symm hw' with ⟨w, hw, hst, hs, -⟩
    rw [hcur] at hk
    rw [← hst] at hstatus
    rw [← hs]
    exact h.parked k w hw hk hstatus

/-! ## Runs -/

theorem Tidy.step [DecidableEq ε] {a : Act ε} (h : Tidy s) (ha : Unshared s a)
    (hs : Tealet.step s a = some s') : Tidy s' := by
  cases step_move hs with
  | stays => exact h
  | adds => exact h.append rfl rfl
  | spawns _ status hw hnew => exact h.spawn hw hnew status
  | duplicates hw hstub => exact absurd hstub (ha _ hw)
  | setsStub hw hsrc hnew hstub => exact absurd hstub (ha _ _ hw hsrc hnew)
  | primes _ hw hstub => exact h.primeStub hw hstub
  | queues _ k e fallback => exact h.congr (sameThread_queue s k e fallback)
  | switches _ k panic x => exact h.switch k panic x
  | runs _ k callable x => exact h.run k callable x
  | throws _ k e fallback panic x => exact h.throw k e fallback panic x
  | unwinds => exact h.congr (sameThread_popInflight s s.current)
  | exits _ hook x hmain =>
    rcases sameThread_applyResolveTarget s hook with ⟨hthread, hleads⟩
    -- the target was checked before the exceptions changed
    refine (h.congr hthread).exitTo (hthread.current.symm ▸ hmain) ?_ x
    rcases hleads with hzero | ⟨hsw, hne⟩
    · exact .inl hzero
    · exact .inr ⟨hthread.switchable hsw, hthread.current.symm ▸ hne⟩
  | pushes => exact h.pushFrame
  | pops _ hinfo hslot => exact h.popFrame hinfo hslot
  | handles _ e => exact h.handle e

theorem Tidy.breaks [DecidableEq ε] {a : Act ε} (h : Tidy s) (ha : ¬ Unshared s a)
    (hs : Tealet.step s a = some s') : ¬ Private s' := by
  cases a with
  | duplicate k =>
    simp only [Unshared, not_forall, not_not] at ha
    rcases ha with ⟨w, hw, hstub⟩
    have hstate := h.stub_saved hw hstub
    have hlt : k < s.wrappers.length := (List.getElem?_eq_some_iff.1 hw).1
    simp only [Tealet.step, hw, hstub, reduceCtorEq, if_false, if_true, Option.some.injEq] at hs
    subst hs
    intro hpriv
    -- the stub and its copy, the last wrapper, refer to one slot
    have hk := hpriv.apart k s.wrappers.length w.tstate.excInfo
      ⟨w, (List.getElem?_append_left hlt).trans hw, hstate, rfl⟩
      ⟨_, List.getElem?_concat_length, rfl, rfl⟩
    omega
  | setStub k source =>
    simp only [Unshared, not_forall, not_not] at ha
    rcases ha with ⟨w, src, hw, hsrc, hnew, hstub⟩
    have hstate := h.stub_saved hsrc hstub
    -- one is a stub and the other is new
    have hne : source ≠ k := by
      rintro rfl
      rw [hw] at hsrc
      cases hsrc
      rw [hnew] at hstub
      cases hstub
    simp only [Tealet.step, hw, hsrc, hnew, hstub, decide_true, Bool.and_self, if_true,
      Option.some.injEq] at hs
    subst hs
    intro hpriv
    refine hne (hpriv.apart source k src.tstate.excInfo ?_ ?_)
    · exact ⟨src, (update_other _ hne).trans hsrc, hstate, rfl⟩
    · refine ⟨{ w with status := .stub, tstate := src.tstate.duplicate, inflight := none }, ?_, rfl, rfl⟩
      rw [update_getElem?, hw, Option.map_some, if_pos rfl]
  | _ => exact absurd trivial ha

end Rules

/-- The exception state of every tealet is its own throughout a run if and only if no stub is
duplicated in it. -/
theorem exc_info_private_iff [DecidableEq ε] (acts : List (Act ε)) :
    Always step Private (init : State ε) acts ↔ Along step Unshared (init : State ε) acts :=
  always_iff_along (fun _ h => h.isPrivate) (fun _ _ _ h ha hs => h.step ha hs)
    (fun _ _ _ h ha hs => h.breaks ha hs) acts init Tidy.init

/-- A stub is duplicated, and the duplicate runs: `exc_info` refers to the wrapper of the stub. -/
theorem duplicate_refers_to_stub :
    ¬ Always step Private (init : State Nat)
        [.create, .stub 1, .duplicate 1, .run 2 true .succeeds] := by
  intro h
  -- `Private` itself cannot be evaluated: its last field is about every exception
  have hlive := h.mono fun s hs => (hs.live 1 : s.tstate.excInfo = .saved 1 → 1 = s.current)
  revert hlive
  decide

end Pytealet.Tealet
