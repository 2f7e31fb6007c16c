import Pytealet.Tealet.Wrappers

/-!
# Linkage — a wrapper has a raw tealet exactly while it is stub, primed or running

`Inv` is the invariant of the whole lineage; the rules below say how one wrapper and one raw tealet
may change under it.  Every operation is one of these rules, or has undone what it began.  The
exception is `duplicate`: it copies the state of its source after the factory has run, so a factory
that primes or runs the source leaves a wrapper with a state and no raw tealet.
-/

namespace Pytealet.Tealet

open Function

/-- The states of a wrapper that has a raw tealet. -/
def Status.linked : Status → Bool
  | .stub | .primed | .run => true
  | .new | .exit => false

/-- The ways of a state. -/
def Status.moves : Status → Status → Bool
  | .new, .stub | .new, .primed | .new, .run => true
  | .stub, .primed | .stub, .run => true
  | .primed, .run | .primed, .exit => true
  | .run, .exit => true
  | a, b => a = b

theorem Status.moves_self (a : Status) : a.moves a = true := by
  cases a <;> rfl

namespace Wrappers

open Lib Lib.Transition

/-- The two pointers agree with the state and with each other. -/
structure Linked (s : World) : Prop where
  raw : ∀ k w, s.wrappers k = some w → w.tealet.isSome = w.status.linked
  back : ∀ k w r, s.wrappers k = some w → w.tealet = some r → ∃ raw, s.raws r = some raw ∧ raw.back = some k
  unique : ∀ k k' w w' r, s.wrappers k = some w → s.wrappers k' = some w' →
    w.tealet = some r → w'.tealet = some r →
    k = k'

/-- A step moves every state along its ways, and leaves that of its target where it fails. -/
def Steady (s : World) (a : Act) : Prop :=
  ∀ s', step s a = some s' →
    (∀ k w w', s.wrappers k = some w → s'.wrappers k = some w' → w.status.moves w'.status = true) ∧
    ∀ k, s'.failed = some k → (s'.wrappers k).map (·.status) = (s.wrappers k).map (·.status)

/-- The factory leaves the source of the `duplicate` that called it new or stub. -/
def undisturbed (s : World) : Act → Bool
  | .factoryReturn _ _ =>
    match s.call with
    | some { purpose := .duplicate src, .. } =>
      (s.wrappers src).all fun w => w.status = .new || w.status = .stub
    | _ => true
  | _ => true

/-! ## The invariant -/

/-- What is on the stack of the raw tealet of wrapper `k`. -/
def Fits (k : Nat) : Status → Stack → Prop
  | .run, stack => stack = .main k ∨ stack = .thread
  | _, stack => stack = .idle

/-- A wrapper is linked to its tealet, and back, exactly while its status says so. -/
structure Inv (s : World) : Prop where
  unlinked : ∀ k w, s.wrappers k = some w → w.status.linked = false → w.tealet = none
  linked : ∀ k w, s.wrappers k = some w → w.status.linked = true →
    ∃ r stack, w.tealet = some r ∧ s.raws r = some { back := some k, stack := stack } ∧
      Fits k w.status stack
  owned : ∀ r raw, s.raws r = some raw → ∃ k w, raw.back = some k ∧
    s.wrappers k = some w ∧ w.tealet = some r
  primed : ∀ k w, s.wrappers k = some w → (w.primed = true ↔ w.status = .primed)
  main : ∃ w, s.wrappers s.main = some w ∧ w.status = .run ∧ w.tealet = some 0
  thread : ∀ r raw, s.raws r = some raw → (raw.stack = .thread ↔ r = 0)
  current : ∃ raw, s.raws s.current = some raw ∧ raw.stack ≠ .idle
  freshWrapper : ∀ k, s.nextWrapper ≤ k → s.wrappers k = none
  freshRaw : ∀ r, s.nextRaw ≤ r → s.raws r = none

namespace Inv

variable {s s' : World}

theorem init : Inv World.init := by
  have hwrapper : ∀ k w, World.init.wrappers k = some w → k = 0 ∧
      w = { exact := true, status := .run, tealet := some 0 } := by
    intro k w hk
    simp only [World.init] at hk
    split_ifs at hk with h0
    cases hk
    exact ⟨h0, rfl⟩
  have hraw : ∀ r raw, World.init.raws r = some raw → r = 0 ∧
      raw = { back := some 0, stack := .thread } := by
    intro r raw hr
    simp only [World.init] at hr
    split_ifs at hr with h0
    cases hr
    exact ⟨h0, rfl⟩
  refine ⟨?_, ?_, ?_, ?_, ⟨_, rfl, rfl, rfl⟩, ?_, ⟨_, rfl, by simp⟩, ?_, ?_⟩
  · rintro k w hk hlinked
    rcases hwrapper k w hk with ⟨-, rfl⟩
    cases hlinked
  · rintro k w hk -
    rcases hwrapper k w hk with ⟨rfl, rfl⟩
    exact ⟨0, .thread, rfl, rfl, .inr rfl⟩
  · rintro r raw hr
    rcases hraw r raw hr with ⟨rfl, rfl⟩
    exact ⟨0, _, rfl, rfl, rfl⟩
  · rintro k w hk
    rcases hwrapper k w hk with ⟨-, rfl⟩
    simp
  · rintro r raw hr
    rcases hraw r raw hr with ⟨rfl, rfl⟩
    simp
  · intro k hk
    have hk' : 1 ≤ k := hk
    simp only [World.init]
    rw [if_neg (by omega)]
  · intro r hr
    have hr' : 1 ≤ r := hr
    simp only [World.init]
    rw [if_neg (by omega)]

variable {w : Wrapper}

theorem back (h : Inv s) {k r : Nat} (hk : s.wrappers k = some w) (hr : w.tealet = some r) :
    w.status.linked = true ∧
      ∃ stack, s.raws r = some { back := some k, stack := stack } ∧ Fits k w.status stack := by
  have hlinked : w.status.linked = true := by
    by_contra hfalse
    have hnone := h.unlinked k w hk (by simpa using hfalse)
    rw [hr] at hnone
    cases hnone
  rcases h.linked k w hk hlinked with ⟨r', stack, hr', hraw, hfits⟩
  rw [hr] at hr'
  cases hr'
  exact ⟨hlinked, stack, hraw, hfits⟩

theorem unique (h : Inv s) {k k' r : Nat} {w w' : Wrapper} (hk : s.wrappers k = some w)
    (hk' : s.wrappers k' = some w')
    (hr : w.tealet = some r) (hr' : w'.tealet = some r) : k = k' := by
  rcases (h.back hk hr).2 with ⟨_, hraw, -⟩
  rcases (h.back hk' hr').2 with ⟨_, hraw', -⟩
  rw [hraw] at hraw'
  cases hraw'
  rfl

theorem linkage (h : Inv s) : Linked s := by
  refine ⟨?_, ?_, ?_⟩
  · intro k w hk
    cases hlinked : w.status.linked with
    | false =>
      rw [h.unlinked k w hk hlinked]
      rfl
    | true =>
      rcases h.linked k w hk hlinked with ⟨r, _, hr, -⟩
      rw [hr]
      rfl
  · intro k w r hk hr
    rcases (h.back hk hr).2 with ⟨stack, hraw, -⟩
    exact ⟨_, hraw, rfl⟩
  · intro k k' w w' r hk hk' hr hr'
    exact h.unique hk hk' hr hr'

theorem idle_of_bind (h : Inv s) {k : Nat} {raw : Raw} (hk : s.wrappers k = some w)
    (hraw : w.tealet.bind s.raws = some raw) (hrun : w.status ≠ .run) : raw.stack = .idle := by
  rcases Option.bind_eq_some_iff.1 hraw with ⟨r, hr, hraw⟩
  rcases (h.back hk hr).2 with ⟨stack, hstack, hfits⟩
  rw [hraw] at hstack
  cases hstack
  cases hstatus : w.status <;> simp_all [Fits]

theorem lt_nextWrapper (h : Inv s) {k : Nat} (hk : s.wrappers k = some w) : k < s.nextWrapper := by
  by_contra hle
  rw [h.freshWrapper k (by omega)] at hk
  cases hk

theorem lt_nextRaw (h : Inv s) {r : Nat} {raw : Raw} (hr : s.raws r = some raw) : r < s.nextRaw := by
  by_contra hle
  rw [h.freshRaw r (by omega)] at hr
  cases hr

end Inv

/-! ## How a step may change the lineage -/

/-- The wrapper that a waiting replacement is to replace is the main wrapper, or no longer. -/
def Replacing (s : World) (c : Call) : Prop :=
  ∀ old undo, c.purpose = .replaceMain old undo → old = s.main

/-- What one step does: no wrapper goes back to an earlier status, and a failed call changes
none. -/
structure Good (s s' : World) : Prop where
  inv : Inv s'
  next : s.nextWrapper ≤ s'.nextWrapper
  dead : ∀ k, k < s.nextWrapper → s.wrappers k = none → s'.wrappers k = none
  mains : s'.main = s.main ∨ ∀ w, s'.wrappers s.main = some w → w.status = .exit
  calls : ∀ c, s'.call = some c → s.call = some c ∨ Replacing s' c
  moves : ∀ k w w', s.wrappers k = some w → s'.wrappers k = some w' → w.status.moves w'.status = true
  failed : ∀ k, s'.failed = some k → (s'.wrappers k).map (·.status) = (s.wrappers k).map (·.status)

namespace Good

variable {s s' : World} {k r : Nat} {w w' : Wrapper}

theorem moves_update {o : Option Wrapper} (hwrappers : s'.wrappers = update s.wrappers k o)
    (hmoves : ∀ w w', s.wrappers k = some w → o = some w' → w.status.moves w'.status = true)
    (j : Nat) (v v' : Wrapper)
    (hv : s.wrappers j = some v) (hv' : s'.wrappers j = some v') : v.status.moves v'.status = true := by
  rw [hwrappers] at hv'
  by_cases hj : j = k
  · subst hj
    rw [update_self] at hv'
    exact hmoves v v' hv hv'
  · rw [update_of_ne hj, hv] at hv'
    cases hv'
    exact v.status.moves_self

theorem same (h : Inv s) (hwrappers : s'.wrappers = s.wrappers) (hraws : s'.raws = s.raws)
    (hmain : s'.main = s.main)
    (hcurrent : ∃ raw, s.raws s'.current = some raw ∧ raw.stack ≠ .idle)
    (hnextWrapper : s.nextWrapper ≤ s'.nextWrapper) (hnextRaw : s.nextRaw ≤ s'.nextRaw)
    (hcalls : ∀ c, s'.call = some c → s.call = some c ∨ Replacing s' c) : Good s s' := by
  refine ⟨⟨?_, ?_, ?_, ?_, ?_, ?_, ?_, ?_, ?_⟩, hnextWrapper, ?_, .inl hmain, hcalls, ?_, ?_⟩
  · rw [hwrappers]
    exact h.unlinked
  · rw [hwrappers, hraws]
    exact h.linked
  · rw [hwrappers, hraws]
    exact h.owned
  · rw [hwrappers]
    exact h.primed
  · rw [hwrappers, hmain]
    exact h.main
  · rw [hraws]
    exact h.thread
  · rw [hraws]
    exact hcurrent
  · intro k hk
    rw [hwrappers]
    exact h.freshWrapper k (Nat.le_trans hnextWrapper hk)
  · intro r hr
    rw [hraws]
    exact h.freshRaw r (Nat.le_trans hnextRaw hr)
  · intro k _ hk
    rw [hwrappers]
    exact hk
  · intro k w w' hw hw'
    rw [hwrappers, hw] at hw'
    cases hw'
    exact w.status.moves_self
  · intro k _
    rw [hwrappers]

theorem relink {stack : Stack} (h : Inv s) (hk : s.wrappers k = some w)
    (hr : w.tealet = some r ∨ w.tealet = none ∧ s.raws r = none)
    (hwrappers : s'.wrappers = update s.wrappers k (some w'))
    (hraws : s'.raws = update s.raws r (some { back := some k, stack := stack })) (hw : w'.tealet = some r)
    (hlinked : w'.status.linked = true) (hfits : Fits k w'.status stack)
    (hprimed : w'.primed = true ↔ w'.status = .primed) (hmoves : w.status.moves w'.status = true)
    (hthread : stack = .thread ↔ r = 0) (hmain : s'.main = s.main)
    (hcurrent : s'.current = r ∧ stack ≠ .idle ∨ s'.current = s.current ∧ s.current ≠ r)
    (hnextWrapper : s'.nextWrapper = s.nextWrapper) (hnextRaw : s.nextRaw ≤ s'.nextRaw)
    (hlt : r < s'.nextRaw)
    (hcall : s'.call = s.call) (hfailed : s'.failed = none) : Good s s' := by
  -- no other wrapper points to `r`
  have hother : ∀ {j : Nat} {v : Wrapper}, j ≠ k → s.wrappers j = some v → v.tealet ≠ some r := by
    intro j v hj hv hvr
    rcases hr with hr | ⟨-, hfree⟩
    · exact hj (h.unique hv hk hvr hr)
    · rcases (h.back hv hvr).2 with ⟨_, hraw, -⟩
      rw [hfree] at hraw
      cases hraw
  refine ⟨⟨?_, ?_, ?_, ?_, ?_, ?_, ?_, ?_, ?_⟩, Nat.le_of_eq hnextWrapper.symm, ?_, .inl hmain,
    fun c hc => .inl (hcall ▸ hc), ?_, ?_⟩
  · intro j v hv hfalse
    rw [hwrappers] at hv
    by_cases hj : j = k
    · subst hj
      rw [update_self] at hv
      cases hv
      rw [hlinked] at hfalse
      cases hfalse
    · rw [update_of_ne hj] at hv
      exact h.unlinked j v hv hfalse
  · intro j v hv htrue
    rw [hwrappers] at hv
    by_cases hj : j = k
    · subst hj
      rw [update_self] at hv
      cases hv
      exact ⟨r, stack, hw, by rw [hraws, update_self], hfits⟩
    · rw [update_of_ne hj] at hv
      rcases h.linked j v hv htrue with ⟨q, stack', hq, hraw, hfits'⟩
      have hne : q ≠ r := by
        rintro rfl
        exact hother hj hv hq
      exact ⟨q, stack', hq, by rw [hraws, update_of_ne hne, hraw], hfits'⟩
  · intro q raw hq
    rw [hraws] at hq
    by_cases hqr : q = r
    · subst hqr
      rw [update_self] at hq
      cases hq
      exact ⟨k, w', rfl, by rw [hwrappers, update_self], hw⟩
    · rw [update_of_ne hqr] at hq
      rcases h.owned q raw hq with ⟨j, v, hback, hv, hvq⟩
      have hj : j ≠ k := by
        rintro rfl
        rw [hk] at hv
        cases hv
        rcases hr with hr | ⟨hr, -⟩
        · rw [hr] at hvq
          cases hvq
          exact hqr rfl
        · rw [hr] at hvq
          cases hvq
      exact ⟨j, v, hback, by rw [hwrappers, update_of_ne hj, hv], hvq⟩
  · intro j v hv
    rw [hwrappers] at hv
    by_cases hj : j = k
    · subst hj
      rw [update_self] at hv
      cases hv
      exact hprimed
    · rw [update_of_ne hj] at hv
      exact h.primed j v hv
  · rcases h.main with ⟨v, hv, hrun, hzero⟩
    rw [hmain, hwrappers]
    by_cases hj : s.main = k
    · subst hj
      rw [hk] at hv
      cases hv
      refine ⟨w', by rw [update_self], ?_, ?_⟩
      · rw [hrun] at hmoves
        cases hstatus : w'.status <;> simp_all [Status.moves, Status.linked]
      · rcases hr with hr | ⟨hr, -⟩
        · rw [hw, ← hr, hzero]
        · rw [hr] at hzero
          cases hzero
    · exact ⟨v, by rw [update_of_ne hj, hv], hrun, hzero⟩
  · intro q raw hq
    rw [hraws] at hq
    by_cases hqr : q = r
    · subst hqr
      rw [update_self] at hq
      cases hq
      exact hthread
    · rw [update_of_ne hqr] at hq
      exact h.thread q raw hq
  · rw [hraws]
    rcases hcurrent with ⟨heq, hidle⟩ | ⟨heq, hne⟩
    · exact ⟨_, by rw [heq, update_self], hidle⟩
    · rw [heq, update_of_ne hne]
      exact h.current
  · intro j hj
    rw [hnextWrapper] at hj
    have hne : j ≠ k := by
      rintro rfl
      have hlt := h.lt_nextWrapper hk
      omega
    rw [hwrappers, update_of_ne hne]
    exact h.freshWrapper j hj
  · intro q hq
    rw [hraws, update_of_ne (by omega)]
    exact h.freshRaw q (by omega)
  · intro j _ hj
    have hne : j ≠ k := by
      rintro rfl
      rw [hk] at hj
      cases hj
    rw [hwrappers, update_of_ne hne]
    exact hj
  · refine moves_update hwrappers ?_
    intro v v' hv hv'
    rw [hk] at hv
    cases hv
    cases hv'
    exact hmoves
  · intro j hj
    rw [hfailed] at hj
    cases hj

theorem release {o : Option Wrapper} (h : Inv s) (hne : k ≠ s.main)
    (hnew : s.wrappers k = none → s.nextWrapper ≤ k)
    (ho : ∀ v, o = some v → v.tealet = none ∧ v.status.linked = false ∧ v.primed = false)
    (hmoves : ∀ v v', s.wrappers k = some v → o = some v' → v.status.moves v'.status = true)
    (hwrappers : s'.wrappers = update s.wrappers k o)
    (hraws : ∀ r raw, s'.raws r = some raw ↔ s.raws r = some raw ∧ raw.back ≠ some k)
    (hmain : s'.main = s.main)
    (hcurrent : ∃ raw, s'.raws s'.current = some raw ∧ raw.stack ≠ .idle)
    (hnextWrapper : s.nextWrapper ≤ s'.nextWrapper) (hlt : k < s'.nextWrapper)
    (hnextRaw : s.nextRaw ≤ s'.nextRaw)
    (hcall : s'.call = s.call) (hfailed : s'.failed = none) : Good s s' := by
  refine ⟨⟨?_, ?_, ?_, ?_, ?_, ?_, hcurrent, ?_, ?_⟩, hnextWrapper, ?_, .inl hmain,
    fun c hc => .inl (hcall ▸ hc),
    moves_update hwrappers hmoves, ?_⟩
  · intro j v hv hfalse
    rw [hwrappers] at hv
    by_cases hj : j = k
    · subst hj
      rw [update_self] at hv
      exact (ho v hv).1
    · rw [update_of_ne hj] at hv
      exact h.unlinked j v hv hfalse
  · intro j v hv htrue
    rw [hwrappers] at hv
    by_cases hj : j = k
    · subst hj
      rw [update_self] at hv
      rw [(ho v hv).2.1] at htrue
      cases htrue
    · rw [update_of_ne hj] at hv
      rcases h.linked j v hv htrue with ⟨q, stack, hq, hraw, hfits⟩
      exact ⟨q, stack, hq, (hraws q _).2 ⟨hraw, by simpa using hj⟩, hfits⟩
  · intro q raw hq
    rcases (hraws q raw).1 hq with ⟨hold, hback⟩
    rcases h.owned q raw hold with ⟨j, v, hj, hv, hvq⟩
    have hjk : j ≠ k := by
      rintro rfl
      exact hback hj
    exact ⟨j, v, hj, by rw [hwrappers, update_of_ne hjk, hv], hvq⟩
  · intro j v hv
    rw [hwrappers] at hv
    by_cases hj : j = k
    · subst hj
      rw [update_self] at hv
      rcases ho v hv with ⟨-, hunlinked, hprimed⟩
      rw [hprimed]
      refine ⟨by simp, fun hstatus => ?_⟩
      rw [hstatus] at hunlinked
      cases hunlinked
    · rw [update_of_ne hj] at hv
      exact h.primed j v hv
  · rcases h.main with ⟨v, hv, hrun, hzero⟩
    exact ⟨v, by rw [hmain, hwrappers, update_of_ne hne.symm, hv], hrun, hzero⟩
  · intro q raw hq
    exact h.thread q raw ((hraws q raw).1 hq).1
  · intro j hj
    rw [hwrappers, update_of_ne (by omega)]
    exact h.freshWrapper j (by omega)
  · intro q hq
    cases hraw : s'.raws q with
    | none => rfl
    | some raw =>
      have hold := ((hraws q raw).1 hraw).1
      rw [h.freshRaw q (by omega)] at hold
      cases hold
  · intro j hlt hj
    have hne : j ≠ k := by
      rintro rfl
      have hle := hnew hj
      omega
    rw [hwrappers, update_of_ne hne]
    exact hj
  · intro j hj
    rw [hfailed] at hj
    cases hj

theorem seq {s₁ : World} (h₁ : Good s s₁) (h₂ : Good s₁ s') (hmain : s₁.main = s.main)
    (hcall : s₁.call = s.call)
    (hone : ∀ k w, s.wrappers k = some w →
      s₁.wrappers k = some w ∨ s'.wrappers k = s₁.wrappers k ∨ s'.wrappers k = none)
    (hfailed : ∀ k, s'.failed = some k → s₁.wrappers k = s.wrappers k) : Good s s' := by
  refine ⟨h₂.inv, Nat.le_trans h₁.next h₂.next, ?_, hmain ▸ h₂.mains, ?_, ?_, ?_⟩
  · intro k hlt hk
    exact h₂.dead k (Nat.lt_of_lt_of_le hlt h₁.next) (h₁.dead k hlt hk)
  · intro c hc
    rcases h₂.calls c hc with hold | hnew
    · exact .inl (hcall ▸ hold)
    · exact .inr hnew
  · intro k w w' hw hw'
    rcases hone k w hw with heq | heq | heq
    · exact h₂.moves k w w' heq hw'
    · exact h₁.moves k w w' hw (heq ▸ hw')
    · rw [heq] at hw'
      cases hw'
  · intro k hk
    rw [h₂.failed k hk, hfailed k hk]

theorem fail (h : Inv s) (k : Nat) : Good s (s.fail k) :=
  .same h rfl rfl rfl h.current (Nat.le_refl _) (Nat.le_refl _) fun _ => .inl

theorem attach {stack : Stack} (h : Inv s) (hk : s.wrappers k = some w) (hw : w.status = .new)
    (hwrappers : s'.wrappers = update s.wrappers k (some w'))
    (hraws : s'.raws = update s.raws s.nextRaw (some { back := some k, stack := stack }))
    (hr : w'.tealet = some s.nextRaw) (hlinked : w'.status.linked = true) (hfits : Fits k w'.status stack)
    (hprimed : w'.primed = true ↔ w'.status = .primed) (hthread : stack ≠ .thread)
    (hmain : s'.main = s.main)
    (hcurrent : s'.current = s.nextRaw ∧ stack ≠ .idle ∨ s'.current = s.current)
    (hnextWrapper : s'.nextWrapper = s.nextWrapper) (hnextRaw : s'.nextRaw = s.nextRaw + 1)
    (hcall : s'.call = s.call) (hfailed : s'.failed = none) : Good s s' := by
  have hfree : s.raws s.nextRaw = none := h.freshRaw _ (Nat.le_refl _)
  have hnone : w.tealet = none := h.unlinked k w hk (by rw [hw]; rfl)
  have hpos : 0 < s.nextRaw := by
    rcases h.main with ⟨v, hv, -, hzero⟩
    rcases (h.back hv hzero).2 with ⟨_, hraw, -⟩
    exact h.lt_nextRaw hraw
  have hmoves : w.status.moves w'.status = true := by
    rw [hw]
    cases hstatus : w'.status <;> first | rfl | simp [hstatus, Status.linked] at hlinked
  refine .relink h hk (.inr ⟨hnone, hfree⟩) hwrappers hraws hr hlinked hfits hprimed
    hmoves ?_ hmain ?_ hnextWrapper
    (by omega) (by omega) hcall hfailed
  · exact ⟨fun heq => absurd heq hthread, fun heq => by omega⟩
  · rcases hcurrent with hnew | hold
    · exact .inl hnew
    · refine .inr ⟨hold, ?_⟩
      rcases h.current with ⟨raw, hraw, -⟩
      intro heq
      rw [heq, hfree] at hraw
      cases hraw

end Good

/-! ## The operations -/

section Operations

variable {s s' : World} {k : Nat} {e : Env}

theorem update_restored {α : Type*} {f : Nat → α} {k : Nat} {a b : α} (h : f k = b) :
    update (update f k a) k b = f := by
  rw [update_idem, ← h, update_eq_self]

theorem Inv.new_eq (h : Inv s) {w : Wrapper} (hk : s.wrappers k = some w) (hw : w.status = .new) :
    w.tealet = none ∧ w.primed = false := by
  refine ⟨h.unlinked k w hk (by rw [hw]; rfl), ?_⟩
  have hprimed := h.primed k w hk
  rw [hw] at hprimed
  simpa using hprimed

theorem Good.undone (h : Inv s) {w a : Wrapper} {raw raw' : Raw} (hk : s.wrappers k = some w)
    (hwrappers : s'.wrappers = update (update s.wrappers k (some a)) k (some w))
    (hraws : s'.raws =
      update (update (update s.raws s.nextRaw (some raw)) s.nextRaw (some raw')) s.nextRaw none)
    (hmain : s'.main = s.main) (hcurrent : s'.current = s.current)
    (hnextWrapper : s'.nextWrapper = s.nextWrapper)
    (hnextRaw : s'.nextRaw = s.nextRaw + 1) (hcall : s'.call = s.call) : Good s s' := by
  have hfree : s.raws s.nextRaw = none := h.freshRaw _ (Nat.le_refl _)
  refine .same h ?_ ?_ hmain ?_ (by omega) (by omega) fun c hc => .inl (hcall ▸ hc)
  · rw [hwrappers]
    exact update_restored hk
  · rw [hraws, update_idem]
    exact update_restored hfree
  · rw [hcurrent]
    exact h.current

theorem good_stub (h : Inv s) (hf : s.failed = none) (hs : s.stub k e = some s') : Good s s' := by
  simp only [World.stub] at hs
  split at hs
  · rename_i w hk
    split at hs
    · cases hs
      exact .fail h k
    · rename_i hstatus
      have hnew : w.status = .new := by simpa using hstatus
      rcases h.new_eq hk hnew with ⟨hnone, hprimed⟩
      split at hs
      · cases hs
        exact .fail h k
      · split at hs
        · cases hs
          exact .attach h hk hnew (update_idem _ _ _) rfl rfl rfl rfl (by simp [hprimed]) (by simp) rfl
            (.inr rfl) rfl rfl rfl hf
        · cases hs
          have hback : { w with tealet := none, status := .new } = w := by
            cases w
            simp_all
          rw [hback]
          exact .undone h hk rfl rfl rfl rfl rfl rfl rfl
  · cases hs

theorem good_setStub {target source : Nat} (h : Inv s) (hf : s.failed = none)
    (hs : s.setStub target source e = some s') : Good s s' := by
  simp only [World.setStub] at hs
  split at hs
  · rename_i t w ht hw
    split at hs
    · cases hs
      exact .fail h target
    · rename_i hnew
      have hnew' : t.status = .new := by simpa using hnew
      rcases h.new_eq ht hnew' with ⟨hnone, -⟩
      split at hs
      · cases hs
        exact .fail h target
      · rename_i hstub
        have hstub' : w.status = .stub := by simpa using hstub
        have hprimed := h.primed source w hw
        split at hs
        · cases hs
          exact .fail h target
        · split at hs
          · rename_i raw hraw
            have hidle := h.idle_of_bind hw hraw (by rw [hstub']; simp)
            split at hs
            · cases hs
              exact .fail h target
            · split at hs
              · cases hs
                refine .attach h ht hnew' (update_idem _ _ _) rfl rfl rfl hidle ?_ (by simp [hidle]) rfl
                  (.inr rfl) rfl rfl rfl hf
                rw [hprimed, hstub']
              · cases hs
                have hback : { t with tealet := none } = t := by
                  cases t
                  simp_all
                rw [hback]
                exact .undone h ht rfl rfl rfl rfl rfl rfl rfl
          · cases hs
  · cases hs

theorem good_finishDuplicate {src result : Nat} {w t : Wrapper} (h : Inv s) (hf : s.failed = none)
    (hw : s.wrappers src = some w) (ht : s.wrappers result = some t) (hnew : t.status = .new)
    (hsrc : w.status = .new ∨ w.status = .stub) (hs : s.finishDuplicate src result e = some s') :
      Good s s' := by
  have hprimed := h.primed src w hw
  rcases h.new_eq ht hnew with ⟨hnone, hplain⟩
  simp only [World.finishDuplicate, hw, ht] at hs
  split at hs
  · rename_i hstub
    split at hs
    · rename_i raw hraw
      have hidle := h.idle_of_bind hw hraw (by rw [hstub]; simp)
      split at hs
      · cases hs
        exact .fail h src
      · split at hs
        · cases hs
          refine .attach h ht hnew (update_idem _ _ _) rfl rfl ?_ ?_ hprimed
            (by simp [hidle]) rfl (.inr rfl)
            rfl rfl rfl hf
          · rw [hstub]
            rfl
          · rw [hstub]
            exact hidle
        · cases hs
          have hback : { t with tealet := none } = t := by
            cases t
            simp_all
          rw [hback]
          exact .undone h ht rfl rfl rfl rfl rfl rfl rfl
    · cases hs
  · rename_i hstub
    cases hs
    have hnew' : w.status = .new := hsrc.resolve_right hstub
    have hsame : { t with status := w.status, primed := w.primed } = t := by
      rw [hnew', (h.new_eq hw hnew').2]
      cases t
      simp_all
    refine .same h ?_ rfl rfl h.current (Nat.le_refl _) (Nat.le_refl _) fun _ => .inl
    rw [hsame, World.put, ← ht, update_eq_self]

theorem failed_finishDuplicate {src result : Nat} (hs : s.finishDuplicate src result e = some s')
    (hf : s.failed = none) (hk : s'.failed = some k) : k = src := by
  have hnot : s.failed ≠ some k := by simp [hf]
  simp only [World.finishDuplicate] at hs
  split at hs
  · split at hs
    · split at hs
      · split at hs
        · cases hs
          exact (Option.some.inj hk).symm
        · split at hs
          · cases hs
            exact absurd hk hnot
          · cases hs
            exact (Option.some.inj hk).symm
      · cases hs
    · cases hs
      exact absurd hk hnot
  · cases hs

theorem Inv.kept (h : Inv s) (hk : ∀ w, s.wrappers k = some w → w.tealet = none) (r : Nat) (raw : Raw) :
    s.raws r = some raw ↔ s.raws r = some raw ∧ raw.back ≠ some k := by
  refine ⟨fun hraw => ⟨hraw, ?_⟩, fun hraw => hraw.1⟩
  intro hback
  rcases h.owned r raw hraw with ⟨j, w, hj, hw, hr⟩
  rw [hback] at hj
  cases hj
  rw [hk w hw] at hr
  cases hr

theorem good_newWrapper (h : Inv s) (hf : s.failed = none) (exact : Bool) :
    Good s (s.newWrapper exact) := by
  have hfree : s.wrappers s.nextWrapper = none := h.freshWrapper _ (Nat.le_refl _)
  refine .release h ?_ (fun _ => Nat.le_refl _) ?_ ?_ rfl ?_ rfl h.current
    (Nat.le_succ _) (Nat.lt_succ_self _)
    (Nat.le_refl _) rfl hf
  · rintro heq
    rcases h.main with ⟨w, hw, -⟩
    rw [← heq, hfree] at hw
    cases hw
  · rintro v ⟨⟩
    exact ⟨rfl, rfl, rfl⟩
  · intro v v' hv
    rw [hfree] at hv
    cases hv
  · refine h.kept fun w hw => ?_
    rw [hfree] at hw
    cases hw

theorem newWrapper_of_some (h : Inv s) {w : Wrapper} (hk : s.wrappers k = some w) (exact : Bool) :
    (s.newWrapper exact).wrappers k = some w := by
  have hne : k ≠ s.nextWrapper := Nat.ne_of_lt (h.lt_nextWrapper hk)
  rw [← hk]
  exact update_of_ne hne _ _

theorem good_new {exact : Bool} (h : Inv s) (hf : s.failed = none) (hs : s.new exact e = some s') :
    Good s s' := by
  unfold World.new at hs
  split at hs
  · cases hs
  · split at hs
    · cases hs
      exact .same h rfl rfl rfl h.current (Nat.le_refl _) (Nat.le_refl _) fun _ => .inl
    · cases hs
      exact good_newWrapper h hf exact

theorem good_duplicate {src : Nat} (h : Inv s) (hf : s.failed = none) (hs : s.duplicate src e = some s') :
    Good s s' := by
  simp only [World.duplicate] at hs
  split at hs
  · rename_i w hw
    split at hs
    · cases hs
      exact .fail h src
    · rename_i hstatus
      have hsrc : w.status = .new ∨ w.status = .stub := by
        by_contra hneither
        exact hstatus (not_or.1 hneither)
      split at hs
      · split at hs
        · cases hs
          exact .fail h src
        · cases hs
          refine .same h rfl rfl rfl h.current (Nat.le_refl _) (Nat.le_refl _) ?_
          rintro c ⟨⟩
          exact .inr (by simp [Replacing])
      · split at hs
        · cases hs
        · split at hs
          · cases hs
            exact .fail h src
          · have hnew := good_newWrapper h hf w.exact
            refine hnew.seq (good_finishDuplicate hnew.inv hf (newWrapper_of_some h hw _)
              (update_self _ _ _)
              rfl hsrc hs) rfl rfl ?_ ?_
            · intro k v hv
              exact .inl (newWrapper_of_some h hv _)
            · intro k hk
              rw [failed_finishDuplicate hs hf hk, newWrapper_of_some h hw, hw]
  · cases hs

theorem Good.start {r : Nat} {w : Wrapper} (h : Inv s) (hf : s.failed = none) (hk : s.wrappers k = some w)
    (hr : w.tealet = some r) (hraw : s.raws r = some { back := some k, stack := .idle })
    (hwrappers : s'.wrappers = update s.wrappers k (some { w with primed := false, status := .run }))
    (hraws : s'.raws = update s.raws r (some { back := some k, stack := .main k }))
    (hmain : s'.main = s.main)
    (hcurrent : s'.current = r) (hnextWrapper : s'.nextWrapper = s.nextWrapper)
    (hnextRaw : s'.nextRaw = s.nextRaw)
    (hcall : s'.call = s.call) (hfailed : s'.failed = s.failed) : Good s s' := by
  rcases h.back hk hr with ⟨hlinked, stack, hstack, hfits⟩
  rw [hraw] at hstack
  cases hstack
  have hmoves : w.status.moves .run = true := by
    cases hstatus : w.status <;> simp_all [Fits, Status.linked, Status.moves]
  have hthread : Stack.idle = .thread ↔ r = 0 := h.thread r _ hraw
  refine .relink h hk (.inl hr) hwrappers hraws hr rfl (.inl rfl) (by simp) hmoves ?_ hmain
    (.inl ⟨hcurrent, by simp⟩)
    hnextWrapper (by omega) (hnextRaw ▸ h.lt_nextRaw hraw) hcall (hfailed.trans hf)
  simpa using hthread

theorem good_enter {r : Nat} {dest : Option Nat} {track : Bool} (h : Inv s) (hf : s.failed = none)
    (hdest : ∀ k raw, dest = some k → s.raws r = some raw → raw.back = some k)
    (hs : s.enter r dest track = some s') : Good s s' := by
  unfold World.enter at hs
  split at hs
  · rename_i raw hraw
    rcases h.owned r raw hraw with ⟨b, w, hback, hb, hr⟩
    split at hs
    · rename_i hidle
      obtain ⟨back, stack⟩ := raw
      cases hback
      cases hidle
      simp only [World.pytealetPrimedMain, hraw, hb] at hs
      have hstatus : w.status = .stub ∨ w.status = .run ∨ w.status = .primed := by
        have hlinked := (h.back hb hr).1
        cases hstatus : w.status <;> simp_all [Status.linked]
      split at hs
      · simp only [World.pytealetMain, World.putRaw, World.put, update_self, hstatus, if_true,
          Option.some.injEq] at hs
        subst hs
        exact .start h hf hb hr hraw (update_idem _ _ _) rfl rfl rfl rfl rfl rfl rfl
      · rename_i hplain
        have hprimed : { w with primed := false, status := .run } = { w with status := .run } := by
          cases w
          simp_all
        split at hs
        · rename_i k
          have hk : some b = some k := hdest k _ rfl hraw
          cases hk
          simp only [World.pytealetMain, World.putRaw, World.put, hb, hstatus,
            if_true, Option.some.injEq] at hs
          subst hs
          exact .start h hf hb hr hraw (by rw [hprimed]) rfl rfl rfl rfl rfl rfl rfl
        · cases hs
    · rename_i hidle
      cases hs
      exact .same h rfl rfl rfl ⟨raw, hraw, hidle⟩ (Nat.le_refl _) (Nat.le_refl _) fun _ => .inl
  · cases hs

theorem good_switch (h : Inv s) (hf : s.failed = none) (hs : s.switch k e = some s') : Good s s' := by
  simp only [World.switch] at hs
  split at hs
  · split at hs
    · cases hs
      exact .fail h k
    · split at hs
      · split at hs
        · cases hs
          exact .fail h k
        · exact good_enter h hf (by simp) hs
      · cases hs
  · cases hs

theorem good_run (h : Inv s) (hf : s.failed = none) (hs : s.run k e = some s') : Good s s' := by
  simp only [World.run] at hs
  split at hs
  · rename_i w hk
    split at hs
    · cases hs
      exact .fail h k
    · rename_i hstatus
      have hsrc : w.status = .new ∨ w.status = .stub := by
        by_contra hneither
        exact hstatus (not_or.1 hneither)
      -- nothing was primed
      have hsame : s.put k { w with primed := false } = s := by
        have hprimed := h.primed k w hk
        have hfalse : w.primed = false := by
          rcases hsrc with hsrc | hsrc <;> simpa [hsrc] using hprimed
        have heq : { w with primed := false } = w := by
          cases w
          simp_all
        rw [heq, World.put, ← hk, update_eq_self]
      rw [hsame] at hs
      split at hs
      · rename_i hnew
        have hfree : s.raws s.nextRaw = none := h.freshRaw _ (Nat.le_refl _)
        split at hs
        · cases hs
          exact .fail h k
        · split at hs
          · cases hs
            refine .same h rfl ?_ rfl h.current (Nat.le_refl _) (Nat.le_succ _) fun _ => .inl
            exact update_restored hfree
          · simp only [World.pytealetMain, World.newRaw, World.putRaw, hk, hnew,
              reduceCtorEq, or_self, if_false,
              Option.some.injEq] at hs
            subst hs
            refine .attach h hk hnew rfl (update_idem _ _ _) rfl rfl (.inl rfl) ?_ (by simp) rfl
              (.inl ⟨rfl, by simp⟩) rfl rfl rfl hf
            simp [(h.new_eq hk hnew).2]
      · split at hs
        · rename_i r hr
          split at hs
          · cases hs
            exact .fail h k
          · refine good_enter h hf ?_ hs
            intro k' raw hk' hraw
            cases hk'
            rcases (h.back hk hr).2 with ⟨stack, hstack, -⟩
            rw [hraw] at hstack
            cases hstack
            rfl
        · cases hs
  · cases hs

theorem good_throw (h : Inv s) (hf : s.failed = none) (hs : s.throw k e = some s') : Good s s' := by
  simp only [World.throw] at hs
  split at hs
  · split at hs
    · cases hs
      exact .fail h k
    · split at hs
      · split at hs
        · cases hs
          exact .fail h k
        · exact good_switch h hf hs
      · exact good_run h hf hs
  · cases hs

theorem good_prime (h : Inv s) (hf : s.failed = none) (hs : s.prime k e = some s') : Good s s' := by
  simp only [World.prime] at hs
  split at hs
  · rename_i w hk
    split at hs
    · cases hs
      exact .fail h k
    · rename_i hstatus
      split at hs
      · rename_i hstub
        cases hs
        rcases h.linked k w hk (by rw [hstub]; rfl) with ⟨r, stack, hr, hraw, hfits⟩
        have hidle : stack = .idle := by
          rw [hstub] at hfits
          exact hfits
        subst hidle
        refine .relink h hk (.inl hr) rfl ?_ hr rfl rfl (by simp) (by rw [hstub]; rfl) ?_ rfl ?_ rfl
          (Nat.le_refl _)
          (h.lt_nextRaw hraw) rfl hf
        · rw [← hraw, update_eq_self]
          rfl
        · exact h.thread r _ hraw
        · refine .inr ⟨rfl, ?_⟩
          rintro rfl
          rcases h.current with ⟨raw, hcurrent, hne⟩
          rw [hraw] at hcurrent
          cases hcurrent
          exact hne rfl
      · rename_i hstub
        have hnew : w.status = .new := by
          by_contra hne
          exact hstatus ⟨hne, hstub⟩
        rcases h.new_eq hk hnew with ⟨hnone, hprimed⟩
        have hback : { w with primed := false, tealet := none } = w := by
          cases w
          simp_all
        split at hs
        · cases hs
          have hsame : { w with primed := false } = w := by
            cases w
            simp_all
          refine .same h ?_ rfl rfl h.current (Nat.le_refl _) (Nat.le_refl _) fun _ => .inl
          rw [hsame, World.fail, World.put, ← hk, update_eq_self]
        · split at hs
          · cases hs
            exact .attach h hk hnew (update_idem _ _ _) rfl rfl rfl rfl (by simp) (by simp) rfl (.inr rfl)
              rfl rfl rfl hf
          · cases hs
            rw [hback]
            exact .undone h hk rfl rfl rfl rfl rfl rfl rfl
  · cases hs

theorem enter_current (r c : Nat) (track : Bool) : { s with current := c }.enter r none track =
    s.enter r none track := by
  unfold World.enter World.pytealetPrimedMain World.pytealetMain
  rfl

theorem enter_frame {r : Nat} {track : Bool} (hs : s.enter r none track = some s') :
    s'.failed = s.failed ∧ ∀ k, s'.wrappers k = s.wrappers k ∨ ∃ raw, s.raws r = some raw ∧
      raw.back = some k := by
  simp only [World.enter] at hs
  split at hs
  · rename_i raw hraw
    split at hs
    · simp only [World.pytealetPrimedMain, hraw] at hs
      split at hs
      · rename_i b _ hsome
        cases hsome
        split at hs
        · split at hs
          · simp only [World.pytealetMain, World.putRaw, World.put, update_self] at hs
            have hother : ∀ {k : Nat} {a c : Wrapper}, k ≠ b →
                update (update s.wrappers b (some a)) b (some c) k = s.wrappers k := by
              intro k a c hne
              rw [update_of_ne hne, update_of_ne hne]
            split at hs <;> cases hs <;> refine ⟨rfl, fun k => ?_⟩ <;> by_cases hk : k = b
            · exact .inr ⟨_, hraw, by rw [hk]⟩
            · exact .inl (hother hk)
            · exact .inr ⟨_, hraw, by rw [hk]⟩
            · exact .inl (hother hk)
          · cases hs
        · cases hs
      · cases hs
    · cases hs
      exact ⟨rfl, fun k => .inl rfl⟩
  · cases hs

theorem Inv.serves (h : Inv s) {r dest : Nat} {raw : Raw} (hr : s.raws r = some raw)
    (hstack : raw.stack = .main dest) :
    ∃ w, s.wrappers dest = some w ∧ w.tealet = some r ∧ w.status = .run ∧ r ≠ 0 ∧ dest ≠ s.main := by
  rcases h.owned r raw hr with ⟨b, w, hback, hb, hw⟩
  rcases (h.back hb hw).2 with ⟨stack, hraw, hfits⟩
  rw [hr] at hraw
  cases hraw
  cases hstack
  have hrun : w.status = .run := by
    cases hstatus : w.status <;> simp_all [Fits]
  have hdest : b = dest := by
    rw [hrun] at hfits
    rcases hfits with heq | heq <;> cases heq
    rfl
  have hzero : r ≠ 0 := by
    rintro rfl
    have hthread := (h.thread 0 _ hr).2 rfl
    cases hthread
  subst hdest
  refine ⟨w, hb, hw, hrun, hzero, ?_⟩
  rintro rfl
  rcases h.main with ⟨v, hv, -, hmain⟩
  rw [hb] at hv
  cases hv
  rw [hw] at hmain
  cases hmain
  exact hzero rfl

theorem Inv.thread_raw (h : Inv s) : ∃ raw, s.raws 0 = some raw ∧ raw.stack = .thread := by
  rcases h.main with ⟨v, hv, -, hzero⟩
  rcases (h.back hv hzero).2 with ⟨stack, hraw, -⟩
  exact ⟨_, hraw, (h.thread 0 _ hraw).2 rfl⟩

theorem Inv.deleted (h : Inv s) {r : Nat} {w : Wrapper} (hk : s.wrappers k = some w)
    (hr : w.tealet = some r) (q : Nat)
    (raw : Raw) : update s.raws r none q = some raw ↔ s.raws q = some raw ∧ raw.back ≠ some k := by
  by_cases hq : q = r
  · subst hq
    rcases (h.back hk hr).2 with ⟨stack, hraw, -⟩
    rw [update_self, hraw]
    refine ⟨by simp, ?_⟩
    rintro ⟨heq, hne⟩
    cases heq
    exact absurd rfl hne
  · rw [update_of_ne hq]
    refine ⟨fun hraw => ⟨hraw, ?_⟩, fun hraw => hraw.1⟩
    intro hback
    rcases h.owned q raw hraw with ⟨j, v, hj, hv, hvq⟩
    rw [hback] at hj
    cases hj
    rw [hk] at hv
    cases hv
    rw [hr] at hvq
    cases hvq
    exact hq rfl

theorem good_exit {returnTo : Option Nat} {fallback : Bool} (h : Inv s) (hf : s.failed = none)
    (hs : s.exit returnTo fallback e = some s') : Good s s' := by
  simp only [World.exit] at hs
  split at hs
  · rename_i dest hraw
    rcases h.serves hraw rfl with ⟨w, hw, hr, hrun, hzero, hmain⟩
    rcases h.thread_raw with ⟨thread, hthread, hstack⟩
    split at hs
    · cases hs
    · simp only [hw] at hs
      split at hs
      · rename_i r _
        rw [← enter_current _ 0] at hs
        have hleft : Good s
            { (s.put dest { w with status := .exit, tracked := false, tealet := none }).deleteRaw
              s.current with
              current := 0 } := by
          refine .release h hmain (by simp [hw]) ?_ ?_ rfl (h.deleted hw hr) rfl ?_ (Nat.le_refl _)
            (h.lt_nextWrapper hw) (Nat.le_refl _) rfl hf
          · rintro v ⟨⟩
            have hprimed := h.primed dest w hw
            rw [hrun] at hprimed
            exact ⟨rfl, rfl, by simpa using hprimed⟩
          · rintro v v' hv ⟨⟩
            rw [hw] at hv
            cases hv
            rw [hrun]
            rfl
          · refine ⟨thread, ?_, by simp [hstack]⟩
            rw [← hthread]
            exact update_of_ne hzero.symm _ _
        rcases enter_frame hs with ⟨hfailed, hframe⟩
        refine hleft.seq (good_enter hleft.inv hf (by simp) hs) rfl rfl ?_ ?_
        · intro k v hv
          by_cases hk : k = dest
          · subst hk
            -- it has no raw tealet left to start
            refine .inr (.inl ((hframe k).resolve_right ?_))
            rintro ⟨raw, hold, hback⟩
            exact ((h.deleted hw hr _ raw).1 hold).2 hback
          · refine .inl ?_
            rw [← hv]
            exact update_of_ne hk _ _
        · intro k hk
          rw [hfailed] at hk
          have hnone : (none : Option Nat) = some k := hf.symm.trans hk
          cases hnone
      · cases hs
  · cases hs

theorem update_two {α : Type*} {f : Nat → Option α} {m n j : Nat} {a b v : α}
    (hv : update (update f n (some a)) m (some b) j = some v) :
    j = m ∧ v = b ∨ j ≠ m ∧ j = n ∧ v = a ∨ j ≠ m ∧ j ≠ n ∧ f j = some v := by
  by_cases hm : j = m
  · subst hm
    rw [update_self] at hv
    exact .inl ⟨rfl, (Option.some.inj hv).symm⟩
  · rw [update_of_ne hm] at hv
    by_cases hn : j = n
    · subst hn
      rw [update_self] at hv
      exact .inr (.inl ⟨hm, rfl, (Option.some.inj hv).symm⟩)
    · rw [update_of_ne hn] at hv
      exact .inr (.inr ⟨hm, hn, hv⟩)

theorem update_two_of_ne {α : Type*} {f : Nat → Option α} {m n j : Nat} {a b : α}
    (hm : j ≠ m) (hn : j ≠ n) :
    update (update f n (some a)) m (some b) j = f j := by
  rw [update_of_ne hm, update_of_ne hn]

/-- `replacement` has got the main tealet, and the old main wrapper has exited. -/
structure Replaced (s s' : World) (replacement : Nat) (w t : Wrapper) : Prop where
  old : s.wrappers s.main = some w
  run : w.status = .run
  zero : w.tealet = some 0
  thread : s.raws 0 = some { back := some s.main, stack := .thread }
  fresh : s.wrappers replacement = some t
  new : t.status = .new
  wrappers : s'.wrappers = update
    (update s.wrappers replacement (some { t with tealet := some 0, status := .run })) s.main
    (some { w with tealet := none, status := .exit })
  raws : s'.raws = update s.raws 0 (some { back := some replacement, stack := .thread })
  main : s'.main = replacement
  current : s'.current = s.current
  nextWrapper : s'.nextWrapper = s.nextWrapper
  nextRaw : s'.nextRaw = s.nextRaw
  call : s'.call = s.call
  failed : s'.failed = s.failed

theorem Replaced.of_replaceMain {replacement : Nat} {t : Wrapper} (h : Inv s)
    (ht : s.wrappers replacement = some t) (hnew : t.status = .new)
    (hs : s.replaceMain s.main replacement = some s') : ∃ w, Replaced s s' replacement w t := by
  rcases h.main with ⟨w, hw, hrun, hzero⟩
  rcases (h.back hw hzero).2 with ⟨stack, hraw, -⟩
  have hthread : stack = .thread := (h.thread 0 _ hraw).2 rfl
  subst hthread
  simp only [World.replaceMain, hw, ht, hzero, hraw, Option.some.injEq] at hs
  subst hs
  exact ⟨w, hw, hrun, hzero, hraw, ht, hnew, rfl, rfl, rfl, rfl, rfl, rfl, rfl, rfl⟩

namespace Replaced

variable {replacement : Nat} {w t : Wrapper} {j q : Nat} {v : Wrapper}

theorem ne (hr : Replaced s s' replacement w t) : s.main ≠ replacement := by
  intro heq
  have hsame := hr.old
  rw [heq, hr.fresh] at hsame
  cases hsame
  exact absurd (hr.new.symm.trans hr.run) (by simp)

/-- The raw tealets of the others are not the main one. -/
theorem ne_zero (hr : Replaced s s' replacement w t) (h : Inv s) (hj : j ≠ s.main)
    (hv : s.wrappers j = some v)
    (hq : v.tealet = some q) : q ≠ 0 := by
  rintro rfl
  exact hj (h.unique hv hr.old hq hr.zero)

theorem inv (hr : Replaced s s' replacement w t) (h : Inv s) : Inv s' where
  unlinked := by
    intro j v hv hfalse
    rw [hr.wrappers] at hv
    rcases update_two hv with ⟨-, rfl⟩ | ⟨-, -, rfl⟩ | ⟨-, -, hv⟩
    · rfl
    · cases hfalse
    · exact h.unlinked j v hv hfalse
  linked := by
    intro j v hv htrue
    rw [hr.wrappers] at hv
    rw [hr.raws]
    rcases update_two hv with ⟨-, rfl⟩ | ⟨-, rfl, rfl⟩ | ⟨hj, -, hv⟩
    · cases htrue
    · exact ⟨0, .thread, rfl, update_self _ _ _, .inr rfl⟩
    · rcases h.linked j v hv htrue with ⟨q, stack, hq, hqraw, hfits⟩
      exact ⟨q, stack, hq, by rw [update_of_ne (hr.ne_zero h hj hv hq), hqraw], hfits⟩
  owned := by
    intro q raw hq
    rw [hr.raws] at hq
    by_cases hq0 : q = 0
    · subst hq0
      rw [update_self] at hq
      cases hq
      exact ⟨replacement, _, rfl, by rw [hr.wrappers, update_of_ne hr.ne.symm, update_self], rfl⟩
    · rw [update_of_ne hq0] at hq
      rcases h.owned q raw hq with ⟨j, v, hback, hv, hvq⟩
      have hj : j ≠ s.main := by
        rintro rfl
        rw [hr.old] at hv
        cases hv
        rw [hr.zero] at hvq
        cases hvq
        exact hq0 rfl
      have hj' : j ≠ replacement := by
        rintro rfl
        rw [hr.fresh] at hv
        cases hv
        rw [(h.new_eq hr.fresh hr.new).1] at hvq
        cases hvq
      exact ⟨j, v, hback, by rw [hr.wrappers, update_two_of_ne hj hj', hv], hvq⟩
  primed := by
    intro j v hv
    rw [hr.wrappers] at hv
    rcases update_two hv with ⟨-, rfl⟩ | ⟨-, -, rfl⟩ | ⟨-, -, hv⟩
    · have hnot := h.primed s.main w hr.old
      rw [hr.run] at hnot
      simpa using hnot
    · simp [(h.new_eq hr.fresh hr.new).2]
    · exact h.primed j v hv
  main := ⟨_, by rw [hr.main, hr.wrappers, update_of_ne hr.ne.symm, update_self], rfl, rfl⟩
  thread := by
    intro q raw hq
    rw [hr.raws] at hq
    by_cases hq0 : q = 0
    · subst hq0
      rw [update_self] at hq
      cases hq
      simp
    · rw [update_of_ne hq0] at hq
      exact h.thread q raw hq
  current := by
    rcases h.current with ⟨raw, hold, hidle⟩
    rw [hr.current, hr.raws]
    by_cases hq0 : s.current = 0
    · exact ⟨_, by rw [hq0, update_self], by simp⟩
    · exact ⟨raw, by rw [update_of_ne hq0, hold], hidle⟩
  freshWrapper := by
    intro j hj
    rw [hr.nextWrapper] at hj
    have hmain := h.lt_nextWrapper hr.old
    have hreplacement := h.lt_nextWrapper hr.fresh
    rw [hr.wrappers, update_two_of_ne (by omega) (by omega)]
    exact h.freshWrapper j hj
  freshRaw := by
    intro q hq
    have hpos := h.lt_nextRaw hr.thread
    rw [hr.nextRaw] at hq
    rw [hr.raws, update_of_ne (by omega)]
    exact h.freshRaw q hq

/-- A wrapper that was not there is not there now. -/
theorem dead (hr : Replaced s s' replacement w t) (hj : s.wrappers j = none) : s'.wrappers j = none := by
  have hm : j ≠ s.main := by
    rintro rfl
    rw [hr.old] at hj
    cases hj
  have hn : j ≠ replacement := by
    rintro rfl
    rw [hr.fresh] at hj
    cases hj
  rw [hr.wrappers, update_two_of_ne hm hn]
  exact hj

/-- The main wrapper exits, the new one runs, and the others keep their status. -/
theorem moves (hr : Replaced s s' replacement w t) {v' : Wrapper} (hv : s.wrappers j = some v)
    (hv' : s'.wrappers j = some v') : v.status.moves v'.status = true := by
  rw [hr.wrappers] at hv'
  rcases update_two hv' with ⟨rfl, rfl⟩ | ⟨-, rfl, rfl⟩ | ⟨-, -, hv'⟩
  · rw [hr.old] at hv
    cases hv
    rw [hr.run]
    rfl
  · rw [hr.fresh] at hv
    cases hv
    rw [hr.new]
    rfl
  · rw [hv] at hv'
    cases hv'
    exact v.status.moves_self

end Replaced

theorem good_replaceMain {old replacement : Nat} {t : Wrapper} (h : Inv s) (hf : s.failed = none)
    (ht : s.wrappers replacement = some t) (hnew : t.status = .new) (hold : old = s.main)
    (hs : s.replaceMain old replacement = some s') : Good s s' := by
  subst hold
  rcases Replaced.of_replaceMain h ht hnew hs with ⟨w, hr⟩
  exact {
    inv := hr.inv h
    next := Nat.le_of_eq hr.nextWrapper.symm
    dead := fun _ _ hj => hr.dead hj
    mains := .inr fun v hv => by
      rw [hr.wrappers, update_self] at hv
      cases hv
      rfl
    calls := fun c hc => .inl (hr.call ▸ hc)
    moves := fun _ _ _ hv hv' => hr.moves hv hv'
    failed := fun j hj => by
      rw [hr.failed, hf] at hj
      cases hj }

theorem good_restoreFactory (h : Inv s) (undo : Option (Bool × Nat)) : Good s (s.restoreFactory undo) := by
  cases undo with
  | none => exact .same h rfl rfl rfl h.current (Nat.le_refl _) (Nat.le_refl _) fun _ => .inl
  | some old => exact .same h rfl rfl rfl h.current (Nat.le_refl _) (Nat.le_refl _) fun _ => .inl

theorem good_getOrCreateMain {undo : Option (Bool × Nat)} (h : Inv s) (hf : s.failed = none)
    (hs : s.getOrCreateMain undo e = some s') : Good s s' := by
  unfold World.getOrCreateMain at hs
  split at hs
  · cases hs
    exact .same h rfl rfl rfl h.current (Nat.le_refl _) (Nat.le_refl _) fun _ => .inl
  · split at hs
    · split at hs
      · cases hs
        exact good_restoreFactory h undo
      · cases hs
        refine .same h rfl rfl rfl h.current (Nat.le_refl _) (Nat.le_refl _) ?_
        rintro c ⟨⟩
        refine .inr ?_
        rintro old undo' ⟨⟩
        rfl
    · split at hs
      · cases hs
        exact good_restoreFactory h undo
      · have hnew := good_newWrapper h hf true
        have hreplaced := good_replaceMain hnew.inv hf (update_self _ _ _) rfl rfl hs
        refine hnew.seq hreplaced rfl rfl ?_ ?_
        · intro k v hv
          exact .inl (newWrapper_of_some h hv _)
        · intro k hk
          simp only [World.replaceMain] at hs
          split at hs
          · split at hs
            · split at hs
              · cases hs
                have hnone : (none : Option Nat) = some k := hf.symm.trans hk
                cases hnone
              · cases hs
            · cases hs
          · cases hs

theorem good_setFactory {custom : Bool} (h : Inv s) (hf : s.failed = none)
    (hs : s.setFactory custom e = some s') :
    Good s s' := by
  have hset : Good s { s with custom := custom, version := s.version + 1 } :=
    .same h rfl rfl rfl h.current (Nat.le_refl _) (Nat.le_refl _) fun _ => .inl
  refine hset.seq (good_getOrCreateMain hset.inv hf hs) rfl rfl ?_ ?_
  · intro k w hw
    exact .inl hw
  · intro k _
    rfl

/-- The factory returns: nobody has primed or run the source of a `duplicate`, and a main wrapper
that was replaced in the meantime has no raw tealet to pass on. -/
theorem good_factoryReturn {created : Option Nat} (h : Inv s) (hf : s.failed = none)
    (hc : undisturbed s (.factoryReturn created e) = true)
    (hwaiting : ∀ c, s.call = some c → ∀ old undo, c.purpose = .replaceMain old undo →
      old = s.main ∨ ∀ w, s.wrappers old = some w → w.status = .exit)
    (hs : s.factoryReturn created e = some s') : Good s s' := by
  have hreturned : Good s { s with call := none } :=
    .same h rfl rfl rfl h.current (Nat.le_refl _) (Nat.le_refl _) (by simp)
  have hcontinue : Good { s with call := none } s' → Good s s' := by
    intro hgood
    refine ⟨hgood.inv, hgood.next, hgood.dead, hgood.mains, ?_, hgood.moves, hgood.failed⟩
    intro c hcall
    rcases hgood.calls c hcall with hnone | hnew
    · cases hnone
    · exact .inr hnew
  simp only [World.factoryReturn] at hs
  split at hs
  · rename_i owner purpose hcall
    split at hs
    · cases hs
    · refine hcontinue ?_
      have husable : ∀ {k : Nat}, (created.filter fun k => (s.wrappers k).any fun w =>
          w.status = .new ∧ w.tealet = none) =
          some k → ∃ w, s.wrappers k = some w ∧ w.status = .new := by
        intro k hk
        have hany := (Option.filter_eq_some_iff.1 hk).2
        cases hw : s.wrappers k with
        | none => simp [hw] at hany
        | some w =>
          simp only [hw, Option.any_some, decide_eq_true_eq] at hany
          exact ⟨w, rfl, hany.1⟩
      split at hs
      · rename_i k src hk
        rcases husable hk with ⟨t, ht, hnew⟩
        simp only [undisturbed, hcall] at hc
        cases hw : s.wrappers src with
        | none => simp [World.finishDuplicate, hw] at hs
        | some w =>
          have hsrc : w.status = .new ∨ w.status = .stub := by simpa [hw] using hc
          exact good_finishDuplicate hreturned.inv hf hw ht hnew hsrc hs
      · rename_i k old undo hk
        rcases husable hk with ⟨t, ht, hnew⟩
        rcases hwaiting _ hcall old undo rfl with hmain | hexit
        · exact good_replaceMain hreturned.inv hf ht hnew hmain hs
        · exfalso
          cases hw : s.wrappers old with
          | none => simp [World.replaceMain, hw] at hs
          | some w =>
            have hnone := h.unlinked old w hw (by rw [hexit w hw]; rfl)
            simp [World.replaceMain, hw, ht, hnone] at hs
      · cases hs
        exact .fail hreturned.inv _
      · cases hs
        exact good_restoreFactory hreturned.inv _
  · cases hs

theorem not_held (hk : s.held k = false) : k ≠ s.main ∧ ∀ w, s.wrappers k = some w → w.status ≠ .run := by
  simp only [World.held, Bool.or_eq_false_iff, decide_eq_false_iff_not] at hk
  refine ⟨hk.1.1, fun w hw hrun => ?_⟩
  simp [hw, hrun] at hk

theorem Inv.current_ne (h : Inv s) {r : Nat} {w : Wrapper} (hk : s.wrappers k = some w)
    (hr : w.tealet = some r)
    (hrun : w.status ≠ .run) : s.current ≠ r := by
  rintro rfl
  rcases (h.back hk hr).2 with ⟨stack, hraw, -⟩
  have hidle := h.idle_of_bind hk (Option.bind_eq_some_iff.2 ⟨_, hr, hraw⟩) hrun
  rcases h.current with ⟨raw, hcurrent, hne⟩
  rw [hraw] at hcurrent
  cases hcurrent
  exact hne hidle

theorem good_clear (h : Inv s) (hf : s.failed = none) (hk : s.held k = false) (hs : s.clear k = some s') :
    Good s s' := by
  rcases not_held hk with ⟨hmain, hnotrun⟩
  unfold World.clear at hs
  split at hs
  · rename_i w hw
    have hkeep : s.put k { w with primed := false } = s' → w.status ≠ .primed → Good s s' := by
      rintro rfl hprimed
      have hfalse : w.primed = false := by
        have hiff := h.primed k w hw
        simpa [hprimed] using hiff
      have heq : { w with primed := false } = w := by
        cases w
        simp_all
      refine .same h ?_ rfl rfl h.current (Nat.le_refl _) (Nat.le_refl _) fun _ => .inl
      rw [heq, World.put, ← hw, update_eq_self]
    split at hs
    · rename_i hprimed
      rcases h.linked k w hw (by rw [hprimed]; rfl) with ⟨r, stack, hr, -, -⟩
      simp only [hr, Option.some.injEq] at hs
      subst hs
      have hne := h.current_ne hw hr (hnotrun w hw)
      refine .release h hmain (by simp [hw]) ?_ ?_ rfl (h.deleted hw hr) rfl ?_
        (Nat.le_refl _) (h.lt_nextWrapper hw)
        (Nat.le_refl _) rfl hf
      · rintro v ⟨⟩
        exact ⟨rfl, rfl, rfl⟩
      · rintro v v' hv ⟨⟩
        rw [hw] at hv
        cases hv
        rw [hprimed]
        rfl
      · rcases h.current with ⟨raw, hcurrent, hidle⟩
        exact ⟨raw, (update_of_ne hne _ _).trans hcurrent, hidle⟩
    · rename_i hprimed
      cases hs
      exact hkeep rfl hprimed
  · cases hs

theorem clear_frame (hs : s.clear k = some s') (hnotrun : ∀ w, s.wrappers k = some w → w.status ≠ .run) :
    s'.main = s.main ∧ s'.call = s.call ∧ s'.failed = s.failed ∧
      (∀ j, j ≠ k → s'.wrappers j = s.wrappers j) ∧
      ∃ w, s'.wrappers k = some w ∧ w.status ≠ .run := by
  have hkept : ∀ {s₁ : World} {w' : Wrapper}, s₁.wrappers = s.wrappers → w'.status ≠ .run →
      (∀ j, j ≠ k → (s₁.put k w').wrappers j = s.wrappers j) ∧
        ∃ w, (s₁.put k w').wrappers k = some w ∧ w.status ≠ .run := by
    intro s₁ w' heq hw'
    refine ⟨fun j hj => ?_, w', update_self _ _ _, hw'⟩
    rw [← heq]
    exact update_of_ne hj _ _
  unfold World.clear at hs
  split at hs
  · rename_i w hw
    split at hs
    · split at hs
      · cases hs
        exact ⟨rfl, rfl, rfl, hkept rfl (by simp)⟩
      · cases hs
        exact ⟨rfl, rfl, rfl, hkept rfl (hnotrun w hw)⟩
    · cases hs
      exact ⟨rfl, rfl, rfl, hkept rfl (hnotrun w hw)⟩
  · cases hs

theorem good_dealloc (h : Inv s) (hf : s.failed = none) (hk : s.held k = false)
    (hs : s.dealloc k = some s') :
    Good s s' := by
  rcases not_held hk with ⟨hmain, hnotrun⟩
  simp only [World.dealloc] at hs
  split at hs
  · rename_i s₁ hclear
    have hgood := good_clear h hf hk hclear
    have h₁ := hgood.inv
    rcases clear_frame hclear hnotrun with ⟨hmain₁, hcall₁, hfailed₁, hother, w, hw, hrun⟩
    have hne : k ≠ s₁.main := by
      rw [hmain₁]
      exact hmain
    have hfreed : Good s₁ s' ∧ s'.wrappers = update s₁.wrappers k none ∧ s'.failed = s₁.failed := by
      rcases h₁.current with ⟨raw, hcurrent, hidle⟩
      cases hr : w.tealet with
      | none =>
        simp only [hw, hr, Option.bind_some, Option.some.injEq] at hs
        subst hs
        refine ⟨?_, rfl, rfl⟩
        refine .release h₁ hne (by simp [hw]) (by simp) (by simp) rfl
          (h₁.kept ?_) rfl ⟨raw, hcurrent, hidle⟩
          (Nat.le_refl _) (h₁.lt_nextWrapper hw) (Nat.le_refl _) rfl (hfailed₁.trans hf)
        intro v hv
        rw [hw] at hv
        cases hv
        exact hr
      | some r =>
        have hzero : r ≠ 0 := by
          rintro rfl
          rcases h₁.main with ⟨v, hv, -, hvr⟩
          exact hne (h₁.unique hw hv hr hvr)
        simp only [hw, hr, Option.bind_some, hzero, if_false, Option.some.injEq] at hs
        subst hs
        refine ⟨?_, rfl, rfl⟩
        have hother' := h₁.current_ne hw hr hrun
        exact .release h₁ hne (by simp [hw]) (by simp) (by simp) rfl (h₁.deleted hw hr) rfl
          ⟨raw, (update_of_ne hother' _ _).trans hcurrent, hidle⟩ (Nat.le_refl _) (h₁.lt_nextWrapper hw)
          (Nat.le_refl _) rfl (hfailed₁.trans hf)
    rcases hfreed with ⟨hfreed, hwrappers, hfailed⟩
    refine hgood.seq hfreed hmain₁ hcall₁ ?_ ?_
    · intro j v hv
      by_cases hj : j = k
      · subst hj
        exact .inr (.inr (by rw [hwrappers, update_self]))
      · exact .inl ((hother j hj).trans hv)
    · intro j hj
      rw [hfailed, hfailed₁, hf] at hj
      cases hj
  · cases hs

theorem good_act {a : Act} (h : Inv s) (hf : s.failed = none) (hc : undisturbed s a = true)
    (hwaiting : ∀ c, s.call = some c → ∀ old undo, c.purpose = .replaceMain old undo →
      old = s.main ∨ ∀ w, s.wrappers old = some w → w.status = .exit)
    (hs : act s a = some s') : Good s s' := by
  cases a with
  | new exact e => exact good_new h hf hs
  | stub k e =>
    simp only [act] at hs
    split_ifs at hs
    exact good_stub h hf hs
  | setStub target source e => exact good_setStub h hf hs
  | duplicate src e => exact good_duplicate h hf hs
  | prime k e => exact good_prime h hf hs
  | run k e => exact good_run h hf hs
  | switch k e => exact good_switch h hf hs
  | throw k e => exact good_throw h hf hs
  | exit returnTo fallback e => exact good_exit h hf hs
  | getOrCreateMain e => exact good_getOrCreateMain h hf hs
  | setFactory custom e => exact good_setFactory h hf hs
  | foreignFactory custom =>
    cases hs
    exact .same h rfl rfl rfl h.current (Nat.le_refl _) (Nat.le_refl _) fun _ => .inl
  | factoryReturn created e => exact good_factoryReturn h hf hc hwaiting hs
  | clear k =>
    simp only [act] at hs
    split at hs
    · cases hs
    · rename_i hk
      exact good_clear h hf (by simpa using hk) hs
  | dealloc k =>
    simp only [act] at hs
    split at hs
    · cases hs
    · rename_i hk
      exact good_dealloc h hf (by simpa using hk) hs

end Operations

/-! ## Runs -/

/-- The invariant of a run: a wrapper that a factory call was to replace, and that was replaced in
the meantime, has exited. -/
structure Sound (s : World) : Prop where
  inv : Inv s
  waiting : ∀ c, s.call = some c → ∀ old undo, c.purpose = .replaceMain old undo →
    old < s.nextWrapper ∧ (old = s.main ∨ ∀ w, s.wrappers old = some w → w.status = .exit)

namespace Sound

variable {s s' : World} {a : Act}

theorem init : Sound World.init :=
  ⟨.init, by simp [World.init]⟩

theorem good (h : Sound s) (hc : undisturbed s a = true) (hs : step s a = some s') :
    Good { s with failed := none } s' := by
  have hcleared : Good s { s with failed := none } :=
    .same h.inv rfl rfl rfl h.inv.current (Nat.le_refl _) (Nat.le_refl _) fun _ => .inl
  have hc' : undisturbed { s with failed := none } a = true := by
    cases a <;> exact hc
  exact good_act hcleared.inv rfl hc' (fun c hcall old undo hp => (h.waiting c hcall old undo hp).2) hs

theorem steady (h : Sound s) (hc : undisturbed s a = true) : Steady s a := by
  intro s' hs
  have hgood := h.good hc hs
  exact ⟨hgood.moves, hgood.failed⟩

theorem step (h : Sound s) (hc : undisturbed s a = true) (hs : step s a = some s') : Sound s' := by
  have hgood := h.good hc hs
  refine ⟨hgood.inv, fun c hcall old undo hp => ?_⟩
  rcases hgood.calls c hcall with hold | hnew
  · rcases h.waiting c hold old undo hp with ⟨hlt, hwas⟩
    refine ⟨Nat.lt_of_lt_of_le hlt hgood.next, ?_⟩
    rcases hwas with rfl | hexit
    · rcases hgood.mains with hmain | hexit
      · exact .inl hmain.symm
      · exact .inr hexit
    · -- an exited wrapper stays so, and one that is gone does not come back
      refine .inr fun w' hw' => ?_
      cases hw : s.wrappers old with
      | none =>
        rw [hgood.dead old hlt hw] at hw'
        cases hw'
      | some w =>
        have hmoves := hgood.moves old w w' hw hw'
        rw [hexit w hw] at hmoves
        cases hstatus : w'.status <;> simp_all [Status.moves]
  · have hmain := hnew old undo hp
    rcases hgood.inv.main with ⟨w, hw, -⟩
    exact ⟨hmain ▸ hgood.inv.lt_nextWrapper hw, .inl hmain⟩

end Sound

/-- In a run in which no factory primes or runs the source of the `duplicate` that called it, the
pointers and the states agree in every state, every state moves along its ways, and an operation
that fails leaves that of its target. -/
theorem wrapper_linkage (as : List Act) (h : Along step (fun s a => undisturbed s a = true) World.init as) :
    Always step Linked World.init as ∧ Along step Steady World.init as := by
  have hstep : ∀ s a s', Sound s → undisturbed s a = true → step s a = some s' → Sound s' :=
    fun _ _ _ h hc hs => h.step hc hs
  have hsteady : ∀ s a, Sound s → undisturbed s a = true → Steady s a :=
    fun _ _ h hc => h.steady hc
  refine ⟨?_, ?_⟩
  · exact always_of_along (fun _ h => Inv.linkage (Sound.inv h)) hstep as _ .init h
  · exact along_of_along hsteady hstep as _ .init h

/-- A stub, and a factory of Python code that makes the new main wrapper. -/
def configured : List Act :=
  [.new true {}, .stub 1 {}, .setFactory true {}, .new false {}, .factoryReturn (some 2) {}]

/-- The factory makes the wrapper of a copy, which is primed and switched to; it returns to the main
tealet. -/
def duplicates : List Act :=
  configured ++ [.duplicate 1 {}, .new false {}, .factoryReturn (some 3) {}, .prime 3 {}, .switch 3 {}] ++
    [.exit (some 2) false {}, .duplicate 1 {}, .new false {},
      .factoryReturn (some 4) { track := false }, .dealloc 4]

theorem wrapper_linkage_duplicates :
    (exec step World.init duplicates).map (fun s => (s.wrappers 1, s.wrappers 3, s.wrappers 4)) =
        some (some { exact := true, status := .stub, tealet := some 1, tracked := true },
          some { exact := false, status := .exit }, none) ∧
      Along step (fun s a => undisturbed s a = true) World.init duplicates ∧
      Always step Linked World.init duplicates ∧ Along step Steady World.init duplicates :=
  ⟨by decide, by decide, wrapper_linkage duplicates (by decide)⟩

/-- The factory primes the source before it returns. -/
def primesSource : List Act :=
  configured ++ [.duplicate 1 {}, .new false {}, .prime 1 {}, .factoryReturn (some 3) {}]

/-- The copy is primed, and has no raw tealet. -/
theorem duplicate_unlinked :
    (exec step World.init primesSource).map (fun s => s.wrappers 3) =
        some (some { exact := false, status := .primed, primed := true }) ∧
      ¬ Always step Linked World.init primesSource := by
  refine ⟨by decide, fun h => ?_⟩
  have hcopy : Always step (fun s => (s.wrappers 3).all (fun w => w.tealet.isSome = w.status.linked) = true)
      World.init primesSource := by
    refine h.mono fun s hs => ?_
    cases hw : s.wrappers 3 with
    | none => rfl
    | some w =>
      simpa using hs.raw 3 w hw
  revert hcopy
  decide

end Wrappers
end Pytealet.Tealet
