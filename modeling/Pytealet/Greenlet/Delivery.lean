import Pytealet.Greenlet.Parents

/-!
# Delivery — where the end of a greenlet is delivered

A greenlet that ends goes to its nearest parent that has started.  The rule that a parent that has
not started is started with the result is left to the call in which that greenlet waits: it looks
only at the immediate parent of the greenlet that the call has started, and passes an exception on
only if it has thrown one.
-/

namespace Pytealet.Greenlet

open Lib Lib.Transition Lib.Climb Function

variable {α ε : Type*}

/-- The nearest parent of the current greenlet that is not dead gets the message: it is started with
it, or the call in which it waits returns or raises it. -/
def Delivered (s : State α ε) (m : Message α ε) (s' : State α ε) : Prop :=
  ∃ q, s.switchParent s.current = some q ∧
    s'.event = some (if s.life q = .unstarted then .started q m else .returned q m)

/-- The greenlet that has not started and to which `p` passes the message on, if the current
greenlet ends: `p` waits in the first start of a greenlet that is then dead, and of which it is the
parent. -/
def passesOn (s : State α ε) (p : Nat) (m : Message α ε) : Option Nat :=
  match s.wait p with
  | .first x threw =>
    if (x = s.current ∨ s.life x = .dead) ∧ (m.isRaise = true → threw = true) then
      (s.parent x).filter fun q => s.life q = .unstarted
    else none
  | .later => none

/-- The nearest parent that is not dead has started and does not pass the message on; or it has not,
and the nearest that has started passes it on to it. -/
def straight (s : State α ε) (m : Message α ε) : Bool :=
  match s.switchParent s.current, s.liveParent s.current with
  | some q, some p => if s.life q = .unstarted then passesOn s p m = some q else passesOn s q m = none
  | _, _ => false

/-- The message of a transfer. -/
def Act.message (exit : ε → Bool) : Act α ε → Option (Message α ε)
  | .switch _ a _ => some (.payload (.args a))
  | .throw _ e _ => some (.raise e)
  | .finish o => some (o.message exit)
  | _ => none

/-! ## The tree -/

/-- The parents form a tree whose root is the main greenlet. -/
structure Inv (s : State α ε) : Prop where
  size : 0 < s.size
  parent : ∀ x y, s.parent x = some y → x < s.size ∧ y < s.size
  top : ∀ x, x < s.size → s.parent x = none → x = 0
  main : s.parent 0 = none ∧ s.life 0 = .active
  acyclic : ∀ x, Acc (Above s.parent) x
  current : s.current < s.size ∧ s.life s.current = .active

namespace Inv

variable {s s' : State α ε}

theorem init : Inv (init : State α ε) := by
  refine ⟨Nat.one_pos, by simp [Greenlet.init], ?_, ⟨rfl, rfl⟩, ?_, ⟨Nat.one_pos, rfl⟩⟩
  · intro x hx _
    have hx' : x < 1 := hx
    omega
  · intro x
    refine Acc.intro x fun y hy => ?_
    cases hy

theorem nearest (h : Inv s) {g : Nat} {f : Nat → Bool} (hg : g < s.size) (hne : g ≠ 0) (hf : f 0 = true) :
    ∃ p, (s.parent g).bind (climb s.parent f s.size) = some p := by
  cases hp : s.parent g with
  | none => exact absurd (h.top g hg hp) hne
  | some p =>
    have hlt := (h.parent g p hp).2
    have htop : ∀ x, x < s.size → s.parent x = none → f x = true := by
      intro x hx hnone
      rw [h.top x hx hnone]
      exact hf
    exact Option.isSome_iff_exists.1 (climb_isSome (fun x y _ hxy => (h.parent x y hxy).2) htop
      (h.acyclic p) hlt)

theorem switchParent (h : Inv s) {g : Nat} (hg : g < s.size) (hne : g ≠ 0) :
    ∃ q, s.switchParent g = some q :=
  h.nearest hg hne (by simp [h.main.2])

theorem liveParent (h : Inv s) {g : Nat} (hg : g < s.size) (hne : g ≠ 0) : ∃ p, s.liveParent g = some p :=
  h.nearest hg hne (by simp [h.main.2])

theorem lt_of_meets (h : Inv s) {x y : Nat} (hx : x < s.size) (hmeets : Meets s.parent x y) :
    y < s.size := by
  induction hmeets with
  | refl => exact hx
  | tail _ hstep _ => exact (h.parent _ _ hstep).2

theorem of_bind (h : Inv s) {g p : Nat} {f : Nat → Bool}
    (hp : (s.parent g).bind (climb s.parent f s.size) = some p) :
    p < s.size ∧ f p = true := by
  rcases Option.bind_eq_some_iff.1 hp with ⟨q, hq, hclimb⟩
  rcases climb_accepts hclimb with ⟨hf, hmeets⟩
  exact ⟨h.lt_of_meets (h.parent g q hq).2 hmeets, hf⟩

end Inv

theorem liveParent_eq {s : State α ε} {g q : Nat} (hq : s.switchParent g = some q)
    (hlife : s.life q = .active) :
    s.liveParent g = some q := by
  rcases Option.bind_eq_some_iff.1 hq with ⟨p, hp, hclimb⟩
  refine Option.bind_eq_some_iff.2 ⟨p, hp, ?_⟩
  refine climb_mono ?_ hclimb (by simp [hlife])
  intro x hx
  have hx' : s.life x = .active := by simpa using hx
  simp [hx']

/-! ## What a step keeps -/

section Steps

variable {s s' : State α ε}

theorem Inv.same (h : Inv s) (hsize : s'.size = s.size) (hparent : s'.parent = s.parent)
    (hmain : s'.life 0 = .active)
    (hcurrent : s'.current < s.size ∧ s'.life s'.current = .active) : Inv s' := by
  refine ⟨?_, ?_, ?_, ⟨?_, hmain⟩, ?_, ⟨?_, hcurrent.2⟩⟩
  · rw [hsize]
    exact h.size
  · rw [hsize, hparent]
    exact h.parent
  · rw [hsize, hparent]
    exact h.top
  · rw [hparent]
    exact h.main.1
  · rw [hparent]
    exact h.acyclic
  · rw [hsize]
    exact hcurrent.1

theorem Inv.start (h : Inv s) {q : Nat} (m : Message α ε) (hq : q < s.size) : Inv (s.start q m) := by
  have hlife : ∀ x, (s.start q m).life x = if x = q then .active else s.life x :=
    fun x => update_apply s.life q .active x
  refine h.same rfl rfl ?_ ⟨hq, ?_⟩
  · rw [hlife, h.main.2]
    exact ite_self _
  · exact (hlife q).trans (if_pos rfl)

theorem unstartedParent_eq_some {x q : Nat} (h : s.unstartedParent x = some q) : s.parent x = some q := by
  unfold State.unstartedParent at h
  split at h
  · exact (Option.filter_eq_some_iff.1 h).1
  · cases h

theorem Inv.resume (h : Inv s) {p : Nat} (m : Message α ε) (hp : p < s.size) (hlife : s.life p = .active) :
    Inv (s.resume p m) := by
  have hreturned : Inv { s with current := p, entry := none, event := some (.returned p m) } :=
    h.same rfl rfl h.main.2 ⟨hp, hlife⟩
  simp only [State.resume]
  split
  · split
    · rename_i q v hq
      exact hreturned.start _ (h.parent _ q (unstartedParent_eq_some hq)).2
    · rename_i q e hq
      split
      · exact hreturned.start _ (h.parent _ q (unstartedParent_eq_some hq)).2
      · exact hreturned
    · exact hreturned
  · exact hreturned

theorem Inv.enter (h : Inv s) {x : Nat} (m : Message α ε) (late : Bool) (hx : x < s.size)
    (hlife : s.life x ≠ .dead) :
    Inv (s.enter x m late) := by
  unfold State.enter
  split
  · exact h.start m hx
  · rename_i hstarted
    have hactive : s.life x = .active := by
      cases hcase : s.life x with
      | unstarted => exact absurd hcase hstarted
      | active => rfl
      | dead => exact absurd hcase hlife
    have hwaits : Inv { s with
        wait := update s.wait s.current (if late then .first x m.isRaise else .later) } :=
      h.same rfl rfl h.main.2 h.current
    exact hwaits.resume m hx hactive

theorem Inv.switchOrThrow (h : Inv s) {exit : ε → Bool} {x : Nat} {m : Message α ε}
    {late : Bool} (hx : x < s.size)
    (hs : s.switchOrThrow exit x m late = some s') : Inv s' := by
  have hup : ∀ {q : Nat}, s.switchParent x = some q → Inv (s.enter q m late) := by
    intro q hq
    rcases h.of_bind hq with ⟨hlt, hlife⟩
    exact h.enter m late hlt (by simpa using hlife)
  unfold State.switchOrThrow at hs
  split at hs
  · split at hs
    · rename_i q v hq
      cases hs
      exact hup hq
    · rename_i q e hq
      split at hs
      · cases hs
        exact h.same rfl rfl h.main.2 h.current
      · cases hs
        exact hup hq
    · cases hs
  · rename_i hlife
    cases hs
    exact h.enter m late hx hlife

theorem Inv.finish (h : Inv s) {exit : ε → Bool} {o : Outcome α ε} (hne : s.current ≠ 0)
    (hs : s.finish exit o = some s') : Inv s' := by
  simp only [State.finish] at hs
  split at hs
  · rename_i q p hq hp
    cases hs
    rcases h.of_bind hp with ⟨hlt, hlife⟩
    have hactive : s.life p = .active := by simpa using hlife
    have hother : p ≠ s.current := by
      rintro rfl
      rcases Option.bind_eq_some_iff.1 hp with ⟨y, hy, hclimb⟩
      exact not_meets_self (h.acyclic _) hy (climb_accepts hclimb).2
    have hdead : ∀ x, x ≠ s.current → update s.life s.current Life.dead x = s.life x :=
      fun x hx => update_of_ne hx _ _
    have hmain : update s.life s.current Life.dead 0 = .active := (hdead 0 hne.symm).trans h.main.2
    -- between the two the dead greenlet is current still
    have hgone : Inv { s with life := update s.life s.current .dead, current := 0 } :=
      h.same rfl rfl hmain ⟨h.size, hmain⟩
    exact hgone.resume (o.message exit) hlt ((hdead p hother).trans hactive)
  · cases hs

theorem Inv.reparent (h : Inv s) {g value : Nat} (hne : g ≠ 0) (hvalue : value < s.size)
    (hnot : ¬ Meets s.parent value g) (hparent : s'.parent = update s.parent g (some value))
    (hle : s.size ≤ s'.size) (hg : g < s'.size) (hnew : ∀ x, x < s'.size → x ≠ g → x < s.size)
    (hlife : s'.life = s.life) (hcurrent : s'.current = s.current) : Inv s' := by
  refine ⟨lt_of_lt_of_le h.size hle, ?_, ?_, ⟨?_, ?_⟩, ?_, ?_⟩
  · intro x y hxy
    rw [hparent] at hxy
    by_cases hx : x = g
    · subst hx
      rw [update_self] at hxy
      cases hxy
      exact ⟨hg, lt_of_lt_of_le hvalue hle⟩
    · rw [update_of_ne hx] at hxy
      rcases h.parent x y hxy with ⟨hx, hy⟩
      exact ⟨lt_of_lt_of_le hx hle, lt_of_lt_of_le hy hle⟩
  · intro x hlt hx
    rw [hparent] at hx
    by_cases hxg : x = g
    · subst hxg
      rw [update_self] at hx
      cases hx
    · rw [update_of_ne hxg] at hx
      exact h.top x (hnew x hlt hxg) hx
  · rw [hparent, update_of_ne hne.symm]
    exact h.main.1
  · rw [hlife]
    exact h.main.2
  · rw [hparent]
    exact acc_update h.acyclic hnot
  · rw [hlife, hcurrent]
    exact ⟨lt_of_lt_of_le h.current.1 hle, h.current.2⟩

theorem Inv.setParent (h : Inv s) {g value : Nat} (hg : g < s.size) (hvalue : value < s.size)
    (hs : s.setParent g value = some s') : Inv s' := by
  unfold State.setParent at hs
  split at hs
  · cases hs
  · rename_i hne
    split at hs
    · cases hs
    · rename_i hcycle
      cases hs
      have hnot : ¬ Meets s.parent value g := by
        intro hmeets
        have htop : ∀ x, x < s.size → s.parent x = none →
            (decide (x = g) || (s.parent x).isNone) = true := by
          intro x _ hx
          simp [hx]
        have hsome := climb_isSome (fun x y _ hxy => (h.parent x y hxy).2) htop (h.acyclic value) hvalue
        rcases Option.isSome_iff_exists.1 hsome with ⟨z, hz⟩
        -- the walk stops at the top, from which `g` is not met
        have hz' : z ≠ g := by
          rintro rfl
          exact hcycle hz
        have htopz : s.parent z = none := by simpa [hz'] using (climb_accepts hz).1
        rcases (climb_first hz hmeets (by simp)).cases with heq | ⟨y, hy, -⟩
        · exact hz' heq.symm
        · rw [htopz] at hy
          cases hy
      exact h.reparent hne hvalue hnot rfl (le_refl _) hg (fun x hx _ => hx) rfl rfl

theorem Inv.new (h : Inv s) {parent : Nat} (hp : parent < s.size) :
    Inv ({ s with size := s.size + 1, parent := update s.parent s.size (some parent), event := none } :
      State α ε) := by
  have hnot : ¬ Meets s.parent parent s.size := fun hmeets => lt_irrefl _ (h.lt_of_meets hp hmeets)
  refine h.reparent (Nat.ne_of_gt h.size) hp hnot rfl (Nat.le_succ _) (Nat.lt_succ_self _) ?_ rfl rfl
  intro x hx hne
  have hx' : x < s.size + 1 := hx
  omega

variable [DecidableEq ε] [DecidableEq α]

/-- No step closes a cycle of parents. -/
theorem Inv.step (h : Inv s) {exit : ε → Bool} {a : Act α ε} (hs : step exit s a = some s') : Inv s' := by
  cases a with
  | new parent =>
    simp only [Greenlet.step] at hs
    split at hs
    · rename_i hok
      cases hs
      exact h.new hok.1
    · cases hs
  | setParent g value =>
    simp only [Greenlet.step] at hs
    split at hs
    · rename_i hok
      exact h.setParent hok.1 hok.2.1 hs
    · cases hs
  | switch x a late =>
    simp only [Greenlet.step] at hs
    split at hs
    · rename_i hok
      exact h.switchOrThrow hok.1 hs
    · cases hs
  | throw x e late =>
    simp only [Greenlet.step] at hs
    split at hs
    · rename_i hok
      exact h.switchOrThrow hok.1 hs
    · cases hs
  | finish o =>
    simp only [Greenlet.step] at hs
    split at hs
    · cases hs
    · rename_i hne
      split at hs
      · exact h.finish hne hs
      · cases hs

end Steps

/-! ## The end of a greenlet -/

section Ends

variable {s s' : State α ε}

theorem unstartedParent_dead (t : State α ε) (hactive : s.life s.current = .active)
    (hlife : t.life = update s.life s.current .dead) (hparent : t.parent = s.parent) (x : Nat) :
    t.unstartedParent x =
      if x = s.current ∨ s.life x = .dead then (s.parent x).filter fun q => s.life q =
        .unstarted else none := by
  have hdead : ∀ y, update s.life s.current .dead y = .dead ↔ y = s.current ∨ s.life y = .dead := by
    intro y
    by_cases hy : y = s.current
    · subst hy
      simp
    · rw [update_of_ne hy]
      simp [hy]
  have hunstarted : ∀ y, update s.life s.current .dead y = .unstarted ↔ s.life y = .unstarted := by
    intro y
    by_cases hy : y = s.current
    · subst hy
      simp [hactive]
    · rw [update_of_ne hy]
  simp only [State.unstartedParent, hlife, hparent, hdead, hunstarted]

/-- The greenlet that the call in which `p` waits starts with the message. -/
def passed (s : State α ε) (p : Nat) (m : Message α ε) : Option Nat :=
  match s.wait p with
  | .first x threw => if m.isRaise = true → threw = true then s.unstartedParent x else none
  | .later => none

theorem resume_cases (s : State α ε) (p : Nat) (m : Message α ε) :
    (∃ y, passed s p m = some y ∧ (s.resume p m).event = some (.started y m)) ∨
      passed s p m = none ∧ (s.resume p m).event = some (.returned p m) ∧ (s.resume p m).current = p := by
  simp only [State.resume, passed]
  cases s.wait p with
  | later => exact .inr ⟨rfl, rfl, rfl⟩
  | first x threw =>
    have hparent : { s with current := p, entry := none, event := some (.returned p m) }.unstartedParent x =
        s.unstartedParent x := rfl
    simp only [hparent]
    cases s.unstartedParent x with
    | none => exact .inr ⟨ite_self _, rfl, rfl⟩
    | some y =>
      cases m with
      | payload v => exact .inl ⟨y, by simp [Message.isRaise], rfl⟩
      | raise e =>
        cases threw with
        | true => exact .inl ⟨y, by simp, rfl⟩
        | false => exact .inr ⟨by simp [Message.isRaise], rfl, rfl⟩

/-- What the end of the current greenlet comes to: its nearest parent that has started passes it on,
or gets it. -/
theorem finish_event (exit : ε → Bool) (o : Outcome α ε) {p q : Nat} (hactive : s.life s.current = .active)
    (hq : s.switchParent s.current = some q) (hp : s.liveParent s.current = some p) :
    ∃ s', s.finish exit o = some s' ∧
      ((∃ y, passesOn s p (o.message exit) = some y ∧ s'.event = some (.started y (o.message exit))) ∨
        passesOn s p (o.message exit) = none ∧ s'.event = some (.returned p (o.message exit))) := by
  have hpasses : passed { s with life := update s.life s.current .dead } p (o.message exit) =
      passesOn s p (o.message exit) := by
    simp only [passed, passesOn]
    cases s.wait p with
    | later => rfl
    | first x threw =>
      have hparent :=
        unstartedParent_dead { s with life := update s.life s.current .dead } hactive rfl rfl x
      simp only [hparent]
      by_cases hx : x = s.current ∨ s.life x = .dead
      · simp only [hx, if_true, true_and]
      · simp only [hx, if_false, false_and, ite_self]
  simp only [State.finish, hq, hp]
  refine ⟨_, rfl, ?_⟩
  rw [← hpasses]
  rcases resume_cases { s with life := update s.life s.current .dead } p (o.message exit) with hsome | hnone
  · exact .inl hsome
  · exact .inr ⟨hnone.1, hnone.2.1⟩

theorem resume_returned {p p' : Nat} {m m' : Message α ε}
    (h : (s.resume p m).event = some (.returned p' m')) :
    m' = m ∧ (s.resume p m).current = p' := by
  rcases resume_cases s p m with ⟨y, -, hevent⟩ | ⟨-, hevent, hcurrent⟩
  · rw [hevent] at h
    cases h
  · rw [hevent] at h
    cases h
    exact ⟨rfl, hcurrent⟩

theorem enter_returned {x p : Nat} {m m' : Message α ε} {late : Bool}
    (h : (s.enter x m late).event = some (.returned p m')) : m' = m ∧ (s.enter x m late).current = p := by
  unfold State.enter at h ⊢
  split at h
  · cases h
  · exact resume_returned h

theorem switchOrThrow_returned {exit : ε → Bool} {x p : Nat} {m m' : Message α ε} {late : Bool}
    (hs : s.switchOrThrow exit x m late = some s') (h : s'.event = some (.returned p m')) :
    m' = m ∧ s'.current = p := by
  unfold State.switchOrThrow at hs
  split at hs
  · split at hs
    · cases hs
      exact enter_returned h
    · split at hs
      · cases hs
        cases h
      · cases hs
        exact enter_returned h
    · cases hs
  · cases hs
    exact enter_returned h

variable [DecidableEq ε] [DecidableEq α]

theorem step_returned {exit : ε → Bool} {a : Act α ε} {p : Nat} {m : Message α ε}
    (hs : step exit s a = some s')
    (h : s'.event = some (.returned p m)) : a.message exit = some m ∧ s'.current = p := by
  cases a with
  | new parent =>
    simp only [step] at hs
    split at hs <;> cases hs
    cases h
  | setParent g value =>
    simp only [step, State.setParent] at hs
    split at hs
    · split at hs
      · cases hs
      · split at hs <;> cases hs
        cases h
    · cases hs
  | switch x a late =>
    simp only [step] at hs
    split at hs
    · rcases switchOrThrow_returned hs h with ⟨rfl, hcurrent⟩
      exact ⟨rfl, hcurrent⟩
    · cases hs
  | throw x e late =>
    simp only [step] at hs
    split at hs
    · rcases switchOrThrow_returned hs h with ⟨rfl, hcurrent⟩
      exact ⟨rfl, hcurrent⟩
    · cases hs
  | finish o =>
    simp only [step, State.finish] at hs
    split at hs
    · cases hs
    · split at hs
      · split at hs
        · cases hs
          rcases resume_returned h with ⟨rfl, hcurrent⟩
          exact ⟨rfl, hcurrent⟩
        · cases hs
      · cases hs

/-- In every reachable state: when the current greenlet ends, its end is delivered to its nearest
parent that is not dead exactly if `straight` says so; and a call that returns, returns the payload
of the transfer that resumed it. -/
theorem parent_delivery (exit : ε → Bool) {s : State α ε} (hs : Reachable (step exit) init s) :
    (∀ o : Outcome α ε, s.current ≠ 0 → s.entry.all (o = .raised ·) →
      ∃ s', step exit s (.finish o) = some s' ∧
        (Delivered s (o.message exit) s' ↔ straight s (o.message exit) = true)) ∧
    ∀ a s' p m, step exit s a = some s' → s'.event = some (.returned p m) →
      a.message exit = some m ∧ s'.current = p := by
  have hinv : Inv s := hs.invariant .init fun _ _ _ h hs => h.step hs
  refine ⟨?_, fun a s' p m hstep hevent => step_returned hstep hevent⟩
  intro o hmain hentry
  rcases hinv.switchParent hinv.current.1 hmain with ⟨q, hq⟩
  rcases hinv.liveParent hinv.current.1 hmain with ⟨p, hp⟩
  rcases finish_event exit o hinv.current.2 hq hp with ⟨s', hfinish, hevent⟩
  refine ⟨s', ?_, ?_⟩
  · simp only [step, if_neg hmain, if_pos hentry, hfinish]
  simp only [Delivered, straight, hq, hp, Option.some.injEq, exists_eq_left']
  by_cases hlife : s.life q = .unstarted
  · simp only [hlife, if_true, decide_eq_true_eq]
    rcases hevent with ⟨y, hy, hevent⟩ | ⟨hnone, hevent⟩
    · rw [hevent, hy]
      simp
    · rw [hevent, hnone]
      simp
  · -- it has started, so it is the one that control goes to
    have hactive : s.life q = .active := by
      have hnot := (hinv.of_bind hq).2
      cases hcase : s.life q <;> simp_all
    have heq : p = q := by
      rw [liveParent_eq hq hactive] at hp
      exact (Option.some.inj hp).symm
    subst heq
    simp only [hlife, if_false, decide_eq_true_eq]
    rcases hevent with ⟨y, hy, hevent⟩ | ⟨hnone, hevent⟩
    · rw [hevent, hy]
      simp
    · rw [hevent, hnone]
      simp

end Ends

/-! ## The parents -/

namespace Inv

variable {s : State α ε}

theorem meets_main (h : Inv s) {x : Nat} (hx : x < s.size) : Meets s.parent x 0 := by
  have htop : ∀ y, y < s.size → s.parent y = none → (s.parent y).isNone = true := fun y _ hy => by simp [hy]
  have hsome := climb_isSome (fun y z _ hyz => (h.parent y z hyz).2) htop (h.acyclic x) hx
  rcases Option.isSome_iff_exists.1 hsome with ⟨z, hz⟩
  rcases climb_accepts hz with ⟨hnone, hmeets⟩
  rwa [h.top z (h.lt_of_meets hx hmeets) (Option.isNone_iff_eq_none.1 hnone)] at hmeets

/-- The walk of `__setattr__` comes to `g` exactly if `g` is on the chain. -/
theorem climb_eq_iff (h : Inv s) {g v : Nat} (hv : v < s.size) :
    climb s.parent (fun p => p = g || (s.parent p).isNone) s.size v = some g ↔ Meets s.parent v g := by
  refine ⟨fun hclimb => (climb_accepts hclimb).2, fun hmeets => ?_⟩
  have hsome := climb_isSome (f := fun p => p = g || (s.parent p).isNone)
    (fun y z _ hyz => (h.parent y z hyz).2) (fun y _ hy => by simp [hy]) (h.acyclic v) hv
  rcases Option.isSome_iff_exists.1 hsome with ⟨z, hz⟩
  rcases (climb_first hz hmeets (by simp)).cases with rfl | ⟨y, hy, -⟩
  · exact hz
  · -- the walk has not stopped at the top, which meets nothing else
    have hf := (climb_accepts hz).1
    simp only [hy, Option.isNone_some, Bool.or_false, decide_eq_true_eq] at hf
    rwa [hf] at hz

end Inv

/-- In every reachable state: the parents of every greenlet lead to the main one, so that one that
has ended always has a parent to go to; and an assignment to `parent` is refused exactly if it is
that of the main greenlet, or would close a cycle. -/
theorem parents_lead_to_main [DecidableEq α] [DecidableEq ε] (exit : ε → Bool) {s : State α ε}
    (hs : Reachable (step exit) init s) :
    (∀ x, x < s.size → Meets s.parent x 0 ∧ (x ≠ 0 → ∃ q, s.switchParent x = some q ∧ s.life q ≠ .dead)) ∧
    ∀ g v, v < s.size → (s.setParent g v = none ↔ g = 0 ∨ Meets s.parent v g) := by
  have hinv : Inv s := hs.invariant .init fun _ _ _ h hs => h.step hs
  refine ⟨fun x hx => ⟨hinv.meets_main hx, fun hne => ?_⟩, fun g v hv => ?_⟩
  · rcases hinv.switchParent hx hne with ⟨q, hq⟩
    exact ⟨q, hq, by simpa using (hinv.of_bind hq).2⟩
  · rw [← hinv.climb_eq_iff hv]
    unfold State.setParent
    by_cases hmain : g = 0 <;> simp [hmain]

theorem parents_lead_to_main_cycle :
    ∃ s : State Nat Nat, exec (step fun _ => false) init [.new 0, .new 1] = some s ∧ Meets s.parent 2 0 ∧
      s.setParent 1 2 = none := by
  have hrun : ∃ s : State Nat Nat, exec (step fun _ => false) init [.new 0, .new 1] = some s ∧ s.size = 3 ∧
      s.parent 2 = some 1 := ⟨_, rfl, rfl, rfl⟩
  rcases hrun with ⟨s, hexec, hsize, hparent⟩
  have hlead := parents_lead_to_main _ (Reachable.exec _ .refl hexec)
  exact ⟨s, hexec, (hlead.1 2 (by omega)).1, (hlead.2 1 2 (by omega)).2 (.inr (Meets.head hparent .refl))⟩

/-! ## Two runs -/

/-- Greenlet 1 has not started; greenlet 2 is its child.  The main greenlet starts 2, which ends
with a value. -/
def endsInFirstCall : List (Act Nat Nat) :=
  [.new 0, .new 1, .switch 2 5 false]

theorem parent_delivery_endsInFirstCall :
    ∃ s, exec (step fun _ => false) init endsInFirstCall = some s ∧ s.current = 2 ∧
      ∃ s', step (fun _ => false) s (.finish (.value 7)) = some s' ∧ Delivered s (.payload (.args 7)) s' ∧
        s'.event = some (.started 1 (.payload (.args 7))) := by
  have hrun : ∃ s, exec (step fun _ => false) init endsInFirstCall = some s ∧
      s.current = 2 ∧ s.entry = none ∧
      straight s (.payload (.args 7)) = true ∧ s.switchParent 2 = some 1 ∧ s.life 1 = .unstarted :=
    ⟨_, rfl, by decide, by decide, by decide, by decide, by decide⟩
  rcases hrun with ⟨s, hexec, hcurrent, hentry, hstraight, hparent, hlife⟩
  have hreachable : Reachable (step fun _ => false) init s := Reachable.exec endsInFirstCall .refl hexec
  rcases (parent_delivery _ hreachable).1 (.value 7) (by simp [hcurrent]) (by simp [hentry]) with
    ⟨s', hs', hiff⟩
  have hdelivered : Delivered s (.payload (.args 7)) s' := hiff.2 hstraight
  refine ⟨s, hexec, hcurrent, s', hs', hdelivered, ?_⟩
  rcases hdelivered with ⟨q, hq, hevent⟩
  rw [hcurrent, hparent] at hq
  cases hq
  simpa [hlife] using hevent

/-- Greenlet 2 goes back to the main greenlet before it ends; the main greenlet resumes it. -/
def endsInLaterCall : List (Act Nat Nat) :=
  [.new 0, .new 1, .switch 2 5 false, .switch 0 6 false, .switch 2 8 false]

/-- Its value comes to the main greenlet, and greenlet 1 is not started. -/
theorem later_call_keeps_value :
    ∃ s s', exec (step fun _ => false) init endsInLaterCall = some s ∧
      step (fun _ => false) s (.finish (.value 7)) = some s' ∧ s.switchParent s.current = some 1 ∧
      s.life 1 = .unstarted ∧ s'.event = some (.returned 0 (.payload (.args 7))) ∧
      ¬ Delivered s (.payload (.args 7)) s' := by
  refine ⟨_, _, rfl, rfl, by decide, by decide, by decide, ?_⟩
  rintro ⟨q, hq, hevent⟩
  cases hq
  revert hevent
  decide

end Pytealet.Greenlet
