import Mathlib.Tactic.ByContra

/-!
# Transition — guarded step functions and their runs

A system is given by a *guarded* step function `step : σ → α → Option σ`: `step s a = some s'`
when action `a` is possible in `s` and leads to `s'`, and `none` when it is not possible.

* `Reachable step init s` — `s` is reached from `init` by possible actions;
* `Always step P s as` — `P` holds in every state met while playing the actions `as` from `s`;
* `Along step C s as` — every action of `as` that is played satisfies `C` in the state before it.

`Always` and `Along` stop at the first action that is not possible, so a statement about all lists
of actions is a statement about all runs.
-/

namespace Lib.Transition

variable {σ α : Type*} (step : σ → α → Option σ)

/-! ## Reachable states -/

inductive Reachable (init : σ) : σ → Prop where
  | refl : Reachable init init
  | tail {s s' : σ} {a : α} : Reachable init s → step s a = some s' → Reachable init s'

theorem Reachable.invariant {step : σ → α → Option σ} {I : σ → Prop} {init s : σ}
    (h : Reachable step init s) (hinit : I init)
    (hstep : ∀ s a s', I s → step s a = some s' → I s') : I s := by
  induction h with
  | refl => exact hinit
  | tail _ hs ih => exact hstep _ _ _ ih hs

/-! ## Runs -/

/-- The state after playing all of `as`, if every action was possible. -/
def exec : σ → List α → Option σ
  | s, [] => some s
  | s, a :: as =>
    match step s a with
    | some s' => exec s' as
    | none => none

/-- What a list of actions leads to is reachable. -/
theorem Reachable.exec {step : σ → α → Option σ} {init : σ} :
    ∀ (as : List α) {s s' : σ}, Reachable step init s → exec step s as = some s' →
      Reachable step init s' := by
  intro as
  induction as with
  | nil =>
    intro s s' hr he
    cases he
    exact hr
  | cons a as ih =>
    intro s s' hr he
    cases hs : step s a with
    | none => simp [Transition.exec, hs] at he
    | some s₁ =>
      simp only [Transition.exec, hs] at he
      exact ih (hr.tail hs) he

/-- What each step appends to a list is appended in the order of the actions. -/
theorem exec_history {step : σ → α → Option σ} {β : Type*} (p : σ → List β) (f : α → List β)
    (hstep : ∀ s a s', step s a = some s' → p s' = p s ++ f a) :
    ∀ (as : List α) {s s' : σ}, exec step s as = some s' → p s' = p s ++ as.flatMap f := by
  intro as
  induction as with
  | nil =>
    intro s s' he
    cases he
    simp
  | cons a as ih =>
    intro s s' he
    cases hs : step s a with
    | none => simp [Transition.exec, hs] at he
    | some s₁ =>
      simp only [Transition.exec, hs] at he
      rw [ih he, hstep s a s₁ hs, List.flatMap_cons, List.append_assoc]

/-- `P` holds in every state met while playing `as` from `s`. -/
def Always (P : σ → Prop) : σ → List α → Prop
  | s, [] => P s
  | s, a :: as =>
    P s ∧
      match step s a with
      | some s' => Always P s' as
      | none => True

/-- Every action of `as` satisfies `C` in the state in which it is played. -/
def Along (C : σ → α → Prop) : σ → List α → Prop
  | _, [] => True
  | s, a :: as =>
    match step s a with
    | some s' => C s a ∧ Along C s' as
    | none => True

instance Always.decidable (P : σ → Prop) [DecidablePred P] :
    ∀ (s : σ) (as : List α), Decidable (Always step P s as)
  | s, [] => inferInstanceAs (Decidable (P s))
  | s, a :: as =>
    match h : step s a with
    | some s' =>
      have := Always.decidable P s' as
      decidable_of_iff (P s ∧ Always step P s' as) (by simp [Always, h])
    | none => decidable_of_iff (P s) (by simp [Always, h])

instance Along.decidable (C : σ → α → Prop) [∀ s a, Decidable (C s a)] :
    ∀ (s : σ) (as : List α), Decidable (Along step C s as)
  | _, [] => isTrue trivial
  | s, a :: as =>
    match h : step s a with
    | some s' =>
      have := Along.decidable C s' as
      decidable_of_iff (C s a ∧ Along step C s' as) (by simp [Along, h])
    | none => isTrue (by simp [Along, h])

/-- `as` can be played to its end, and `R` holds of this run. -/
structure Played (R : σ → List α → Prop) (s : σ) (as : List α) : Prop where
  holds : R s as
  ends : (exec step s as).isSome

variable {step} {P : σ → Prop} {C : σ → α → Prop} {I : σ → Prop} {as : List α}

theorem Always.head {s : σ} (h : Always step P s as) : P s := by
  cases as with
  | nil => exact h
  | cons a as => exact h.1

theorem Always.next {s s' : σ} {a : α} (hs : step s a = some s')
    (h : Always step P s (a :: as)) : Always step P s' as := by
  simpa [hs] using h.2

/-- It holds in the state that the actions lead to. -/
theorem Always.exec {s s' : σ} (h : Always step P s as) (he : exec step s as = some s') : P s' := by
  induction as generalizing s with
  | nil =>
    cases he
    exact h
  | cons a as ih =>
    cases hs : step s a with
    | none => simp [Transition.exec, hs] at he
    | some s₁ =>
      simp only [Transition.exec, hs] at he
      exact ih (h.next hs) he

theorem Always.mono {Q : σ → Prop} {s : σ} (h : Always step P s as)
    (hPQ : ∀ s, P s → Q s) : Always step Q s as := by
  induction as generalizing s with
  | nil => exact hPQ s h
  | cons a as ih =>
    refine ⟨hPQ s h.1, ?_⟩
    cases hs : step s a with
    | none => trivial
    | some s' => exact ih (h.next hs)

theorem Always.congr {J Q : σ → Prop} {s : σ} (h : Always step J s as)
    (hPQ : ∀ s, J s → (P s ↔ Q s)) : Always step P s as ↔ Always step Q s as := by
  induction as generalizing s with
  | nil => exact hPQ s h
  | cons a as ih =>
    refine and_congr (hPQ s h.1) ?_
    cases hs : step s a with
    | none => exact Iff.rfl
    | some s' => exact ih (h.next hs)

theorem Along.next {s s' : σ} {a : α} (hs : step s a = some s')
    (h : Along step C s (a :: as)) : C s a ∧ Along step C s' as := by
  simpa [Along, hs] using h

theorem Along.cons {s s' : σ} {a : α} (hs : step s a = some s') (ha : C s a)
    (h : Along step C s' as) : Along step C s (a :: as) := by
  simp only [Along, hs]
  exact ⟨ha, h⟩

/-! ## From one step to a whole run -/

theorem Along.split {s s' : σ} {as bs : List α} (h : Along step C s (as ++ bs))
    (he : exec step s as = some s') :
    Along step C s as ∧ Along step C s' bs := by
  induction as generalizing s with
  | nil =>
    cases he
    exact ⟨trivial, h⟩
  | cons a as ih =>
    cases hs : step s a with
    | none => simp [Transition.exec, hs] at he
    | some s₁ =>
      simp only [Transition.exec, hs] at he
      rcases Along.next hs h with ⟨ha, hrest⟩
      rcases ih hrest he with ⟨hleft, hright⟩
      exact ⟨hleft.cons hs ha, hright⟩

/-- If guarded steps keep `I`, and `I` gives `P`, then `P` holds throughout a guarded run. -/
theorem always_of_along (hP : ∀ s, I s → P s)
    (hstep : ∀ s a s', I s → C s a → step s a = some s' → I s') :
    ∀ (as : List α) (s : σ), I s → Along step C s as → Always step P s as := by
  intro as
  induction as with
  | nil =>
    intro s hI _
    exact hP s hI
  | cons a as ih =>
    -- the induction is on the actions; `I` goes with the state from step to step
    intro s hI hC
    refine ⟨hP s hI, ?_⟩
    cases hs : step s a with
    | none => trivial
    | some s' =>
      rcases hC.next hs with ⟨hCa, hCs⟩
      exact ih s' (hstep s a s' hI hCa hs) hCs

/-- If all steps keep `I`, and `I` gives `P`, then `P` holds throughout every run. -/
theorem always_of_invariant (hP : ∀ s, I s → P s) (hstep : ∀ s a s', I s → step s a = some s' → I s')
    (as : List α) (s : σ) (hI : I s) : Always step P s as := by
  induction as generalizing s with
  | nil => exact hP s hI
  | cons a as ih =>
    refine ⟨hP s hI, ?_⟩
    cases hs : step s a with
    | none => trivial
    | some s' => exact ih s' (hstep s a s' hI hs)

/-- If guarded steps keep `I`, then what `I` and the guard give of each step holds of every step of
a guarded run. -/
theorem along_of_along {D : σ → α → Prop} (hD : ∀ s a, I s → C s a → D s a)
    (hstep : ∀ s a s', I s → C s a → step s a = some s' → I s') :
    ∀ (as : List α) (s : σ), I s → Along step C s as → Along step D s as := by
  intro as
  induction as with
  | nil =>
    intro s _ _
    trivial
  | cons a as ih =>
    intro s hI hC
    unfold Along
    cases hs : step s a with
    | none => trivial
    | some s' =>
      rcases hC.next hs with ⟨hCa, hCs⟩
      exact ⟨hD s a hI hCa, ih s' (hstep s a s' hI hCa hs) hCs⟩

theorem along_of_possible {D : σ → α → Prop} (hD : ∀ s a s', I s → C s a →
    step s a = some s' → D s a ∧ I s')
    {s : σ} (hI : I s) (hC : Along step C s as) : Along step D s as := by
  induction as generalizing s with
  | nil => trivial
  | cons a as ih =>
    unfold Along
    cases hs : step s a with
    | none => trivial
    | some s' =>
      rcases hC.next hs with ⟨hCa, hCs⟩
      rcases hD s a s' hI hCa hs with ⟨hDa, hI'⟩
      exact ⟨hDa, ih hI' hCs⟩

theorem along_of_forall (hC : ∀ s a, C s a) (as : List α) (s : σ) : Along step C s as := by
  induction as generalizing s with
  | nil => trivial
  | cons a as ih =>
    unfold Along
    cases hs : step s a with
    | none => trivial
    | some s' => exact ⟨hC s a, ih s'⟩

/-- When moreover a step that breaks the guard at once breaks `P`, the guard is exact: `P` holds
throughout a run if and only if every step of the run meets the guard. -/
theorem always_iff_along (hP : ∀ s, I s → P s)
    (hstep : ∀ s a s', I s → C s a → step s a = some s' → I s')
    (hbreak : ∀ s a s', I s → ¬ C s a → step s a = some s' → ¬ P s')
    (as : List α) (s : σ) (hI : I s) : Always step P s as ↔ Along step C s as := by
  refine ⟨?_, always_of_along hP hstep as s hI⟩
  induction as generalizing s with
  | nil =>
    intro _
    trivial
  | cons a as ih =>
    intro hA
    unfold Along
    cases hs : step s a with
    | none => trivial
    | some s' =>
      have hA' : Always step P s' as := hA.next hs
      -- a step outside the guard would have broken `P` in the next state already
      have hC : C s a := by
        by_contra hC
        exact hbreak s a s' hI hC hs hA'.head
      exact ⟨hC, ih s' (hstep s a s' hI hC hs) hA'⟩

/-! ## Steps that tell what happened

A step function with an outcome becomes a plain one when the outcomes are written into a log, the
latest first. -/

section Logged

variable {ω : Type*}

def logged (step : σ → α → Option (ω × σ)) (c : σ × List ω) (a : α) : Option (σ × List ω) :=
  match step c.1 a with
  | some (o, s') => some (s', o :: c.2)
  | none => none

theorem logged_eq_some {step : σ → α → Option (ω × σ)} {c c' : σ × List ω} {a : α}
    (h : logged step c a = some c') : ∃ o, step c.1 a = some (o, c'.1) ∧ c'.2 = o :: c.2 := by
  unfold logged at h
  cases hs : step c.1 a with
  | none => simp [hs] at h
  | some r =>
    simp only [hs, Option.some.injEq] at h
    subst h
    exact ⟨r.1, rfl, rfl⟩

end Logged

end Lib.Transition
