import Pytealet.Lib.Transition

/-!
# Replies — what a system answers on the way

Some steps of a system answer a caller with yes or no.  Two rules for a fact that stands until the
answer is yes:

* `Sure step reply s` — the next answer after `s` is not no;
* `kept` — what only a yes can end has held up to here, or there was a yes.
-/

namespace Lib.Replies

open Transition

variable {σ α : Type*} (step : σ → α → Option σ) (reply : σ → α → Option Bool)

/-- The answers of a run, the first one first. -/
def replies : σ → List α → List Bool
  | _, [] => []
  | s, a :: as =>
    match step s a with
    | some s' => (reply s a).toList ++ replies s' as
    | none => []

def Sure (s : σ) : Prop :=
  ∀ as, (replies step reply s as).head? ≠ some false

variable {step reply} {P : σ → Prop} {s s' : σ}

theorem replies_cons {a : α} (hs : step s a = some s') (as : List α) :
    replies step reply s (a :: as) = (reply s a).toList ++ replies step reply s' as := by
  simp only [replies, hs]

theorem sure_of (hP : ∀ s a s', P s → step s a = some s' → reply s a = some true ∨
    reply s a = none ∧ P s') (h : P s) :
    Sure step reply s := by
  intro as
  induction as generalizing s with
  | nil =>
    exact nofun
  | cons a as ih =>
    cases hs : step s a with
    | none => simp [replies, hs]
    | some s' =>
      rw [replies_cons hs]
      rcases hP s a s' h hs with htrue | ⟨hnone, h'⟩
      · simp [htrue]
      · simpa [hnone] using ih h'

theorem kept (hP : ∀ s a s', P s → step s a = some s' → reply s a = some true ∨ P s')
    {as : List α} (h : P s)
    (he : exec step s as = some s') : true ∈ replies step reply s as ∨ P s' := by
  induction as generalizing s with
  | nil =>
    cases he
    exact Or.inr h
  | cons a as ih =>
    cases hs : step s a with
    | none => simp [exec, hs] at he
    | some s₁ =>
      simp only [exec, hs] at he
      rw [replies_cons hs]
      rcases hP s a s₁ h hs with htrue | h₁
      · exact Or.inl (by simp [htrue])
      · rcases ih h₁ he with hmem | hlast
        · exact Or.inl (List.mem_append_right _ hmem)
        · exact Or.inr hlast

end Lib.Replies
