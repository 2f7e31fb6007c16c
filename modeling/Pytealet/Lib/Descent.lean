import Mathlib.Data.Finset.Card
import Mathlib.Logic.Relation

/-!
# Descent — recursions over the children of a node

A recursion that visits the children of a node before it returns comes to an end in a finite graph
exactly where the graph has no cycle; its depth is bounded by the number of nodes that are
somebody's child.
-/

namespace Lib.Descent

variable {α : Type*} {child : α → α → Prop} {f : Nat → α → Bool} {m n : Nat} {x y : α}

/-- `f n x` says whether the recursion returns from `x` with at most `n` nested calls. -/
structure Recursion (child : α → α → Prop) (f : Nat → α → Bool) : Prop where
  zero : ∀ x, f 0 x = false
  succ : ∀ n x, f (n + 1) x = true ↔ ∀ y, child y x → f n y = true

theorem Recursion.mono_succ (h : Recursion child f) : ∀ {n : Nat} {x : α}, f n x = true →
    f (n + 1) x = true := by
  intro n
  induction n with
  | zero =>
    intro x hx
    rw [h.zero] at hx
    cases hx
  | succ n ih =>
    intro x hx
    rw [h.succ] at hx ⊢
    exact fun y hy => ih (hx y hy)

theorem Recursion.mono (h : Recursion child f) (hle : m ≤ n) (hx : f m x = true) : f n x = true := by
  induction hle with
  | refl => exact hx
  | step _ ih => exact h.mono_succ ih

/-- Below a node the recursion returns sooner. -/
theorem Recursion.lower (h : Recursion child f) (hx : f n x = true) (hy : Relation.TransGen child y x) :
    ∃ m, m < n ∧ f m y = true := by
  induction hy generalizing n with
  | single hchild =>
    cases n with
    | zero =>
      rw [h.zero] at hx
      cases hx
    | succ n => exact ⟨n, Nat.lt_succ_self n, (h.succ n _).1 hx _ hchild⟩
  | tail _ hchild ih =>
    cases n with
    | zero =>
      rw [h.zero] at hx
      cases hx
    | succ n =>
      obtain ⟨m, hlt, hm⟩ := ih ((h.succ n _).1 hx _ hchild)
      exact ⟨m, Nat.lt_succ_of_lt hlt, hm⟩

theorem Recursion.not_returns (h : Recursion child f) (hcycle : Relation.TransGen child x x) :
    ∀ n, f n x = false := by
  intro n
  induction n using Nat.strongRecOn with
  | ind n ih =>
    by_contra hx
    obtain ⟨m, hlt, hm⟩ := h.lower (Bool.not_eq_false _ ▸ hx) hcycle
    rw [ih m hlt] at hm
    cases hm

theorem Recursion.returns_of_visited [DecidableEq α] (h : Recursion child f) {nodes : Finset α}
    (hnodes : ∀ y x, child y x → y ∈ nodes) (hacyclic : ∀ x, ¬ Relation.TransGen child x x) :
    ∀ (n : Nat) (s : Finset α) (x : α), s ⊆ nodes → (∀ v ∈ s, Relation.ReflTransGen child x v) →
      nodes.card < n + s.card → f n x = true := by
  intro n
  induction n with
  | zero =>
    intro s x hs _ hcard
    have hle := Finset.card_le_card hs
    omega
  | succ n ih =>
    intro s x hs hvisited hcard
    rw [h.succ]
    intro y hy
    have hfresh : y ∉ s := by
      intro hmem
      exact hacyclic y (Relation.TransGen.head' hy (hvisited y hmem))
    apply ih (insert y s) y (Finset.insert_subset (hnodes y x hy) hs)
    · intro v hv
      rcases Finset.mem_insert.1 hv with rfl | hv
      · exact .refl
      · exact .head hy (hvisited v hv)
    · rw [Finset.card_insert_of_notMem hfresh]
      omega

/-- Without a cycle it returns, and is nowhere deeper than there are children. -/
theorem Recursion.returns [DecidableEq α] (h : Recursion child f) {nodes : Finset α}
    (hnodes : ∀ y x, child y x → y ∈ nodes) (hacyclic : ∀ x, ¬ Relation.TransGen child x x) (x : α) :
    f (nodes.card + 1) x = true :=
  h.returns_of_visited hnodes hacyclic _ ∅ x (Finset.empty_subset _) (by simp) (by simp)

/-- New edges from `A` to `B` close no cycle where no path leads from `B` to `A`. -/
theorem acyclic_of_edges {child' : α → α → Prop} {A B : α → Prop}
    (hacyclic : ∀ x, ¬ Relation.TransGen child x x)
    (hedges : ∀ x y, child' x y → child x y ∨ A x ∧ B y)
    (hnone : ∀ x y, A x → B y → ¬ Relation.ReflTransGen child y x) :
      ∀ x, ¬ Relation.TransGen child' x x := by
  have hpath : ∀ x z, Relation.TransGen child' x z → Relation.TransGen child x z ∨
      ∃ a b, A a ∧ B b ∧ Relation.ReflTransGen child x a ∧ Relation.ReflTransGen child b z := by
    intro x z hxz
    induction hxz with
    | single hstep =>
      rcases hedges _ _ hstep with hold | ⟨ha, hb⟩
      · exact Or.inl (.single hold)
      · exact Or.inr ⟨_, _, ha, hb, .refl, .refl⟩
    | tail _ hstep ih =>
      rcases hedges _ _ hstep with hold | ⟨ha, hb⟩
      · rcases ih with hpath | ⟨a, b, ha, hb, hxa, hbz⟩
        · exact Or.inl (hpath.tail hold)
        · exact Or.inr ⟨a, b, ha, hb, hxa, hbz.tail hold⟩
      · rcases ih with hpath | ⟨a, b, _, hb', _, hbz⟩
        · exact Or.inr ⟨_, _, ha, hb, hpath.to_reflTransGen, .refl⟩
        · exact absurd hbz (hnone _ _ ha hb')
  intro x hcycle
  rcases hpath x x hcycle with hold | ⟨a, b, ha, hb, hxa, hbx⟩
  · exact hacyclic x hold
  · exact hnone a b ha hb (hbx.trans hxa)

end Lib.Descent
