import Mathlib.Logic.Relation
import Pytealet.Tealet.Lineage

/-!
# ChainWalk — which exceptions `PyTealetThrow_ExceptionChainContains` recognises

The walk takes the context of an exception before its cause, and comes to an exception again for
every path that leads to it.  It gives up after 256 exceptions, so it recognises the ones that it
comes to before that.  The stack never is full while there are exceptions to take from it.
-/

namespace Pytealet.Tealet

variable {ε : Type*} {links : Links ε}

/-! ## The graph -/

def Linked (links : Links ε) (e e' : ε) : Prop :=
  links.cause e = some e' ∨ links.context e = some e'

/-- `e'` can be reached from `e` along causes and contexts. -/
def Derived (links : Links ε) : ε → ε → Prop :=
  Relation.ReflTransGen (Linked links)

/-- The paths that begin at an exception; an exception from which a cycle can be reached has no
size. -/
inductive Size (links : Links ε) : ε → Nat → Prop
  | node {e : ε} {n m : Nat} (hcontext : ∀ c, links.context e = some c → Size links c n)
      (hcontextNone : links.context e = none → n = 0) (hcause : ∀ k, links.cause e = some k →
        Size links k m)
      (hcauseNone : links.cause e = none → m = 0) : Size links e (n + m + 1)

/-- An exception comes at this place of the walk: all that begins with the context goes before the
cause. -/
inductive Place (links : Links ε) : ε → Nat → ε → Prop
  | here (e : ε) : Place links e 0 e
  | context {e c e' : ε} {p : Nat} (h : links.context e = some c) (hp : Place links c p e') :
    Place links e (p + 1) e'
  | cause {e k e' : ε} {n p : Nat} (h : links.cause e = some k)
    (hcontext : ∀ c, links.context e = some c → Size links c n)
      (hcontextNone : links.context e = none → n = 0) (hp : Place links k p e') :
        Place links e (n + p + 1) e'

/-- The walk comes to it before it gives up. -/
def InTime (links : Links ε) (raised needle : ε) : Prop :=
  ∃ p < 256, Place links raised p needle

theorem Place.derived {e e' : ε} {p : Nat} (h : Place links e p e') : Derived links e e' := by
  induction h with
  | here e => exact Relation.ReflTransGen.refl
  | context h _ ih => exact Relation.ReflTransGen.head (Or.inr h) ih
  | cause h _ _ _ ih => exact Relation.ReflTransGen.head (Or.inl h) ih

/-! ## The stack -/

/-- The same for the exceptions of a stack, from its top. -/
inductive PlaceFrom (links : Links ε) : List ε → Nat → ε → Prop
  | top {e e' : ε} {stack : List ε} {p : Nat} (h : Place links e p e') : PlaceFrom links (e :: stack) p e'
  | rest {e e' : ε} {stack : List ε} {n p : Nat} (hsize : Size links e n) (h : PlaceFrom links stack p e') :
      PlaceFrom links (e :: stack) (n + p) e'

/-- What takes the place of an exception on the stack. -/
def pushed (links : Links ε) (e : ε) (stack : List ε) : List ε :=
  (links.context e).toList ++ ((links.cause e).toList ++ stack)

theorem placeFrom_pushed {e e' : ε} {stack : List ε} {p : Nat}
    (h : PlaceFrom links (e :: stack) p e') (hne : e ≠ e') :
    ∃ q, p = q + 1 ∧ PlaceFrom links (pushed links e stack) q e' := by
  unfold pushed
  cases h with
  | top h =>
    cases h with
    | here => exact absurd rfl hne
    | context hc hp =>
      rw [hc]
      exact ⟨_, rfl, .top hp⟩
    | cause hk hcontext hnone hp =>
      rw [hk]
      refine ⟨_, rfl, ?_⟩
      cases hc : links.context e with
      | none =>
        rw [hnone hc, Nat.zero_add]
        exact .top hp
      | some c => exact .rest (hcontext c hc) (.top hp)
  | rest hsize h =>
    cases hsize with
    | @node _ n m hcontext hnone hcause hcauseNone =>
      rename_i q
      have hrest : PlaceFrom links ((links.cause e).toList ++ stack) (m + q) e' := by
        cases hk : links.cause e with
        | none =>
          rw [hcauseNone hk, Nat.zero_add]
          exact h
        | some k => exact .rest (hcause k hk) h
      refine ⟨n + (m + q), by omega, ?_⟩
      cases hc : links.context e with
      | none =>
        rw [hnone hc, Nat.zero_add]
        exact hrest
      | some c => exact .rest (hcontext c hc) hrest

theorem placeFrom_of_pushed {e e' : ε} {stack : List ε} {q : Nat}
    (h : PlaceFrom links (pushed links e stack) q e') :
    PlaceFrom links (e :: stack) (q + 1) e' := by
  -- what comes after the context
  have hafter : ∀ {n q}, (∀ c, links.context e = some c → Size links c n) →
      (links.context e = none → n = 0) →
      PlaceFrom links ((links.cause e).toList ++ stack) q e' →
        PlaceFrom links (e :: stack) (n + q + 1) e' := by
    intro n q hcontext hnone h
    cases hk : links.cause e with
    | none =>
      rw [hk] at h
      have hsize : Size links e (n + 0 + 1) :=
        .node hcontext hnone (fun k hk' => nomatch hk.symm.trans hk') fun _ => rfl
      have hplace : PlaceFrom links (e :: stack) (n + 0 + 1 + q) e' := .rest hsize h
      rwa [Nat.add_zero, Nat.add_right_comm] at hplace
    | some k =>
      rw [hk] at h
      cases h with
      | top hp => exact .top (.cause hk hcontext hnone hp)
      | @rest _ _ _ m p hsizeCause h =>
        have hsize : Size links e (n + m + 1) :=
          .node hcontext hnone (fun k' hk' => Option.some.inj (hk.symm.trans hk') ▸ hsizeCause)
            fun hnone' => nomatch hk.symm.trans hnone'
        have hplace : PlaceFrom links (e :: stack) (n + m + 1 + p) e' := .rest hsize h
        rwa [Nat.add_right_comm, Nat.add_assoc n m p] at hplace
  unfold pushed at h
  cases hc : links.context e with
  | none =>
    rw [hc] at h
    have hplace := hafter (n := 0) (fun c hc' => nomatch hc.symm.trans hc') (fun _ => rfl) h
    rwa [Nat.zero_add] at hplace
  | some c =>
    rw [hc] at h
    cases h with
    | top hp => exact .top (.context hc hp)
    | rest hsize h =>
      exact hafter (fun c' hc' => Option.some.inj (hc.symm.trans hc') ▸ hsize)
        (fun hnone => nomatch hc.symm.trans hnone) h

/-! ## The walk -/

theorem pushChain_eq (stack : List ε) (o : Option ε) (h : stack.length < 256) :
    pushChain stack o = o.toList ++ stack := by
  cases o with
  | none => rfl
  | some e => exact if_pos h

theorem pushed_length (links : Links ε) (e : ε) (stack : List ε) :
    (pushed links e stack).length ≤ stack.length + 2 := by
  unfold pushed
  rw [List.length_append, List.length_append]
  cases links.context e <;> cases links.cause e <;> simp <;> omega

theorem chainLoop_iff [DecidableEq ε] {needle : ε} (steps : Nat) :
    ∀ stack : List ε, steps + stack.length ≤ 257 →
    (chainLoop links needle steps stack = true ↔ ∃ p < steps, PlaceFrom links stack p needle) := by
  induction steps with
  | zero =>
    intro stack _
    exact ⟨nofun, fun ⟨p, hp, _⟩ => absurd hp (Nat.not_lt_zero p)⟩
  | succ steps ih =>
    intro stack hroom
    cases stack with
    | nil =>
      refine ⟨nofun, fun ⟨p, _, h⟩ => ?_⟩
      cases h
    | cons e stack =>
      rw [List.length_cons] at hroom
      unfold chainLoop
      split
      · rename_i heq
        subst heq
        exact ⟨fun _ => ⟨0, Nat.succ_pos _, .top (.here e)⟩, fun _ => rfl⟩
      · rename_i hne
        have hnext : chainLoop links needle steps
              (pushChain (pushChain stack (links.cause e)) (links.context e)) = true ↔
            ∃ q < steps, PlaceFrom links (pushed links e stack) q needle := by
          rcases Nat.eq_zero_or_pos steps with rfl | hpos
          · exact ⟨nofun, fun ⟨q, hq, _⟩ => absurd hq (Nat.not_lt_zero q)⟩
          · have hcause := pushChain_eq stack (links.cause e) (by omega)
            have hlength : ((links.cause e).toList ++ stack).length < 256 := by
              rw [List.length_append]
              cases links.cause e <;> simp <;> omega
            rw [hcause, pushChain_eq _ (links.context e) hlength]
            refine ih (pushed links e stack) ?_
            have hle := pushed_length links e stack
            omega
        rw [hnext]
        constructor
        · rintro ⟨q, hq, h⟩
          exact ⟨q + 1, Nat.succ_lt_succ hq, placeFrom_of_pushed h⟩
        · rintro ⟨p, hp, h⟩
          rcases placeFrom_pushed h hne with ⟨q, rfl, hq⟩
          exact ⟨q, Nat.lt_of_succ_lt_succ hp, hq⟩

theorem exceptionChainContains_iff [DecidableEq ε] (links : Links ε) (raised needle : ε) :
    exceptionChainContains links raised needle = true ↔ InTime links raised needle := by
  unfold exceptionChainContains InTime
  rw [chainLoop_iff 256 [raised] (Nat.le_refl _)]
  constructor
  · rintro ⟨p, hp, h⟩
    cases h with
    | top h => exact ⟨p, hp, h⟩
    | rest _ h => cases h
  · rintro ⟨p, hp, h⟩
    exact ⟨p, hp, .top h⟩

theorem takeRedirectTarget_fst [DecidableEq ε] {s : State ε} {r : Record ε} {k : Nat} {raised : ε}
    (hrecord : s.inflightRecord = some r) (hfallback : r.fallback = some k)
    (hswitchable : s.switchable k = true) :
    (s.takeRedirectTarget links raised).1 = some k ↔ InTime links raised r.exc := by
  unfold State.takeRedirectTarget
  rw [hrecord, ← exceptionChainContains_iff]
  dsimp only
  split
  · rename_i hcontains
    rw [hfallback, Option.filter_some, if_pos hswitchable]
    exact ⟨fun _ => hcontains, fun _ => rfl⟩
  · rename_i hcontains
    exact ⟨nofun, fun h => absurd h hcontains⟩

/-- The walk always ends.  It is right, and an uncaught exception that is derived from the one in
flight leads to its fallback, exactly if the walk comes to the exception before it gives up. -/
theorem uncaught_throw_recognised [DecidableEq ε] (links : Links ε) (raised needle : ε) :
    ((exceptionChainContains links raised needle = true ↔ Derived links raised needle) ↔
        (Derived links raised needle → InTime links raised needle)) ∧
      ∀ (s : State ε) (r : Record ε) (k : Nat), s.inflightRecord = some r →
        r.exc = needle → r.fallback = some k →
        s.switchable k = true →
          ((Derived links raised needle → (s.takeRedirectTarget links raised).1 = some k) ↔
            (Derived links raised needle → InTime links raised needle)) := by
  constructor
  · rw [exceptionChainContains_iff]
    refine ⟨fun h => h.2, fun h => ⟨fun ⟨p, _, hplace⟩ => hplace.derived, h⟩⟩
  · rintro s r k hrecord rfl hfallback hswitchable
    rw [takeRedirectTarget_fst hrecord hfallback hswitchable]

/-- A thrown exception that is the cause of the one that is raised, while a third one is being
handled that has been raised again from itself eight times: the walk goes through all 511 paths of
its context first, and gives up. -/
theorem reraised_context_hides_cause :
    let links : Links Nat :=
      { kind := fun _ => .other
        cause := fun e => if e = 0 then some 100 else if e < 9 then some (e + 1) else none
        context := fun e => if e < 9 then some (e + 1) else none }
    Derived links 0 100 ∧ exceptionChainContains links 0 100 = false :=
  ⟨Relation.ReflTransGen.single (Or.inl rfl), by decide +kernel⟩

end Pytealet.Tealet
