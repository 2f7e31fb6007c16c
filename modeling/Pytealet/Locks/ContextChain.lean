import Mathlib.Data.List.Chain
import Mathlib.Data.List.Nodup
import Mathlib.Logic.Function.Basic
import Mathlib.Logic.Relation

/-!
# ContextChain — `exception_join_context` and `raise_as_is`

A `raise` sets the context of what it raises to the exception that is being handled.  It looks for
the raised exception behind the handled one first, and cuts the link to it there, so that it closes
no cycle.
-/

namespace Pytealet.Locks.ContextChain

open Function List

variable {ε : Type*}

/-- `__context__` of every exception. -/
abbrev Contexts (ε : Type*) := ε → Option ε

/-! ## What the source does -/

section Source

variable [DecidableEq ε]

/-- The search for `value` behind an exception, and the cut.  It looks at `steps` links. -/
def cut (value : ε) : Nat → ε → Contexts ε → Contexts ε
  | 0, _, ctx => ctx
  | steps + 1, e, ctx =>
    match ctx e with
    | none => ctx
    | some c => if c = value then update ctx e none else cut value steps c ctx

/-- What a `raise` of `value` does to the contexts while `handled` is being handled. -/
def raiseIn (steps : Nat) (handled value : ε) (ctx : Contexts ε) : Contexts ε :=
  if handled = value then ctx else update (cut value steps handled ctx) value (some handled)

/-- It links the exceptions of the list, the newest one first. -/
def exceptionJoinContext : List ε → Contexts ε → Contexts ε
  | current :: context :: rest, ctx => exceptionJoinContext (context :: rest)
      (update ctx current (some context))
  | _, ctx => ctx

/-- The `finally` puts the context back that the `raise` has replaced. -/
def raiseAsIs (steps : Nat) (handled exc : ε) (ctx : Contexts ε) : Contexts ε :=
  update (raiseIn steps handled exc ctx) exc (ctx exc)

end Source

/-! ## Chains -/

def Linked (ctx : Contexts ε) (e c : ε) : Prop :=
  ctx e = some c

/-- `x` is `e`, or in its context chain. -/
def Behind (ctx : Contexts ε) (e x : ε) : Prop :=
  Relation.ReflTransGen (Linked ctx) e x

/-- No cycle can be reached from `e`. -/
def Acyclic (ctx : Contexts ε) (e : ε) : Prop :=
  ∀ x, Behind ctx e x → ¬ Relation.TransGen (Linked ctx) x x

/-- The chain of `e` comes to its end after `n` links at the most. -/
def Ends (ctx : Contexts ε) : Nat → ε → Prop
  | 0, e => ctx e = none
  | n + 1, e => ∀ c, ctx e = some c → Ends ctx n c

/-- The chain of `e` is the same in both. -/
def Keeps (ctx ctx' : Contexts ε) (e : ε) : Prop :=
  ∀ x, Behind ctx e x → ctx' x = ctx x

/-- Links may have gone, but none is new. -/
def Thins (ctx ctx' : Contexts ε) : Prop :=
  ∀ x c, ctx' x = some c → ctx x = some c

/-- There is nothing behind `e` that was not behind it in `ctx`, and no cycle. -/
structure Calm (ctx ctx' : Contexts ε) (e : ε) : Prop where
  behind : ∀ x, Behind ctx' e x → Behind ctx e x
  acyclic : Acyclic ctx' e

variable {ctx ctx' ctx'' : Contexts ε} {e c x : ε}

theorem Behind.refl (ctx : Contexts ε) (e : ε) : Behind ctx e e :=
  Relation.ReflTransGen.refl

theorem Behind.head (h : ctx e = some c) (hx : Behind ctx c x) : Behind ctx e x :=
  Relation.ReflTransGen.head h hx

theorem Behind.cases (h : Behind ctx e x) : x = e ∨ ∃ c, ctx e = some c ∧ Behind ctx c x := by
  rcases Relation.ReflTransGen.cases_head h with heq | ⟨c, hc, hx⟩
  · exact .inl heq.symm
  · exact .inr ⟨c, hc, hx⟩

theorem Keeps.refl (ctx : Contexts ε) (e : ε) : Keeps ctx ctx e :=
  fun _ _ => rfl

theorem Keeps.behind (h : Keeps ctx ctx' e) (hx : Behind ctx e x) : Behind ctx' e x := by
  induction hx with
  | refl => exact Behind.refl ctx' e
  | tail hb hlink ih => exact ih.tail ((h _ hb).trans hlink)

theorem Keeps.behind_iff (h : Keeps ctx ctx' e) : Behind ctx' e x ↔ Behind ctx e x := by
  constructor
  · intro hx
    induction hx with
    | refl => exact Behind.refl ctx e
    | tail _ hlink ih => exact ih.tail ((h _ ih).symm.trans hlink)
  · exact h.behind

theorem Keeps.trans (h : Keeps ctx ctx' e) (h' : Keeps ctx' ctx'' e) : Keeps ctx ctx'' e :=
  fun x hx => (h' x (h.behind hx)).trans (h x hx)

theorem Keeps.acyclic (h : Keeps ctx ctx' e) (hacyclic : Acyclic ctx e) : Acyclic ctx' e := by
  intro x hx hcycle
  have hx : Behind ctx e x := h.behind_iff.1 hx
  -- a walk that begins in the chain stays in it
  have hwalk : ∀ y, Relation.TransGen (Linked ctx') x y → Relation.TransGen (Linked ctx) x y := by
    intro y hy
    induction hy with
    | single hlink => exact .single ((h x hx).symm.trans hlink)
    | tail _ hlink ih => exact ih.tail ((h _ (hx.trans ih.to_reflTransGen)).symm.trans hlink)
  exact hacyclic x hx (hwalk x hcycle)

theorem Acyclic.head (hlink : ctx e = some c) (hacyclic : Acyclic ctx c)
    (hback : ¬ Behind ctx c e) : Acyclic ctx e := by
  intro x hx hcycle
  rcases hx.cases with heq | ⟨c', hc', hx⟩
  · subst heq
    -- the first step of the cycle is the link to `c`
    rcases Relation.TransGen.head'_iff.1 hcycle with ⟨c', hc', hx⟩
    have heq : c = c' := Option.some.inj (hlink.symm.trans hc')
    exact hback (heq ▸ hx)
  · have heq : c = c' := Option.some.inj (hlink.symm.trans hc')
    exact hacyclic x (heq ▸ hx) hcycle

theorem Ends.acyclic {n : Nat} (h : Ends ctx n e) : Acyclic ctx e := by
  -- an exception that has no context
  have htop : ∀ {e}, ctx e = none → Acyclic ctx e := by
    intro e hnone x hx hcycle
    have heq : x = e := by
      rcases hx.cases with heq | ⟨c, hc, _⟩
      · exact heq
      · exact nomatch hnone.symm.trans hc
    subst heq
    rcases Relation.TransGen.head'_iff.1 hcycle with ⟨c, hc, _⟩
    exact nomatch hnone.symm.trans hc
  induction n generalizing e with
  | zero => exact htop h
  | succ n ih =>
    cases hc : ctx e with
    | none => exact htop hc
    | some c =>
      have hacyclic : Acyclic ctx c := ih (h c hc)
      apply hacyclic.head hc
      intro hback
      -- back from `e` to `c`
      exact hacyclic c (Behind.refl ctx c) (Relation.TransGen.tail' hback hc)

theorem Keeps.ends {n : Nat} (h : Keeps ctx ctx' e) (hends : Ends ctx n e) : Ends ctx' n e := by
  induction n generalizing e with
  | zero => exact (h e (Behind.refl ctx e)).trans hends
  | succ n ih =>
    intro c hc
    have hlink : ctx e = some c := (h e (Behind.refl ctx e)).symm.trans hc
    exact ih (fun x hx => h x (hx.head hlink)) (hends c hlink)

theorem Thins.behind (h : Thins ctx ctx') (hx : Behind ctx' e x) : Behind ctx e x :=
  Relation.ReflTransGen.mono (fun a b hlink => h a b hlink) _ _ hx

theorem Thins.acyclic (h : Thins ctx ctx') (hacyclic : Acyclic ctx e) : Acyclic ctx' e :=
  fun x hx hcycle => hacyclic x (h.behind hx)
    (Relation.TransGen.mono (fun a b hlink => h a b hlink) _ _ hcycle)

theorem Calm.keeps (h : Calm ctx ctx' e) (hkeeps : Keeps ctx' ctx'' e) : Calm ctx ctx'' e :=
  ⟨fun x hx => h.behind x (hkeeps.behind_iff.1 hx), hkeeps.acyclic h.acyclic⟩

/-! ## The operations -/

section Operations

variable [DecidableEq ε] {value handled : ε} {steps : Nat}

theorem keeps_update {o : Option ε} (h : ¬ Behind ctx e value) : Keeps ctx (update ctx value o) e := by
  intro x hx
  have hne : x ≠ value := fun heq => h (heq ▸ hx)
  exact update_of_ne hne o ctx

theorem cut_eq (h : ¬ Behind ctx e value) : cut value steps e ctx = ctx := by
  induction steps generalizing e with
  | zero => rfl
  | succ steps ih =>
    unfold cut
    cases hc : ctx e with
    | none => rfl
    | some c =>
      have hback : ¬ Behind ctx c value := fun hb => h (hb.head hc)
      have hne : c ≠ value := fun heq => hback (heq ▸ Behind.refl ctx c)
      exact (if_neg hne).trans (ih hback)

theorem cut_cases (value : ε) (steps : Nat) (e : ε) (ctx : Contexts ε) (x : ε) :
    cut value steps e ctx x = ctx x ∨ ctx x = some value ∧ cut value steps e ctx x = none := by
  induction steps generalizing e with
  | zero => exact .inl rfl
  | succ steps ih =>
    unfold cut
    cases hc : ctx e with
    | none => exact .inl rfl
    | some c =>
      by_cases heq : c = value
      · simp only [heq, if_true]
        by_cases hx : x = e
        · subst hx
          exact .inr ⟨heq ▸ hc, update_self x none ctx⟩
        · exact .inl (update_of_ne hx none ctx)
      · simp only [heq, if_false]
        exact ih c

theorem cut_thins : Thins ctx (cut value steps e ctx) := by
  intro x c hc
  rcases cut_cases value steps e ctx x with heq | ⟨_, hnone⟩
  · exact heq ▸ hc
  · exact nomatch hnone.symm.trans hc

theorem not_behind_cut (hends : Ends ctx steps e) (hne : e ≠ value) :
    ¬ Behind (cut value steps e ctx) e value := by
  intro hbehind
  rcases hbehind.cases with heq | ⟨c, hc, hbehind⟩
  · exact hne heq.symm
  · have hlink : ctx e = some c := cut_thins e c hc
    induction steps generalizing e c with
    | zero => exact nomatch hends.symm.trans hlink
    | succ steps ih =>
      unfold cut at hc hbehind
      rw [hlink] at hc hbehind
      by_cases hvalue : c = value
      · simp only [hvalue, if_true] at hc
        exact nomatch (update_self e none ctx).symm.trans hc
      · simp only [hvalue, if_false] at hbehind
        rcases hbehind.cases with heq | ⟨c', hc', hbehind'⟩
        · exact hvalue heq.symm
        · exact ih (hends c hlink) hvalue hbehind c' hc' hbehind' (cut_thins c c' hc')

theorem raiseIn_keeps (h : ¬ Behind ctx handled value) :
    Keeps ctx (raiseIn steps handled value ctx) handled := by
  have hne : handled ≠ value := fun heq => h (heq ▸ Behind.refl ctx handled)
  rw [raiseIn, if_neg hne, cut_eq h]
  exact keeps_update h

theorem raiseIn_calm (value : ε) (h : Ends ctx steps handled) :
    Calm ctx (raiseIn steps handled value ctx) handled := by
  unfold raiseIn
  split
  · exact ⟨fun _ hx => hx, h.acyclic⟩
  · rename_i hne
    have hcut : Calm ctx (cut value steps handled ctx) handled :=
      ⟨fun _ hx => cut_thins.behind hx, cut_thins.acyclic h.acyclic⟩
    exact hcut.keeps (keeps_update (not_behind_cut h hne))

theorem raiseIn_link (h : raiseIn steps handled value ctx x = some c) : ctx x = some c ∨ c = handled := by
  unfold raiseIn at h
  split at h
  · exact .inl h
  · by_cases hx : x = value
    · subst hx
      rw [update_self] at h
      exact .inr (Option.some.inj h).symm
    · rw [update_of_ne hx] at h
      exact .inl (cut_thins x c h)

theorem raiseAsIs_thins : Thins ctx (raiseAsIs steps handled value ctx) := by
  intro x c hc
  unfold raiseAsIs at hc
  by_cases hx : x = value
  · subst hx
    rwa [update_self] at hc
  · rw [update_of_ne hx] at hc
    unfold raiseIn at hc
    split at hc
    · exact hc
    · rw [update_of_ne hx] at hc
      exact cut_thins x c hc

theorem raiseAsIs_link (h : ctx x = some c) (hne : c ≠ value) :
    raiseAsIs steps handled value ctx x = some c := by
  unfold raiseAsIs
  by_cases hx : x = value
  · subst hx
    rwa [update_self]
  · rw [update_of_ne hx]
    unfold raiseIn
    split
    · exact h
    · rw [update_of_ne hx]
      rcases cut_cases value steps handled ctx x with heq | ⟨hvalue, _⟩
      · exact heq.trans h
      · exact absurd (Option.some.inj (h.symm.trans hvalue)) hne

variable {l : List ε}

theorem join_of_not_mem (ctx : Contexts ε) (h : x ∉ l.dropLast) : exceptionJoinContext l ctx x = ctx x := by
  induction l generalizing ctx with
  | nil => rfl
  | cons a l ih =>
    cases l with
    | nil => rfl
    | cons b l =>
      have hx : x ≠ a ∧ x ∉ (b :: l).dropLast := by simpa using h
      calc exceptionJoinContext (a :: b :: l) ctx x
          = exceptionJoinContext (b :: l) (update ctx a (some b)) x := rfl
        _ = update ctx a (some b) x := ih _ hx.2
        _ = ctx x := update_of_ne hx.1 _ _

theorem join_of_mem (ctx : Contexts ε) (h : x ∈ l.dropLast) :
    ∃ c ∈ l, exceptionJoinContext l ctx x = some c := by
  induction l generalizing ctx with
  | nil => exact absurd h not_mem_nil
  | cons a l ih =>
    cases l with
    | nil => exact absurd h not_mem_nil
    | cons b l =>
      by_cases hmem : x ∈ (b :: l).dropLast
      · rcases ih (update ctx a (some b)) hmem with ⟨c, hc, hlink⟩
        exact ⟨c, mem_cons_of_mem a hc, hlink⟩
      · have hx : x = a := by
          rcases mem_cons.1 h with heq | hmem'
          · exact heq
          · exact absurd hmem' hmem
        subst hx
        refine ⟨b, mem_cons_of_mem x mem_cons_self, ?_⟩
        exact (join_of_not_mem _ hmem).trans (update_self x (some b) ctx)

theorem join_linked (hnodup : l.Nodup) : l.IsChain (Linked (exceptionJoinContext l ctx)) := by
  induction l generalizing ctx with
  | nil => exact isChain_nil
  | cons a l ih =>
    cases l with
    | nil => exact isChain_singleton a
    | cons b l =>
      have ha : a ∉ (b :: l).dropLast := fun hmem => hnodup.notMem (dropLast_subset _ hmem)
      have hlink : exceptionJoinContext (a :: b :: l) ctx a = some b := by
        apply (join_of_not_mem (update ctx a (some b)) ha).trans
        exact update_self a (some b) ctx
      exact isChain_cons_cons.2 ⟨hlink, ih (List.Nodup.of_cons hnodup)⟩

theorem join_keeps (h : ∀ x ∈ l.dropLast, ¬ Behind ctx e x) : Keeps ctx (exceptionJoinContext l ctx) e :=
  fun x hx => join_of_not_mem ctx fun hmem => h x hmem hx

end Operations

/-! ## A list of links -/

theorem behind_linked {l : List ε} {last : ε} (hlinked : (l ++ [last]).IsChain (Linked ctx))
    (he : (l ++ [last]).head? = some e) (hx : Behind ctx e x) : x ∈ l ∨ Behind ctx last x := by
  induction l generalizing e with
  | nil =>
    have heq : last = e := Option.some.inj he
    exact .inr (heq ▸ hx)
  | cons a l ih =>
    have heq : a = e := Option.some.inj he
    subst heq
    cases hnext : l ++ [last] with
    | nil => exact absurd hnext (by simp)
    | cons b rest =>
      rw [cons_append, hnext] at hlinked
      have hlink := isChain_cons_cons.1 hlinked
      rcases hx.cases with heq | ⟨c, hc, hx⟩
      · exact .inl (heq ▸ mem_cons_self)
      · have heq : b = c := Option.some.inj (hlink.1.symm.trans hc)
        have hhead : (l ++ [last]).head? = some c := by
          rw [hnext, heq]
          rfl
        rcases ih (hnext ▸ hlink.2) hhead hx with hmem | hlast
        · exact .inl (mem_cons_of_mem a hmem)
        · exact .inr hlast

theorem acyclic_linked {l : List ε} {last : ε} (hlinked : (l ++ [last]).IsChain (Linked ctx))
    (hnodup : (l ++ [last]).Nodup)
    (hfresh : ∀ x ∈ l, ¬ Behind ctx last x) (hlast : Acyclic ctx last)
    (he : (l ++ [last]).head? = some e) : Acyclic ctx e := by
  induction l generalizing e with
  | nil =>
    have heq : last = e := Option.some.inj he
    exact heq ▸ hlast
  | cons a l ih =>
    have heq : a = e := Option.some.inj he
    subst heq
    have hnodup' : (l ++ [last]).Nodup := List.Nodup.of_cons hnodup
    have ha : a ∉ l ++ [last] := hnodup.notMem
    cases hnext : l ++ [last] with
    | nil => exact absurd hnext (by simp)
    | cons b rest =>
      rw [cons_append, hnext] at hlinked
      have hlink := isChain_cons_cons.1 hlinked
      have hhead : (l ++ [last]).head? = some b := by
        rw [hnext]
        rfl
      have hlinked' : (l ++ [last]).IsChain (Linked ctx) := hnext ▸ hlink.2
      have hacyclic : Acyclic ctx b :=
        ih hlinked' hnodup' (fun x hx => hfresh x (mem_cons_of_mem a hx)) hhead
      apply hacyclic.head hlink.1
      intro hback
      rcases behind_linked hlinked' hhead hback with hmem | hbehind
      · exact ha (mem_append_left _ hmem)
      · exact hfresh a mem_cons_self hbehind

theorem linked_raiseAsIs [DecidableEq ε] {l : List ε} {a handled : ε} {steps : Nat}
    (h : (a :: l).IsChain (Linked ctx))
    (ha : a ∉ l) : (a :: l).IsChain (Linked (raiseAsIs steps handled a ctx)) := by
  -- for every list of which the first exception is not a part
  have htail : ∀ (b : ε) (l : List ε), a ∉ l → (b :: l).IsChain (Linked ctx) →
      (b :: l).IsChain (Linked (raiseAsIs steps handled a ctx)) := by
    intro b l ha h
    induction l generalizing b with
    | nil => exact isChain_singleton b
    | cons c l ih =>
      have hlink := isChain_cons_cons.1 h
      have hne : c ≠ a := fun heq => ha (heq ▸ mem_cons_self)
      have ha' : a ∉ l := fun hmem => ha (mem_cons_of_mem c hmem)
      exact isChain_cons_cons.2 ⟨raiseAsIs_link hlink.1 hne, ih c ha' hlink.2⟩
  exact htail a l ha h

theorem behind_joined {l : List ε} {last : ε}
    (hlinks : ∀ x c, ctx' x = some c → ctx x = some c ∨ c ∈ l ++ [last])
    (hmem : ∀ x ∈ l, ∀ c, ctx' x = some c → c ∈ l ++ [last]) (hx : x ∉ l ++ [last]) (h : Behind ctx' e x) :
    Behind ctx last x ∨ (e ∉ l ∧ Behind ctx e x) := by
  -- a member of the list that is not before its last one is the last one
  have hlast : ∀ {c}, c ∈ l ++ [last] → c ∉ l ∧ Behind ctx c x → Behind ctx last x := by
    intro c hc hcx
    rcases mem_append.1 hc with hc | hc
    · exact absurd hc hcx.1
    · exact mem_singleton.1 hc ▸ hcx.2
  induction h using Relation.ReflTransGen.head_induction_on with
  | refl => exact .inr ⟨fun hmem => hx (mem_append_left _ hmem), Behind.refl ctx x⟩
  | @head e c hlink _ ih =>
    rcases ih with hlast' | hcx
    · exact .inl hlast'
    · by_cases he : e ∈ l
      · exact .inl (hlast (hmem e he c hlink) hcx)
      · rcases hlinks e c hlink with hold | hc
        · exact .inr ⟨he, hcx.2.head hold⟩
        · exact .inl (hlast hc hcx)

end Pytealet.Locks.ContextChain
