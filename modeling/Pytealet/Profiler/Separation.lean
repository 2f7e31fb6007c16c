import Pytealet.Profiler.Stacks

/-!
# Separation — every tealet has a stack of its own

A switch binds the current stack of the thread to the tealet that it leaves.  When that tealet has
come to run while the profiler was off, the current stack may be that of another tealet: two tealets
then share it, and when one of them exits and is folded, the stack of the other is freed.
-/

namespace Pytealet.Profiler

open Lib Lib.Transition List

variable {κ φ : Type*}

namespace State

def ids (s : State κ φ) : List Nat :=
  s.stackList.map Stack.id

end State

/-- Every stack that is named is in the list, no two live tealets have the same stack, and while the
profiler is on the frames of a current stack have been entered by the tealet that is running. -/
structure Separate (s : State κ φ) : Prop where
  bound : ∀ p ∈ s.byTealet, p.2 ∈ s.ids
  slots : ∀ (t i : Nat), s.slots t = some i → i ∈ s.ids
  lastActive : ∀ i : Nat, s.lastActive = some i → i ∈ s.ids
  one : ∀ p ∈ s.byTealet, ∀ q ∈ s.byTealet, p.1 ∉ s.dead → q.1 ∉ s.dead → p.2 = q.2 → p.1 = q.1
  frames : s.enabled = true → ∀ (t : Nat), ∀ st ∈ s.stackList, s.slots t = some st.id →
    ∀ c ∈ st.ctx, c.owner = s.current t

/-- A switch that the profiler sees leaves a tealet whose stack no other tealet has: no live one, if
the tealet goes on, and none at all, if it has exited and is folded. -/
def State.Clear (s : State κ φ) : Action κ → Prop
  | .switch t _ _ exits =>
    s.enabled = true → ∀ p ∈ s.byTealet, s.slots t = some p.2 → p.1 ≠ s.current t →
      if exits then s.foldOnExit = false else p.1 ∈ s.dead
  | _ => True

instance (s : State κ φ) (a : Action κ) : Decidable (s.Clear a) := by
  unfold State.Clear
  split <;> infer_instance

/-! ## Stacks and the owners of their frames -/

namespace Stack

/-- Who has entered the frames of the stack. -/
def owners (st : Stack κ φ) : List Tealet :=
  st.ctx.map Context.owner

@[simp]
theorem owners_pause (now : Int) (st : Stack κ φ) : (st.pause now).owners = st.owners := by
  simp only [owners, pause, map_map]
  rfl

@[simp]
theorem owners_resume (now : Int) (st : Stack κ φ) : (st.resume now).owners = st.owners := by
  simp only [owners, resume, map_map]
  rfl

@[simp]
theorem id_pause (now : Int) (st : Stack κ φ) : (st.pause now).id = st.id :=
  rfl

@[simp]
theorem id_resume (now : Int) (st : Stack κ φ) : (st.resume now).id = st.id :=
  rfl

theorem owners_addSubt (tt : Int) (rest : List (Context κ)) :
    (addSubt tt rest).map Context.owner = rest.map Context.owner := by
  cases rest <;> rfl

variable [DecidableEq κ]

@[simp]
theorem id_push (family : κ → Option φ) (now : Int) (owner : Tealet) (key : κ) (st : Stack κ φ) :
    (st.push family now owner key).id = st.id :=
  rfl

@[simp]
theorem owners_pop (now : Int) (key : κ) (st : Stack κ φ) : (st.pop now key).owners = st.owners.tail := by
  unfold pop owners
  cases hctx : st.ctx with
  | nil => simp [hctx]
  | cons c rest => exact owners_addSubt _ rest

@[simp]
theorem id_pop (now : Int) (key : κ) (st : Stack κ φ) : (st.pop now key).id = st.id := by
  unfold pop
  split <;> rfl

theorem popAll_spec (now : Int) (n : Nat) (st : Stack κ φ) :
    (st.popAll now n).id = st.id ∧ (st.popAll now n).owners = st.owners.drop n := by
  induction n generalizing st with
  | zero => exact ⟨rfl, rfl⟩
  | succ n ih =>
    unfold popAll
    cases hctx : st.ctx with
    | nil => exact ⟨rfl, by simp [owners, hctx]⟩
    | cons c rest =>
      rcases ih (st.pop now c.key) with ⟨hid, howners⟩
      refine ⟨hid.trans (id_pop now c.key st), ?_⟩
      show ((st.pop now c.key).popAll now n).owners = st.owners.drop (n + 1)
      rw [howners, owners_pop, drop_tail]

@[simp]
theorem id_flush (now : Int) (st : Stack κ φ) : (st.flush now).id = st.id :=
  (popAll_spec now st.ctx.length st).1

@[simp]
theorem owners_flush (now : Int) (st : Stack κ φ) : (st.flush now).owners = [] := by
  unfold flush
  rw [(popAll_spec now st.ctx.length st).2]
  simp [owners]

end Stack

/-! ## The invariant -/

/-- The owners of the frames of stack `i` are all `a`. -/
def State.Owned (s : State κ φ) (i : Nat) (a : Tealet) : Prop :=
  ∀ st ∈ s.stackList, st.id = i → ∀ o ∈ st.owners, o = a

def State.Empty (s : State κ φ) (i : Nat) : Prop :=
  ∀ st ∈ s.stackList, st.id = i → st.owners = []

theorem State.Empty.owned {s : State κ φ} {i : Nat} (h : s.Empty i) (a : Tealet) : s.Owned i a := by
  intro st hst hid o ho
  rw [h st hst hid] at ho
  cases ho

/-- Each stack has one live tealet and one slot at most, and a tealet that is switched out owns its
frames. -/
structure Inv (s : State κ φ) : Prop where
  fresh : ∀ i ∈ s.ids, i < s.nextId
  bound : ∀ p ∈ s.byTealet, p.2 ∈ s.ids
  slots : ∀ (t i : Nat), s.slots t = some i → i ∈ s.ids
  lastActive : ∀ i : Nat, s.lastActive = some i → i ∈ s.ids
  keys : ∀ p ∈ s.byTealet, ∀ q ∈ s.byTealet, p.1 = q.1 → p = q
  home : ∀ p ∈ s.byTealet, ∀ t : Nat, s.slots t = some p.2 → p.1.thread = t
  homes : ∀ p ∈ s.byTealet, ∀ q ∈ s.byTealet, p.2 = q.2 → p.1.thread = q.1.thread
  apart : ∀ t u i : Nat, s.slots t = some i → s.slots u = some i → t = u
  one : ∀ p ∈ s.byTealet, ∀ q ∈ s.byTealet, p.1 ∉ s.dead → q.1 ∉ s.dead → p.2 = q.2 → p.1 = q.1
  current : ∀ t i : Nat, s.slots t = some i → s.Owned i (s.current t)
  -- a tealet that is switched out has entered the frames of its stack
  rest : ∀ p ∈ s.byTealet, p.1 ∉ s.dead → p.1 ≠ s.current p.1.thread → s.slots p.1.thread ≠ some p.2 →
    s.Owned p.2 p.1
  quiet : s.enabled = false → ∀ i, s.Empty i

theorem Inv.separate {s : State κ φ} (h : Inv s) : Separate s where
  bound := h.bound
  slots := h.slots
  lastActive := h.lastActive
  one := h.one
  frames := fun _ t st hst hs c hc => h.current t st.id hs st hst rfl c.owner (mem_map_of_mem hc)

theorem Inv.init (foldOnExit : Bool) : Inv (init foldOnExit : State κ φ) where
  fresh := by simp [Profiler.init, State.ids]
  bound := by simp [Profiler.init]
  slots := by simp [Profiler.init]
  lastActive := by simp [Profiler.init]
  keys := by simp [Profiler.init]
  home := by simp [Profiler.init]
  homes := by simp [Profiler.init]
  apart := by simp [Profiler.init]
  one := by simp [Profiler.init]
  current := by simp [Profiler.init]
  rest := by simp [Profiler.init]
  quiet := fun _ i st hst => absurd hst not_mem_nil

section Rules

variable {s s' : State κ φ} {t i j : Nat} {a origin target : Tealet} {now : Int}

/-- The parts of the state that say who has which stack. -/
structure SameOwners (s s' : State κ φ) : Prop where
  stackList : s'.stackList.map (fun st => (st.id, st.owners)) = s.stackList.map fun st => (st.id, st.owners)
  byTealet : s'.byTealet = s.byTealet
  slots : s'.slots = s.slots
  running : s'.running = s.running
  dead : s'.dead = s.dead
  enabled : s'.enabled = s.enabled
  nextId : s'.nextId = s.nextId

theorem SameOwners.ids (h : SameOwners s s') : s'.ids = s.ids := by
  have hmap := congrArg (List.map Prod.fst) h.stackList
  simpa [State.ids, map_map, Function.comp_def] using hmap

theorem SameOwners.owned (h : SameOwners s s') (ho : s.Owned i a) : s'.Owned i a := by
  intro st hst hid o hmem
  have hpair : (st.id, st.owners) ∈ s.stackList.map fun st => (st.id, st.owners) := by
    rw [← h.stackList]
    exact mem_map_of_mem hst
  rcases mem_map.1 hpair with ⟨old, hold, heq⟩
  rcases Prod.mk.inj heq with ⟨hid', howners⟩
  exact ho old hold (hid'.trans hid) o (howners ▸ hmem)

theorem SameOwners.empty (h : SameOwners s s') (ho : s.Empty i) : s'.Empty i := by
  intro st hst hid
  have hpair : (st.id, st.owners) ∈ s.stackList.map fun st => (st.id, st.owners) := by
    rw [← h.stackList]
    exact mem_map_of_mem hst
  rcases mem_map.1 hpair with ⟨old, hold, heq⟩
  rcases Prod.mk.inj heq with ⟨hid', howners⟩
  exact howners.symm.trans (ho old hold (hid'.trans hid))

theorem SameOwners.current (h : SameOwners s s') (t : Nat) : s'.current t = s.current t := by
  unfold State.current
  rw [h.running]

theorem Inv.same (h : Inv s) (hsame : SameOwners s s') (hlast : ∀ i, s'.lastActive = some i → i ∈ s.ids) :
    Inv s' := by
  have hids := hsame.ids
  refine ⟨?_, ?_, ?_, ?_, ?_, ?_, ?_, ?_, ?_, ?_, ?_, ?_⟩
  · rw [hids, hsame.nextId]
    exact h.fresh
  · rw [hids, hsame.byTealet]
    exact h.bound
  · rw [hids, hsame.slots]
    exact h.slots
  · rw [hids]
    exact hlast
  · rw [hsame.byTealet]
    exact h.keys
  · rw [hsame.byTealet, hsame.slots]
    exact h.home
  · rw [hsame.byTealet]
    exact h.homes
  · rw [hsame.slots]
    exact h.apart
  · rw [hsame.byTealet, hsame.dead]
    exact h.one
  · intro t i hs
    rw [hsame.slots] at hs
    rw [hsame.current]
    exact hsame.owned (h.current t i hs)
  · intro p hp hlive hne hs
    rw [hsame.byTealet] at hp
    rw [hsame.dead] at hlive
    rw [hsame.current] at hne
    rw [hsame.slots] at hs
    exact hsame.owned (h.rest p hp hlive hne hs)
  · intro hoff i
    rw [hsame.enabled] at hoff
    exact hsame.empty (h.quiet hoff i)

theorem SameOwners.trans {s'' : State κ φ} (h : SameOwners s s') (h' : SameOwners s' s'') :
    SameOwners s s'' :=
  ⟨h'.stackList.trans h.stackList, h'.byTealet.trans h.byTealet, h'.slots.trans h.slots,
    h'.running.trans h.running,
    h'.dead.trans h.dead, h'.enabled.trans h.enabled, h'.nextId.trans h.nextId⟩

theorem sameOwners_onStack {f : Stack κ φ → Stack κ φ} (s : State κ φ) (i : Nat)
    (hid : ∀ st, (f st).id = st.id) (howners : ∀ st, (f st).owners = st.owners) :
      SameOwners s (s.onStack i f) := by
  refine ⟨?_, rfl, rfl, rfl, rfl, rfl, rfl⟩
  simp only [State.onStack, map_map]
  refine map_congr_left fun st _ => ?_
  show ((if st.id = i then f st else st).id, (if st.id = i then f st else st).owners) = (st.id, st.owners)
  split
  · rw [hid, howners]
  · rfl

theorem sameOwners_gilHandoff (s : State κ φ) (now : Int) (i : Nat) :
    SameOwners s (s.gilHandoff now i) ∧
      ((s.gilHandoff now i).lastActive = s.lastActive ∨ (s.gilHandoff now i).lastActive = some i) := by
  unfold State.gilHandoff
  split
  · exact ⟨⟨rfl, rfl, rfl, rfl, rfl, rfl, rfl⟩, .inl rfl⟩
  · refine ⟨?_, .inr rfl⟩
    have hresume : ∀ s₁ : State κ φ, SameOwners s₁
        { s₁.onStack i (Stack.resume now) with lastActive := some i } :=
      fun s₁ => ⟨(sameOwners_onStack s₁ i (Stack.id_resume now) (Stack.owners_resume now)).stackList,
        rfl, rfl, rfl, rfl, rfl, rfl⟩
    dsimp only
    split
    · rename_i prev _
      exact (sameOwners_onStack s prev (Stack.id_pause now) (Stack.owners_pause now)).trans (hresume _)
    · exact hresume s

theorem foldOnExit_gilHandoff (s : State κ φ) (now : Int) (i : Nat) :
    (s.gilHandoff now i).foldOnExit = s.foldOnExit := by
  unfold State.gilHandoff
  split
  · rfl
  · dsimp only
    split <;> rfl

theorem Inv.gilHandoff (h : Inv s) (hi : i ∈ s.ids) (now : Int) : Inv (s.gilHandoff now i) := by
  rcases sameOwners_gilHandoff s now i with ⟨hsame, hlast⟩
  refine h.same hsame fun j hj => ?_
  rcases hlast with hlast | hlast
  · exact h.lastActive j (hlast ▸ hj)
  · rw [hlast] at hj
    exact Option.some.inj hj ▸ hi

theorem Inv.pause (h : Inv s) (i : Nat) (now : Int) : Inv (s.onStack i (Stack.pause now)) :=
  h.same (sameOwners_onStack s i (Stack.id_pause now) (Stack.owners_pause now)) h.lastActive

theorem Inv.resume (h : Inv s) (i : Nat) (now : Int) : Inv (s.onStack i (Stack.resume now)) :=
  h.same (sameOwners_onStack s i (Stack.id_resume now) (Stack.owners_resume now)) h.lastActive

theorem ids_onStack {f : Stack κ φ → Stack κ φ} (s : State κ φ) (i : Nat) (hid : ∀ st, (f st).id = st.id) :
    (s.onStack i f).ids = s.ids := by
  simp only [State.ids, State.onStack, map_map]
  refine map_congr_left fun st _ => ?_
  show (if st.id = i then f st else st).id = st.id
  split
  · exact hid st
  · rfl

theorem Inv.onStack {f : Stack κ φ → Stack κ φ} (h : Inv s) (hid : ∀ st, (f st).id = st.id)
    (hkeep : ∀ a, s.Owned i a → (∀ t, s.slots t = some i → a = s.current t) → (s.onStack i f).Owned i a)
    (hquiet : s.enabled = false → ∀ st, st.owners = [] → (f st).owners = []) : Inv (s.onStack i f) := by
  have hids := ids_onStack s i hid
  have hother : ∀ j a, j ≠ i → s.Owned j a → (s.onStack i f).Owned j a := by
    intro j a hne ho st hst hj
    rcases mem_map.1 hst with ⟨old, hold, rfl⟩
    by_cases heq : old.id = i
    · rw [if_pos heq, hid] at hj
      exact absurd (hj.symm.trans heq) hne
    · rw [if_neg heq] at hj ⊢
      exact ho old hold hj
  refine ⟨?_, ?_, ?_, ?_, h.keys, h.home, h.homes, h.apart, h.one, ?_, ?_, ?_⟩
  · rw [hids]
    exact h.fresh
  · rw [hids]
    exact h.bound
  · rw [hids]
    exact h.slots
  · rw [hids]
    exact h.lastActive
  · intro t j hs
    by_cases hj : j = i
    · subst hj
      refine hkeep _ (h.current t j hs) fun u hu => ?_
      rw [h.apart t u j hs hu]
      rfl
    · exact hother j _ hj (h.current t j hs)
  · intro p hp hlive hne hs
    by_cases hj : p.2 = i
    · rw [hj]
      refine hkeep _ (hj ▸ h.rest p hp hlive hne hs) fun u hu => ?_
      have hthread := h.home p hp u (hj ▸ hu)
      rw [hthread, hj] at hs
      exact absurd hu hs
    · exact hother p.2 _ hj (h.rest p hp hlive hne hs)
  · intro hoff j st hst hj
    rcases mem_map.1 hst with ⟨old, hold, rfl⟩
    have hold' := h.quiet hoff old.id old hold rfl
    split
    · exact hquiet hoff old hold'
    · exact hold'

theorem empty_flush [DecidableEq κ] (s : State κ φ) (now : Int) (i : Nat) :
    (s.onStack i (Stack.flush now)).Empty i := by
  intro st hst hid
  rcases mem_map.1 hst with ⟨old, hold, rfl⟩
  by_cases heq : old.id = i
  · rw [if_pos heq]
    exact Stack.owners_flush now old
  · rw [if_neg heq] at hid
    exact absurd hid heq

theorem Inv.flush [DecidableEq κ] (h : Inv s) (i : Nat) (now : Int) : Inv (s.onStack i (Stack.flush now)) :=
  h.onStack (Stack.id_flush now) (fun a _ _ => (empty_flush s now i).owned a) fun _ st _ =>
    Stack.owners_flush now st

theorem ids_newStack (s : State κ φ) (a : Tealet) : (s.newStack a).ids = s.nextId :: s.ids :=
  rfl

theorem Inv.newStack (h : Inv s) (a : Tealet) : Inv (s.newStack a) := by
  have hown : ∀ j b, s.Owned j b → (s.newStack a).Owned j b := by
    intro j b ho st hst hj
    rcases mem_cons.1 hst with rfl | hst
    · exact fun o ho' => absurd ho' not_mem_nil
    · exact ho st hst hj
  refine ⟨?_, ?_, ?_, ?_, h.keys, h.home, h.homes, h.apart, h.one, ?_, ?_, ?_⟩
  · intro j hj
    rw [ids_newStack] at hj
    show j < s.nextId + 1
    rcases mem_cons.1 hj with rfl | hj
    · exact Nat.lt_succ_self _
    · exact Nat.lt_succ_of_lt (h.fresh j hj)
  · exact fun p hp => mem_cons_of_mem _ (h.bound p hp)
  · exact fun t j hs => mem_cons_of_mem _ (h.slots t j hs)
  · exact fun j hj => mem_cons_of_mem _ (h.lastActive j hj)
  · exact fun t j hs => hown j _ (h.current t j hs)
  · exact fun p hp hlive hne hs => hown p.2 _ (h.rest p hp hlive hne hs)
  · intro hoff j st hst hj
    rcases mem_cons.1 hst with rfl | hst
    · rfl
    · exact h.quiet hoff j st hst hj

theorem Inv.nextId_not_mem (h : Inv s) : s.nextId ∉ s.ids :=
  fun hmem => Nat.lt_irrefl _ (h.fresh _ hmem)

theorem Inv.ensureCurrent (h : Inv s) (t : Nat) :
    Inv (s.ensureCurrent t).1 ∧ (s.ensureCurrent t).1.slots t = some (s.ensureCurrent t).2 ∧
      (s.ensureCurrent t).1.byTealet = s.byTealet ∧ (s.ensureCurrent t).1.dead = s.dead ∧
      (s.ensureCurrent t).1.running = s.running ∧ (s.ensureCurrent t).1.enabled = s.enabled ∧
      (s.ensureCurrent t).1.foldOnExit = s.foldOnExit := by
  unfold State.ensureCurrent
  split
  · rename_i i hs
    exact ⟨h, hs, rfl, rfl, rfl, rfl, rfl⟩
  · rename_i hnone
    have hnew := h.newStack (s.current t)
    have hid := h.nextId_not_mem
    refine ⟨?_, Function.update_self t _ _, rfl, rfl, rfl, rfl, rfl⟩
    have hslots : ∀ u j, Function.update s.slots t (some s.nextId) u = some j →
        (u = t ∧ j = s.nextId) ∨ (u ≠ t ∧ s.slots u = some j) := by
      intro u j hs
      by_cases hu : u = t
      · subst hu
        rw [Function.update_self] at hs
        exact .inl ⟨rfl, (Option.some.inj hs).symm⟩
      · rw [Function.update_of_ne hu] at hs
        exact .inr ⟨hu, hs⟩
    refine ⟨hnew.fresh, hnew.bound, ?_, hnew.lastActive, hnew.keys, ?_, hnew.homes, ?_, hnew.one, ?_, ?_,
      hnew.quiet⟩
    · intro u j hs
      rcases hslots u j hs with ⟨-, rfl⟩ | ⟨-, hs⟩
      · exact mem_cons_self
      · exact mem_cons_of_mem _ (h.slots u j hs)
    · intro p hp u hs
      rcases hslots u p.2 hs with ⟨-, heq⟩ | ⟨-, hs⟩
      · exact absurd (heq ▸ h.bound p hp) hid
      · exact h.home p hp u hs
    · intro u v j hu hv
      rcases hslots u j hu with ⟨rfl, rfl⟩ | ⟨-, hu⟩
      · rcases hslots v _ hv with ⟨rfl, -⟩ | ⟨-, hv⟩
        · rfl
        · exact absurd (h.slots v _ hv) hid
      · rcases hslots v j hv with ⟨-, rfl⟩ | ⟨-, hv⟩
        · exact absurd (h.slots u _ hu) hid
        · exact h.apart u v j hu hv
    · intro u j hs st hst hj
      rcases hslots u j hs with ⟨rfl, rfl⟩ | ⟨-, hs⟩
      · rcases mem_cons.1 hst with rfl | hst
        · exact fun o ho => absurd ho not_mem_nil
        · exact absurd (hj ▸ mem_map_of_mem hst) hid
      · exact hnew.current u j hs st hst hj
    · intro p hp hlive hne hs
      refine hnew.rest p hp hlive hne fun hs' => hs ?_
      by_cases hu : p.1.thread = t
      · rw [hu] at hs'
        exact absurd (hnone.symm.trans hs') (by simp)
      · show Function.update s.slots t (some s.nextId) p.1.thread = some p.2
        rw [Function.update_of_ne hu]
        exact hs'

/-! ## Switches -/

theorem Inv.bindTealet (h : Inv s) (hs : s.slots t = some i)
    (hfree : ∀ p ∈ s.byTealet, p.2 = i → p.1 ≠ s.current t → p.1 ∈ s.dead) :
    Inv (s.bindTealet (s.current t) i) := by
  have hcases : ∀ p ∈ (s.bindTealet (s.current t) i).byTealet,
      p = (s.current t, i) ∨ (p ∈ s.byTealet ∧ p.1 ≠ s.current t) := by
    intro p hp
    rcases mem_cons.1 hp with rfl | hp
    · exact .inl rfl
    · simp only [mem_filter, decide_eq_true_eq] at hp
      exact .inr hp
  -- another tealet with the stack belongs to the thread
  have hthread : ∀ p ∈ s.byTealet, p.2 = i → p.1.thread = t := fun p hp hi => h.home p hp t (hi ▸ hs)
  refine ⟨h.fresh, fun p hp => ?_, h.slots, h.lastActive, fun p hp q hq heq => ?_, fun p hp u hu => ?_,
    fun p hp q hq heq => ?_, h.apart, fun p hp q hq hlp hlq heq => ?_, h.current,
    fun p hp hlive hne hs' => ?_, h.quiet⟩
  · rcases hcases p hp with rfl | ⟨hp, -⟩
    · exact h.slots t i hs
    · exact h.bound p hp
  · rcases hcases p hp with rfl | ⟨hp, hpa⟩
    · rcases hcases q hq with rfl | ⟨-, hqa⟩
      · rfl
      · exact absurd heq.symm hqa
    · rcases hcases q hq with rfl | ⟨hq, -⟩
      · exact absurd heq hpa
      · exact h.keys p hp q hq heq
  · rcases hcases p hp with rfl | ⟨hp, -⟩
    · exact h.apart t u i hs hu
    · exact h.home p hp u hu
  · rcases hcases p hp with rfl | ⟨hp, -⟩
    · rcases hcases q hq with rfl | ⟨hq, -⟩
      · rfl
      · exact (hthread q hq heq.symm).symm
    · rcases hcases q hq with rfl | ⟨hq, -⟩
      · exact hthread p hp heq
      · exact h.homes p hp q hq heq
  · rcases hcases p hp with rfl | ⟨hp, hpa⟩
    · rcases hcases q hq with rfl | ⟨hq, hqa⟩
      · rfl
      · exact absurd (hfree q hq heq.symm hqa) hlq
    · rcases hcases q hq with rfl | ⟨hq, -⟩
      · exact absurd (hfree p hp heq hpa) hlp
      · exact h.one p hp q hq hlp hlq heq
  · rcases hcases p hp with rfl | ⟨hp, -⟩
    · exact absurd rfl hne
    · exact h.rest p hp hlive hne hs'

theorem Inv.unbindTealet (h : Inv s) (a : Tealet) : Inv (s.unbindTealet a) := by
  have hsub : ∀ p ∈ (s.unbindTealet a).byTealet, p ∈ s.byTealet := fun p hp => (mem_filter.1 hp).1
  exact ⟨h.fresh, fun p hp => h.bound p (hsub p hp), h.slots, h.lastActive,
    fun p hp q hq => h.keys p (hsub p hp) q (hsub q hq), fun p hp => h.home p (hsub p hp),
    fun p hp q hq => h.homes p (hsub p hp) q (hsub q hq), h.apart,
    fun p hp q hq => h.one p (hsub p hp) q (hsub q hq), h.current,
    fun p hp => h.rest p (hsub p hp), h.quiet⟩

theorem ids_unlinkAndFree (s : State κ φ) (i j : Nat) (hj : j ∈ s.ids) (hne : j ≠ i) :
    j ∈ (s.unlinkAndFree i).ids := by
  rcases mem_map.1 hj with ⟨st, hst, rfl⟩
  refine mem_map_of_mem ?_
  simp only [State.unlinkAndFree, mem_filter, decide_eq_true_eq]
  exact ⟨hst, hne⟩

theorem Inv.unlinkAndFree (h : Inv s) (hbound : ∀ p ∈ s.byTealet, p.2 ≠ i)
    (hslot : ∀ t, s.slots t ≠ some i) :
    Inv (s.unlinkAndFree i) := by
  have hsub : ∀ st ∈ (s.unlinkAndFree i).stackList, st ∈ s.stackList := fun st hst => (mem_filter.1 hst).1
  have hown : ∀ j a, s.Owned j a → (s.unlinkAndFree i).Owned j a := fun j a ho st hst => ho st (hsub st hst)
  refine ⟨fun j hj => ?_, fun p hp => ?_, fun t j hs => ?_, fun j hj => ?_, h.keys,
    h.home, h.homes, h.apart, h.one,
    fun t j hs => hown j _ (h.current t j hs), fun p hp hl hne hs => hown p.2 _ (h.rest p hp hl hne hs),
    fun hoff j st hst => h.quiet hoff j st (hsub st hst)⟩
  · rcases mem_map.1 hj with ⟨st, hst, rfl⟩
    exact h.fresh _ (mem_map_of_mem (hsub st hst))
  · exact ids_unlinkAndFree s i p.2 (h.bound p hp) (hbound p hp)
  · refine ids_unlinkAndFree s i j (h.slots t j hs) fun heq => ?_
    exact hslot t (heq ▸ hs)
  · have hj' : (if s.lastActive = some i then none else s.lastActive) = some j := hj
    split at hj'
    · cases hj'
    · rename_i hne
      exact ids_unlinkAndFree s i j (h.lastActive j hj') fun heq => hne (heq ▸ hj')

theorem slots_setSlot {v : Option Nat} (s : State κ φ) (t u : Nat) :
    (s.setSlot t v).slots u = if u = t then v else s.slots u := by
  simp only [State.setSlot, Function.update_apply]

theorem Inv.clearSlot (h : Inv s) (hbound : ∀ p ∈ s.byTealet, s.slots t ≠ some p.2) :
    Inv (s.setSlot t none) := by
  have hslots : ∀ u j, (s.setSlot t none).slots u = some j → s.slots u = some j := by
    intro u j hs
    rw [slots_setSlot] at hs
    split at hs
    · cases hs
    · exact hs
  refine ⟨h.fresh, h.bound, fun u j hs => h.slots u j (hslots u j hs), h.lastActive, h.keys,
    fun p hp u hs => h.home p hp u (hslots u p.2 hs), h.homes,
    fun u v j hu hv => h.apart u v j (hslots u j hu) (hslots v j hv), h.one,
    fun u j hs => h.current u j (hslots u j hs), fun p hp hl hne hs => h.rest p hp hl hne fun hs' =>
      hs ?_, h.quiet⟩
  rw [slots_setSlot]
  split
  · rename_i heq
    exact absurd (heq ▸ hs') (hbound p hp)
  · exact hs'

/-- What the trace callback leaves when it has seen to the origin: the switch may go to any other
tealet. -/
structure Leaves (s s' : State κ φ) (t : Nat) : Prop where
  inv : Inv s'
  running : s'.running = s.running
  dead : s'.dead = s.dead
  enabled : s'.enabled = s.enabled
  -- a tealet that has the current stack, and is not the one that leaves, finds it empty
  empty : ∀ p ∈ s'.byTealet, p.1 ∉ s.dead → p.1 ≠ s.current t → ∀ i, s'.slots t = some i →
    p.2 = i → s'.Empty i
  -- the origin is in the map with the current stack, or, if it has exited, not at all
  origin : ∀ p ∈ s'.byTealet, p.1 = s.current t → s'.slots t = some p.2

theorem stack?_isSome (h : i ∈ s.ids) : ∃ st ∈ s.stackList, s.stack? i = some st ∧ st.id = i := by
  rcases mem_map.1 h with ⟨st, hst, rfl⟩
  have hsome : (s.stackList.find? fun st' => decide (st'.id = st.id)).isSome = true :=
    List.find?_isSome.2 ⟨st, hst, by simp⟩
  rcases Option.isSome_iff_exists.1 hsome with ⟨st', hst'⟩
  refine ⟨st', mem_of_find?_eq_some hst', hst', ?_⟩
  simpa using List.find?_some hst'

section Keys

variable [DecidableEq κ] [DecidableEq φ]

omit [DecidableEq κ] in
theorem sameOwners_mergeStack (s : State κ φ) (i : Nat) :
    SameOwners s (s.mergeStack i) ∧ (s.mergeStack i).lastActive = s.lastActive := by
  unfold State.mergeStack
  split <;> exact ⟨⟨rfl, rfl, rfl, rfl, rfl, rfl, rfl⟩, rfl⟩

theorem Inv.exitTealet (h : Inv s) (hs : s.slots t = some i)
    (hfree : s.foldOnExit = true → ∀ p ∈ s.byTealet, p.2 = i → p.1 = s.current t) :
    Leaves s (s.exitTealet t now (s.current t) i) t := by
  have hflush := (h.flush i now).unbindTealet (s.current t)
  have hempty := empty_flush s now i
  have hgone : ∀ p ∈ ((s.onStack i (Stack.flush now)).unbindTealet (s.current t)).byTealet,
      p.1 ≠ s.current t := by
    intro p hp
    simpa [State.unbindTealet] using (mem_filter.1 hp).2
  have hsub : ∀ p ∈ ((s.onStack i (Stack.flush now)).unbindTealet (s.current t)).byTealet, p ∈ s.byTealet :=
    fun p hp => (mem_filter.1 hp).1
  unfold State.exitTealet State.foldStack
  generalize hs₁ : (s.onStack i (Stack.flush now)).unbindTealet (s.current t) = s₁ at hflush hgone hsub ⊢
  have hfields : s₁.slots = s.slots ∧ s₁.running = s.running ∧ s₁.dead = s.dead ∧ s₁.enabled = s.enabled ∧
      s₁.foldOnExit = s.foldOnExit ∧ s₁.Empty i := by
    subst hs₁
    exact ⟨rfl, rfl, rfl, rfl, rfl, hempty⟩
  rcases hfields with ⟨hslots, hrunning, hdead, henabled, hfold, hempty₁⟩
  split
  · rename_i hon
    have hnone : ∀ p ∈ s₁.byTealet, p.2 ≠ i := fun p hp hi =>
      hgone p hp (hfree (hfold ▸ hon) p (hsub p hp) hi)
    have hcur : s₁.slots t = some i := by rw [hslots, hs]
    dsimp only
    have hsame := sameOwners_mergeStack s₁ i
    generalize s₁.mergeStack i = s₂ at hsame ⊢
    have hinv₂ : Inv s₂ := hflush.same hsame.1 fun j hj => hflush.lastActive j (hsame.2 ▸ hj)
    have hcur₂ : s₂.slots t = some i := by rw [hsame.1.slots, hcur]
    have hby₂ : ∀ p ∈ s₂.byTealet, p.2 ≠ i := by
      rw [hsame.1.byTealet]
      exact hnone
    rw [if_pos hcur₂]
    have hclear : Inv (s₂.setSlot t none) := hinv₂.clearSlot fun p hp hsl =>
      hby₂ p hp (Option.some.inj (hsl.symm.trans hcur₂))
    have hslot : ∀ u, (s₂.setSlot t none).slots u ≠ some i := by
      intro u hu
      rw [slots_setSlot] at hu
      split at hu
      · cases hu
      · rename_i hne
        exact hne (hinv₂.apart u t i hu hcur₂)
    refine ⟨hclear.unlinkAndFree hby₂ hslot, hsame.1.running.trans hrunning, hsame.1.dead.trans hdead,
      hsame.1.enabled.trans henabled, fun p hp _ _ j hj => ?_, fun p hp heq => ?_⟩
    · have hj' : (s₂.setSlot t none).slots t = some j := hj
      rw [slots_setSlot, if_pos rfl] at hj'
      cases hj'
    · have hp' : p ∈ s₁.byTealet := hsame.1.byTealet ▸ hp
      exact absurd heq (hgone p hp')
  · refine ⟨hflush, hrunning, hdead, henabled, fun p hp _ _ j hj _ => ?_,
      fun p hp heq => absurd heq (hgone p hp)⟩
    rw [hslots, hs] at hj
    cases hj
    exact hempty₁

variable {target : Nat} {exits : Bool}

omit [DecidableEq κ] [DecidableEq φ] in
theorem Leaves.arrive (h : Leaves s s' t) (hne : target ≠ s.running t)
    (hlive : (⟨t, target⟩ : Tealet) ∉ s.dead) (hj : ((⟨t, target⟩ : Tealet), j) ∈ s'.byTealet) :
    Inv ((s'.setSlot t (some j)).go t target exits) := by
  have hinv := h.inv
  have hcur : s'.current t = s.current t := by rw [State.current, State.current, h.running]
  -- a tealet that is alive afterwards was alive before, and has not been the origin of an exit
  have halive : ∀ a, a ∉ ((s'.setSlot t (some j)).go t target exits).dead →
      a ∉ s.dead ∧ (exits = true → a ≠ s.current t) := by
    intro a ha
    have ha' : a ∉ (if exits then (s'.setSlot t (some j)).current t :: s'.dead else s'.dead) := ha
    rw [h.dead] at ha'
    cases exits with
    | false => exact ⟨ha', nofun⟩
    | true =>
      rw [if_pos rfl] at ha'
      have hhead : a ≠ s'.current t := fun heq => ha' (heq ▸ mem_cons_self)
      exact ⟨fun hmem => ha' (mem_cons_of_mem _ hmem), fun _ => hcur ▸ hhead⟩
  have hslots : ∀ u i, (s'.setSlot t (some j)).slots u = some i → (u = t ∧ i = j) ∨
      (u ≠ t ∧ s'.slots u = some i) := by
    intro u i hs
    rw [slots_setSlot] at hs
    split at hs
    · rename_i hu
      exact .inl ⟨hu, (Option.some.inj hs).symm⟩
    · rename_i hu
      exact .inr ⟨hu, hs⟩
  have hrun : ∀ u, ((s'.setSlot t (some j)).go t target exits).current u =
      if u = t then ⟨t, target⟩ else s.current u := by
    intro u
    by_cases hu : u = t
    · subst hu
      simp [State.go, State.current]
    · simp [State.go, State.current, State.setSlot, h.running, hu]
  have htarget : (⟨t, target⟩ : Tealet) ≠ s.current t := fun heq => hne (congrArg Tealet.id heq)
  -- the frames of the stack of the target are its own
  have hown : s'.Owned j ⟨t, target⟩ := by
    by_cases hs : s'.slots t = some j
    · exact (h.empty _ hj hlive htarget j hs rfl).owned _
    · exact hinv.rest _ hj (h.dead ▸ hlive) (hcur ▸ htarget) hs
  refine ⟨hinv.fresh, hinv.bound, fun u i hs => ?_, hinv.lastActive, hinv.keys,
    fun p hp u hs => ?_, hinv.homes,
    fun u v i hu hv => ?_, fun p hp q hq hlp hlq heq => ?_, fun u i hs => ?_, fun p hp hl hne' hs => ?_, ?_⟩
  · rcases hslots u i hs with ⟨-, rfl⟩ | ⟨-, hs⟩
    · exact hinv.bound _ hj
    · exact hinv.slots u i hs
  · rcases hslots u p.2 hs with ⟨rfl, heq⟩ | ⟨-, hs⟩
    · exact hinv.homes p hp _ hj heq
    · exact hinv.home p hp u hs
  · rcases hslots u i hu with ⟨rfl, rfl⟩ | ⟨-, hu'⟩
    · rcases hslots v _ hv with ⟨rfl, -⟩ | ⟨-, hv'⟩
      · rfl
      · exact hinv.home _ hj v hv'
    · rcases hslots v i hv with ⟨rfl, rfl⟩ | ⟨-, hv'⟩
      · exact (hinv.home _ hj u hu').symm
      · exact hinv.apart u v i hu' hv'
  · rw [← h.dead] at halive
    exact hinv.one p hp q hq (halive _ hlp).1 (halive _ hlq).1 heq
  · rw [hrun]
    rcases hslots u i hs with ⟨rfl, rfl⟩ | ⟨hu, hs⟩
    · rw [if_pos rfl]
      exact hown
    · rw [if_neg hu]
      have hold := hinv.current u i hs
      rwa [State.current, h.running] at hold
  · rcases halive _ hl with ⟨hl', hex⟩
    rw [hrun] at hne'
    by_cases hp' : p.1.thread = t
    · rw [if_pos hp'] at hne'
      by_cases hs' : s'.slots t = some p.2
      · by_cases hcurr : p.1 = s.current t
        · -- the origin goes on being switched out, on the stack that was current
          have hold := hinv.current t p.2 hs'
          rw [hcur, ← hcurr] at hold
          exact hold
        · exact (h.empty p hp hl' hcurr p.2 hs' rfl).owned _
      · by_cases hcurr : p.1 = s.current t
        · exact absurd (h.origin p hp hcurr) hs'
        · refine hinv.rest p hp (h.dead ▸ hl') ?_ (hp' ▸ hs')
          rw [hp', hcur]
          exact hcurr
    · rw [if_neg hp'] at hne'
      have hs' : s'.slots p.1.thread ≠ some p.2 := by
        intro hold
        refine hs ?_
        show (s'.setSlot t (some j)).slots p.1.thread = some p.2
        rw [slots_setSlot, if_neg hp']
        exact hold
      refine hinv.rest p hp (h.dead ▸ hl') ?_ hs'
      rwa [State.current, h.running]
  · intro hoff
    exact hinv.quiet hoff

omit [DecidableEq κ] [DecidableEq φ] in
theorem mem_of_lookupTealet {a : Tealet} (h : s.lookupTealet a = some i) : (a, i) ∈ s.byTealet := by
  rcases Option.map_eq_some_iff.1 h with ⟨p, hp, rfl⟩
  have heq : p.1 = a := by simpa using List.find?_some hp
  exact heq ▸ mem_of_find?_eq_some hp

omit [DecidableEq κ] [DecidableEq φ] in
theorem lookupTealet_eq_none {a : Tealet} (h : s.lookupTealet a = none) : ∀ p ∈ s.byTealet, p.1 ≠ a := by
  have hnone := List.find?_eq_none.1 (Option.map_eq_none_iff.1 h)
  exact fun p hp heq => hnone p hp (by simpa using heq)

omit [DecidableEq κ] [DecidableEq φ] in
theorem Leaves.newStack {a : Tealet} (h : Leaves s s' t) (hne : a ≠ s.current t)
    (hnone : ∀ p ∈ s'.byTealet, p.1 ≠ a) :
    Leaves s ((s'.newStack a).bindTealet a s'.nextId) t := by
  have hnew := h.inv.newStack a
  have hid := h.inv.nextId_not_mem
  have hfilter : s'.byTealet.filter (fun p => decide (p.1 ≠ a)) = s'.byTealet :=
    filter_eq_self.2 fun p hp => by simpa using hnone p hp
  have hby : ∀ p ∈ ((s'.newStack a).bindTealet a s'.nextId).byTealet, p = (a, s'.nextId) ∨
      p ∈ s'.byTealet := by
    intro p hp
    rcases mem_cons.1 hp with rfl | hp
    · exact .inl rfl
    · exact .inr (mem_filter.1 hp).1
  have hold : ∀ p ∈ s'.byTealet, p.2 ≠ s'.nextId := fun p hp heq => hid (heq ▸ h.inv.bound p hp)
  have hslot : ∀ u, s'.slots u ≠ some s'.nextId := fun u hs => hid (h.inv.slots u _ hs)
  have hempty : (s'.newStack a).Empty s'.nextId := by
    intro st hst hj
    rcases mem_cons.1 hst with rfl | hst
    · rfl
    · exact absurd (hj ▸ mem_map_of_mem hst) hid
  refine ⟨⟨hnew.fresh, fun p hp => ?_, hnew.slots, hnew.lastActive,
    fun p hp q hq heq => ?_, fun p hp u hs => ?_,
    fun p hp q hq heq => ?_, hnew.apart, fun p hp q hq hlp hlq heq => ?_, hnew.current,
    fun p hp hl hne' hs => ?_, hnew.quiet⟩, h.running, h.dead, h.enabled, fun p hp hl hne' i hs heq => ?_,
    fun p hp heq => ?_⟩
  · rcases hby p hp with rfl | hp
    · exact mem_cons_self
    · exact hnew.bound p hp
  · rcases hby p hp with rfl | hp
    · rcases hby q hq with rfl | hq
      · rfl
      · exact absurd heq.symm (hnone q hq)
    · rcases hby q hq with rfl | hq
      · exact absurd heq (hnone p hp)
      · exact hnew.keys p hp q hq heq
  · rcases hby p hp with rfl | hp
    · exact absurd hs (hslot u)
    · exact hnew.home p hp u hs
  · rcases hby p hp with rfl | hp
    · rcases hby q hq with rfl | hq
      · rfl
      · exact absurd heq.symm (hold q hq)
    · rcases hby q hq with rfl | hq
      · exact absurd heq (hold p hp)
      · exact hnew.homes p hp q hq heq
  · rcases hby p hp with rfl | hp
    · rcases hby q hq with rfl | hq
      · rfl
      · exact absurd heq.symm (hold q hq)
    · rcases hby q hq with rfl | hq
      · exact absurd heq (hold p hp)
      · exact hnew.one p hp q hq hlp hlq heq
  · rcases hby p hp with rfl | hp
    · exact hempty.owned a
    · exact hnew.rest p hp hl hne' hs
  · rcases hby p hp with rfl | hp
    · rw [← heq] at hs
      exact absurd hs (hslot t)
    · intro st hst hj
      rcases mem_cons.1 hst with rfl | hst
      · rfl
      · exact h.empty p hp hl hne' i hs heq st hst hj
  · rcases hby p hp with rfl | hp
    · exact absurd heq hne
    · exact h.origin p hp heq

omit [DecidableEq κ] [DecidableEq φ] in
theorem Leaves.ensureTealet {a : Tealet} (h : Leaves s s' t) (hne : a ≠ s.current t) :
    Leaves s (s'.ensureTealet a).1 t ∧ (a, (s'.ensureTealet a).2) ∈ (s'.ensureTealet a).1.byTealet := by
  unfold State.ensureTealet
  split
  · rename_i i hl
    exact ⟨h, mem_of_lookupTealet hl⟩
  · rename_i hl
    exact ⟨h.newStack hne (lookupTealet_eq_none hl), mem_cons_self⟩

theorem Leaves.switchTo (h : Leaves s s' t) (hne : target ≠ s.running t)
    (hlive : (⟨t, target⟩ : Tealet) ∉ s.dead) :
      Inv ((s'.switchTo t now ⟨t, target⟩).go t target exits) := by
  rcases h.ensureTealet (a := ⟨t, target⟩) fun heq => hne (congrArg Tealet.id heq) with ⟨hleaves, hj⟩
  have harrive :
      Inv (((s'.ensureTealet ⟨t, target⟩).1.setSlot t (some (s'.ensureTealet ⟨t, target⟩).2)).go t
      target exits) := hleaves.arrive hne hlive hj
  have hres := harrive.resume (s'.ensureTealet ⟨t, target⟩).2 now
  unfold State.switchTo
  dsimp only
  split
  · refine hres.same ⟨rfl, rfl, rfl, rfl, rfl, rfl, rfl⟩ fun i hi => ?_
    cases hi
    exact hres.slots t _ (by simp [State.onStack, State.go, State.setSlot])
  · exact hres

omit [DecidableEq κ] [DecidableEq φ] in
theorem Leaves.congr {s₀ : State κ φ} (h : Leaves s s' t) (hrun : s.running = s₀.running)
    (hdead : s.dead = s₀.dead)
    (henabled : s.enabled = s₀.enabled) : Leaves s₀ s' t := by
  have hcur : s.current t = s₀.current t := by rw [State.current, State.current, hrun]
  exact ⟨h.inv, h.running.trans hrun, h.dead.trans hdead, h.enabled.trans henabled,
    fun p hp hl hne => h.empty p hp (hdead ▸ hl) (hcur ▸ hne), fun p hp heq => h.origin p hp (hcur ▸ heq)⟩

omit [DecidableEq κ] [DecidableEq φ] in
theorem Inv.leaveBound (h : Inv s) (hs : s.slots t = some i)
    (hfree : ∀ p ∈ s.byTealet, p.2 = i → p.1 ≠ s.current t → p.1 ∈ s.dead) :
    Leaves s (s.bindTealet (s.current t) i) t := by
  refine ⟨h.bindTealet hs hfree, rfl, rfl, rfl, fun p hp hl hne j hj heq => ?_, fun p hp heq => ?_⟩
  · rcases mem_cons.1 hp with rfl | hp
    · exact absurd rfl hne
    · have hi : p.2 = i := heq.trans (Option.some.inj (hj.symm.trans hs))
      exact absurd (hfree p (mem_filter.1 hp).1 hi hne) hl
  · rcases mem_cons.1 hp with rfl | hp
    · exact hs
    · have hne := (mem_filter.1 hp).2
      simp [heq] at hne

theorem exitTealet_bindTealet (s : State κ φ) (t : Nat) (now : Int) (a : Tealet) (i : Nat) :
    (s.bindTealet a i).exitTealet t now a i = s.exitTealet t now a i := by
  have hfilter : ((a, i) :: s.byTealet.filter fun p => decide (p.1 ≠ a)).filter
      (fun p => decide (p.1 ≠ a)) =
      s.byTealet.filter fun p => decide (p.1 ≠ a) := by
    simp
  have hunbind : ((s.bindTealet a i).onStack i (Stack.flush now)).unbindTealet a =
      (s.onStack i (Stack.flush now)).unbindTealet a := by
    simp only [State.unbindTealet, State.bindTealet, State.onStack, hfilter]
  rw [State.exitTealet, State.exitTealet, hunbind]

omit [DecidableEq κ] [DecidableEq φ] in
theorem Inv.shared {P : Tealet → Prop} (h : Inv s)
    (hc : ∀ p ∈ s.byTealet, s.slots t = some p.2 → p.1 ≠ s.current t → P p.1) :
    ∀ p ∈ s.byTealet, p.2 = (s.ensureCurrent t).2 → p.1 ≠ s.current t → P p.1 := by
  intro p hp heq hne
  unfold State.ensureCurrent at heq
  split at heq
  · rename_i i hs
    have hi : p.2 = i := heq
    exact hc p hp (hi ▸ hs) hne
  · have hi : p.2 = s.nextId := heq
    exact absurd (hi ▸ h.bound p hp) h.nextId_not_mem

theorem Inv.traceCb (h : Inv s) (hon : s.enabled = true)
    (hc : s.Clear (.switch t now target exits : Action κ)) (hne : target ≠ s.running t)
    (hlive : (⟨t, target⟩ : Tealet) ∉ s.dead) :
      Inv ((s.traceCb t now ⟨t, target⟩ exits).go t target exits) := by
  rcases h.ensureCurrent t with ⟨hinv, hslot, hby, hdead, hrun, henabled, hfold⟩
  have hgil := sameOwners_gilHandoff (s.ensureCurrent t).1 now (s.ensureCurrent t).2
  have hpaused := (hinv.gilHandoff (hinv.slots t _ hslot) now).pause (s.ensureCurrent t).2 now
  have hsame :=
    hgil.1.trans (sameOwners_onStack ((s.ensureCurrent t).1.gilHandoff now (s.ensureCurrent t).2)
    (s.ensureCurrent t).2 (Stack.id_pause now) (Stack.owners_pause now))
  unfold State.traceCb
  rw [if_pos hon]
  dsimp only
  have hkeep := foldOnExit_gilHandoff (s.ensureCurrent t).1 now (s.ensureCurrent t).2
  generalize (s.ensureCurrent t).1.gilHandoff now (s.ensureCurrent t).2 = s₁ at hpaused hsame hkeep ⊢
  have hkeep' : (s₁.onStack (s.ensureCurrent t).2 (Stack.pause now)).foldOnExit = s.foldOnExit :=
    hkeep.trans hfold
  generalize s₁.onStack (s.ensureCurrent t).2 (Stack.pause now) = s₂ at hpaused hsame hkeep' ⊢
  have hrun₂ : s₂.running = s.running := hsame.running.trans hrun
  have hcur : s₂.current t = s.current t := by rw [State.current, State.current, hrun₂]
  have hby₂ : s₂.byTealet = s.byTealet := hsame.byTealet.trans hby
  have hdead₂ : s₂.dead = s.dead := hsame.dead.trans hdead
  have hslot₂ : s₂.slots t = some (s.ensureCurrent t).2 := by rw [hsame.slots, hslot]
  have hleaves : Leaves s₂ (if exits then
      (s₂.bindTealet (s.current t) (s.ensureCurrent t).2).exitTealet t now
        (s.current t) (s.ensureCurrent t).2
      else s₂.bindTealet (s.current t) (s.ensureCurrent t).2) t := by
    rw [← hcur]
    cases exits with
    | false =>
      refine hpaused.leaveBound hslot₂ ?_
      rw [hby₂, hcur, hdead₂]
      exact h.shared fun p hp hs hpne => by simpa using hc hon p hp hs hpne
    | true =>
      rw [if_pos rfl, exitTealet_bindTealet]
      refine hpaused.exitTealet hslot₂ fun hf p hp heq => ?_
      by_contra hpne
      rw [hby₂] at hp
      rw [hcur] at hpne
      have hoff := h.shared (P := fun _ => s.foldOnExit = false)
        (fun p hp hs hpne => by simpa using hc hon p hp hs hpne) p hp heq hpne
      rw [hkeep', hoff] at hf
      cases hf
  exact (hleaves.congr hrun₂ hdead₂ (hsame.enabled.trans henabled)).switchTo hne hlive

omit [DecidableEq κ] [DecidableEq φ] in
theorem Inv.unseen (h : Inv s) (hoff : s.enabled = false) : Inv (s.go t target exits) := by
  have hempty := h.quiet hoff
  have hsub : ∀ a, a ∉ (s.go t target exits).dead → a ∉ s.dead := by
    intro a ha hmem
    refine ha ?_
    unfold State.go
    dsimp only
    split
    · exact mem_cons_of_mem _ hmem
    · exact hmem
  exact ⟨h.fresh, h.bound, h.slots, h.lastActive, h.keys, h.home, h.homes, h.apart,
    fun p hp q hq hlp hlq => h.one p hp q hq (hsub _ hlp) (hsub _ hlq), fun _ i _ => (hempty i).owned _,
    fun p _ _ _ _ => (hempty p.2).owned _, fun _ => hempty⟩

omit [DecidableEq φ] in
theorem Inv.disable (h : Inv s) (now : Int) : Inv (s.disable now) := by
  unfold State.disable
  split
  · have hids : (s.stackList.map (Stack.flush now)).map Stack.id = s.ids := by
      rw [map_map]
      exact map_congr_left fun st _ => Stack.id_flush now st
    have hempty : ∀ i, ({ s with
        enabled := false
        stackList := s.stackList.map (Stack.flush now)
        lastActive := none } : State κ φ).Empty i := by
      intro i st hst _
      rcases mem_map.1 hst with ⟨old, -, rfl⟩
      exact Stack.owners_flush now old
    refine ⟨?_, ?_, ?_, by simp, h.keys, h.home, h.homes, h.apart, h.one, fun _ i _ => (hempty i).owned _,
      fun p _ _ _ _ => (hempty p.2).owned _, fun _ => hempty⟩
    · unfold State.ids
      rw [hids]
      exact h.fresh
    · unfold State.ids
      rw [hids]
      exact h.bound
    · unfold State.ids
      rw [hids]
      exact h.slots
  · exact h

omit [DecidableEq κ] [DecidableEq φ] in
theorem Inv.enable (h : Inv s) (t : Nat) (slice : Bool) : Inv (s.enable t slice) := by
  unfold State.enable
  split
  · exact h
  · have hclear : Inv { s with sliceGil := slice, lastActive := none } :=
      h.same ⟨rfl, rfl, rfl, rfl, rfl, rfl, rfl⟩ (by simp)
    have hinv := (hclear.ensureCurrent t).1
    exact ⟨hinv.fresh, hinv.bound, hinv.slots, hinv.lastActive, hinv.keys, hinv.home,
      hinv.homes, hinv.apart, hinv.one,
      hinv.current, hinv.rest, nofun⟩

omit [DecidableEq φ] in
theorem Inv.enterCall (h : Inv s) (family : κ → Option φ) (t : Nat) (now : Int) (key : κ) :
    Inv (s.enterCall family t now key) := by
  unfold State.enterCall
  split
  · rename_i hon
    rcases h.ensureCurrent t with ⟨hinv, hslot, -, -, hrun, henabled, -⟩
    have hgil := sameOwners_gilHandoff (s.ensureCurrent t).1 now (s.ensureCurrent t).2
    refine (hinv.gilHandoff (hinv.slots t _ hslot) now).onStack (Stack.id_push family now _ key) ?_ ?_
    · intro a ho hcur st hst hid
      have hslot' := hgil.1.slots ▸ hslot
      have ha : a = s.current t := by
        rw [hcur t hslot', hgil.1.current, State.current, State.current, hrun]
      rcases mem_map.1 hst with ⟨old, hold, rfl⟩
      by_cases heq : old.id = (s.ensureCurrent t).2
      · rw [if_pos heq]
        intro o hmem
        rcases mem_cons.1 hmem with rfl | hmem
        · exact ha.symm
        · exact ho old hold heq o hmem
      · rw [if_neg heq] at hid
        exact absurd hid heq
    · intro hoff
      rw [hgil.1.enabled, henabled, hon] at hoff
      cases hoff
  · exact h

omit [DecidableEq φ] in
theorem Inv.leaveCall (h : Inv s) (t : Nat) (now : Int) (key : κ) : Inv (s.leaveCall t now key) := by
  unfold State.leaveCall
  split
  · split
    · exact h
    · rename_i i hs
      split
      · exact h
      · split
        · exact h
        · refine (h.gilHandoff (h.slots t i hs) now).onStack (Stack.id_pop now key)
            (fun a ho _ st hst hid => ?_) ?_
          · rcases mem_map.1 hst with ⟨old, hold, rfl⟩
            by_cases heq : old.id = i
            · rw [if_pos heq, Stack.owners_pop]
              exact fun o hmem => ho old hold heq o (mem_of_mem_tail hmem)
            · rw [if_neg heq] at hid
              exact absurd hid heq
          · intro _ st hst
            rw [Stack.owners_pop, hst]
            rfl
  · exact h

/-- A clear step gives no frame to the stack of another tealet. -/
theorem Inv.step {family : κ → Option φ} {a : Action κ} (h : Inv s) (hc : s.Clear a)
    (hs : step family s a = some s') : Inv s' := by
  cases a with
  | enable t slice =>
    cases hs
    exact h.enable t slice
  | disable now =>
    cases hs
    exact h.disable now
  | enter t now key =>
    cases hs
    exact h.enterCall family t now key
  | leave t now key =>
    cases hs
    exact h.leaveCall t now key
  | switch t now target exits =>
    simp only [Profiler.step] at hs
    split at hs
    · cases hs
    · rename_i hnot
      cases hs
      rcases not_or.1 hnot with ⟨hne, hlive⟩
      cases hon : s.enabled with
      | true => exact h.traceCb hon hc hne hlive
      | false =>
        simpa [State.traceCb, hon] using h.unseen hon
  | setFold on =>
    cases hs
    exact h.same ⟨rfl, rfl, rfl, rfl, rfl, rfl, rfl⟩ h.lastActive

/-! ## The tealets that run -/

/-- No running tealet has exited. -/
def State.Alive (s : State κ φ) : Prop :=
  ∀ t, s.current t ∉ s.dead

/-- What only a switch changes. -/
def State.life (s : State κ φ) : (Nat → Nat) × List Tealet :=
  (s.running, s.dead)

omit [DecidableEq κ] [DecidableEq φ] in
theorem State.Alive.congr (h : s.Alive) (hlife : s'.life = s.life) : s'.Alive := by
  rcases Prod.mk.inj hlife with ⟨hrun, hdead⟩
  intro u
  rw [State.current, hrun, hdead]
  exact h u

omit [DecidableEq κ] [DecidableEq φ] in
@[simp]
theorem life_onStack (s : State κ φ) (i : Nat) (f : Stack κ φ → Stack κ φ) :
    (s.onStack i f).life = s.life :=
  rfl

omit [DecidableEq κ] [DecidableEq φ] in
@[simp]
theorem life_gilHandoff (s : State κ φ) (now : Int) (i : Nat) : (s.gilHandoff now i).life = s.life := by
  have hsame := (sameOwners_gilHandoff s now i).1
  exact Prod.ext hsame.running hsame.dead

omit [DecidableEq κ] [DecidableEq φ] in
@[simp]
theorem life_ensureCurrent (s : State κ φ) (t : Nat) : (s.ensureCurrent t).1.life = s.life := by
  unfold State.ensureCurrent
  split <;> rfl

theorem life_exitTealet (s : State κ φ) (t : Nat) (now : Int) (a : Tealet) (i : Nat) :
    (s.exitTealet t now a i).life = s.life := by
  unfold State.exitTealet State.foldStack
  generalize hs₁ : (s.onStack i (Stack.flush now)).unbindTealet a = s₁
  have hlife : s₁.life = s.life := by
    rw [← hs₁]
    rfl
  have hmerge := (sameOwners_mergeStack s₁ i).1
  have hmerge' : (s₁.mergeStack i).life = s.life := (Prod.ext hmerge.running hmerge.dead).trans hlife
  split
  · dsimp only
    split
    · exact hmerge'
    · exact hmerge'
  · exact hlife

omit [DecidableEq κ] [DecidableEq φ] in
theorem life_switchTo (s : State κ φ) (t : Nat) (now : Int) (a : Tealet) :
    (s.switchTo t now a).life = s.life := by
  have hensure : (s.ensureTealet a).1.life = s.life := by
    unfold State.ensureTealet
    split <;> rfl
  unfold State.switchTo
  dsimp only
  split
  · exact hensure
  · exact hensure

theorem life_traceCb (s : State κ φ) (t : Nat) (now : Int) (a : Tealet) (exits : Bool) :
    (s.traceCb t now a exits).life = s.life := by
  unfold State.traceCb
  split
  · rw [life_switchTo]
    have hbind : ∀ (s₁ : State κ φ) (b : Tealet) (i : Nat), (s₁.bindTealet b i).life = s₁.life :=
      fun _ _ _ => rfl
    split
    · rw [life_exitTealet, hbind, life_onStack, life_gilHandoff, life_ensureCurrent]
    · rw [hbind, life_onStack, life_gilHandoff, life_ensureCurrent]
  · rfl

omit [DecidableEq κ] [DecidableEq φ] in
theorem State.Alive.go (h : s.Alive) (hlife : s'.life = s.life)
    (hne : target ≠ s.running t) (hlive : (⟨t, target⟩ : Tealet) ∉ s.dead) :
      (s'.go t target exits).Alive := by
  rcases Prod.mk.inj hlife with ⟨hrun, hdead⟩
  intro u hu
  have hmem : (s'.go t target exits).current u ∈ s.dead ∨
      (s'.go t target exits).current u = s.current t := by
    have hu' : (s'.go t target exits).current u ∈ (if exits then s'.current t :: s'.dead else s'.dead) := hu
    rw [hdead, State.current, State.current, hrun] at hu'
    split at hu'
    · rcases mem_cons.1 hu' with heq | hu'
      · exact .inr heq
      · exact .inl hu'
    · exact .inl hu'
  by_cases hut : u = t
  · subst hut
    have hcur : (s'.go u target exits).current u = ⟨u, target⟩ := by simp [State.go, State.current]
    rw [hcur] at hmem
    rcases hmem with hmem | heq
    · exact hlive hmem
    · exact hne (congrArg Tealet.id heq)
  · have hcur : (s'.go t target exits).current u = s.current u :=
    by simp [State.go, State.current, hut, hrun]
    rw [hcur] at hmem
    rcases hmem with hmem | heq
    · exact h u hmem
    · exact hut (congrArg Tealet.thread heq)

theorem State.Alive.step {family : κ → Option φ} {a : Action κ} (h : s.Alive)
    (hs : step family s a = some s') :
    s'.Alive := by
  cases a with
  | enable t slice =>
    cases hs
    refine h.congr ?_
    unfold State.enable
    split
    · rfl
    · exact life_ensureCurrent { s with sliceGil := slice, lastActive := none } t
  | disable now =>
    cases hs
    refine h.congr ?_
    unfold State.disable
    split <;> rfl
  | enter t now key =>
    cases hs
    refine h.congr ?_
    unfold State.enterCall
    split
    · rw [life_onStack, life_gilHandoff, life_ensureCurrent]
    · rfl
  | leave t now key =>
    cases hs
    refine h.congr ?_
    unfold State.leaveCall
    repeat' split
    all_goals simp
  | switch t now target exits =>
    simp only [Profiler.step] at hs
    split at hs
    · cases hs
    · rename_i hnot
      cases hs
      rcases not_or.1 hnot with ⟨hne, hlive⟩
      exact h.go (life_traceCb s t now ⟨t, target⟩ exits) hne hlive
  | setFold on =>
    cases hs
    exact h.congr rfl

/-! ## A tealet that shares the current stack -/

omit [DecidableEq κ] [DecidableEq φ] in
theorem mem_byTealet_bindTealet {p : Tealet × Nat} (hp : p ∈ s.byTealet) (hne : p.1 ≠ a) (i : Nat) :
    p ∈ (s.bindTealet a i).byTealet :=
  mem_cons_of_mem _ (mem_filter.2 ⟨hp, by simpa using hne⟩)

omit [DecidableEq κ] [DecidableEq φ] in
theorem mem_byTealet_switchTo (t : Nat) (now : Int) (a : Tealet) {p : Tealet × Nat} (hp : p ∈ s.byTealet) :
    p ∈ (s.switchTo t now a).byTealet := by
  have hensure : p ∈ (s.ensureTealet a).1.byTealet := by
    unfold State.ensureTealet
    split
    · exact hp
    · rename_i hl
      exact mem_byTealet_bindTealet (s := s.newStack a) hp (lookupTealet_eq_none hl p hp) s.nextId
  unfold State.switchTo
  dsimp only
  split
  · exact hensure
  · exact hensure

omit [DecidableEq κ] [DecidableEq φ] in
theorem not_mem_ids_switchTo (hgone : i ∉ s.ids) (hold : i < s.nextId) : i ∉ (s.switchTo t now a).ids := by
  have hensure : i ∉ (s.ensureTealet a).1.ids := by
    unfold State.ensureTealet
    split
    · exact hgone
    · intro hmem
      rcases mem_cons.1 hmem with heq | hmem
      · exact Nat.lt_irrefl _ (heq ▸ hold)
      · exact hgone hmem
  have hresume : ∀ s₁ : State κ φ, s₁.ids = (s.ensureTealet a).1.ids →
      i ∉ (s₁.onStack (s.ensureTealet a).2 (Stack.resume now)).ids := by
    intro s₁ heq
    rw [ids_onStack s₁ _ (Stack.id_resume now), heq]
    exact hensure
  unfold State.switchTo
  dsimp only
  split
  · exact hresume _ rfl
  · exact hresume _ rfl

theorem nextId_exitTealet (s : State κ φ) (t : Nat) (now : Int) (a : Tealet) (i : Nat) :
    (s.exitTealet t now a i).nextId = s.nextId := by
  unfold State.exitTealet State.foldStack
  generalize hs₁ : (s.onStack i (Stack.flush now)).unbindTealet a = s₁
  have hnext : s₁.nextId = s.nextId := by
    rw [← hs₁]
    rfl
  have hmerge := (sameOwners_mergeStack s₁ i).1.nextId
  split
  · dsimp only
    split
    · exact hmerge.trans hnext
    · exact hmerge.trans hnext
  · exact hnext

theorem exitTealet_folds (hfold : s.foldOnExit = true) (t : Nat) (now : Int) (a : Tealet) (i : Nat) :
    (∀ p ∈ s.byTealet, p.1 ≠ a → p ∈ (s.exitTealet t now a i).byTealet) ∧
      i ∉ (s.exitTealet t now a i).ids := by
  unfold State.exitTealet State.foldStack
  generalize hs₁ : (s.onStack i (Stack.flush now)).unbindTealet a = s₁
  have hfields : s₁.foldOnExit = true ∧ ∀ p ∈ s.byTealet, p.1 ≠ a → p ∈ s₁.byTealet := by
    subst hs₁
    exact ⟨hfold, fun p hp hne => mem_filter.2 ⟨hp, by simpa using hne⟩⟩
  have hmerge := (sameOwners_mergeStack s₁ i).1.byTealet
  have hfree : ∀ s₂ : State κ φ, s₂.byTealet = s₁.byTealet →
      (∀ p ∈ s.byTealet, p.1 ≠ a → p ∈ (s₂.unlinkAndFree i).byTealet) ∧ i ∉ (s₂.unlinkAndFree i).ids := by
    intro s₂ hby
    refine ⟨fun p hp hne => ?_, fun hmem => ?_⟩
    · show p ∈ s₂.byTealet
      rw [hby]
      exact hfields.2 p hp hne
    · rcases mem_map.1 hmem with ⟨st, hst, heq⟩
      simpa [heq] using (mem_filter.1 hst).2
  rw [if_pos hfields.1]
  dsimp only
  split
  · exact hfree _ hmerge
  · exact hfree _ hmerge

theorem Inv.breaks {family : κ → Option φ} {act : Action κ} (h : Inv s)
    (halive : s.Alive) (hc : ¬ s.Clear act)
    (hs : Profiler.step family s act = some s') : ¬ Separate s' := by
  cases act with
  | switch t now target exits =>
    simp only [State.Clear, not_forall] at hc
    rcases hc with ⟨hon, p, hp, hslot, hne, hbad⟩
    simp only [Profiler.step] at hs
    split at hs
    · cases hs
    · cases hs
      intro hsep
      have hcurrent : s.ensureCurrent t = (s, p.2) := by
        unfold State.ensureCurrent
        rw [hslot]
      have hgil := sameOwners_gilHandoff s now p.2
      have hpause := hgil.1.trans
        (sameOwners_onStack (s.gilHandoff now p.2) p.2 (Stack.id_pause now) (Stack.owners_pause now))
      have hfold : ((s.gilHandoff now p.2).onStack p.2 (Stack.pause now)).foldOnExit = s.foldOnExit :=
        foldOnExit_gilHandoff s now p.2
      unfold State.traceCb at hsep
      rw [if_pos hon, hcurrent] at hsep
      dsimp only at hsep
      generalize (s.gilHandoff now p.2).onStack p.2 (Stack.pause now) = s₂ at hpause hfold hsep
      have hp₂ : p ∈ s₂.byTealet := hpause.byTealet ▸ hp
      cases exits with
      | false =>
        -- the origin and the other tealet now have the same stack
        have hdead : ∀ b, b ∉ s.dead → b ∉
            (((s₂.bindTealet (s.current t) p.2).switchTo t now ⟨t, target⟩).go t target false).dead := by
          intro b hb hmem
          have hlife := life_switchTo (s₂.bindTealet (s.current t) p.2) t now ⟨t, target⟩
          have hmem' : b ∈ ((s₂.bindTealet (s.current t) p.2).switchTo t now ⟨t, target⟩).dead := hmem
          rw [(Prod.mk.inj hlife).2] at hmem'
          exact hb (hpause.dead ▸ hmem')
        have hother := mem_byTealet_switchTo t now ⟨t, target⟩
          (mem_byTealet_bindTealet hp₂ hne p.2)
        have horigin :
            (s.current t, p.2) ∈ ((s₂.bindTealet (s.current t) p.2).switchTo t
              now ⟨t, target⟩).byTealet :=
          mem_byTealet_switchTo t now _ mem_cons_self
        have hlive : p.1 ∉ s.dead := by simpa using hbad
        exact hne (hsep.one p hother _ horigin (hdead _ hlive) (hdead _ (halive t)) rfl)
      | true =>
        -- the other tealet is left with a stack that has been freed
        have hf : s₂.foldOnExit = true := by
          rw [hfold]
          simpa using hbad
        rcases exitTealet_folds (s := s₂.bindTealet (s.current t) p.2) hf t now
          (s.current t) p.2 with ⟨hkeep, hgone⟩
        have hother := mem_byTealet_switchTo t now ⟨t, target⟩
          (hkeep p (mem_byTealet_bindTealet hp₂ hne p.2) hne)
        refine not_mem_ids_switchTo hgone ?_ (hsep.bound p hother)
        rw [nextId_exitTealet]
        show p.2 < s₂.nextId
        rw [hpause.nextId]
        exact h.fresh _ (h.bound p hp)
  | _ => exact absurd trivial hc

end Keys

end Rules

section Runs

variable [DecidableEq κ] [DecidableEq φ]

/-- In every run, the stacks are kept apart throughout if and only if every switch that the profiler
sees leaves a stack that no other tealet has. -/
theorem stacks_separate (family : κ → Option φ) (foldOnExit : Bool) (run : List (Action κ)) :
    Always (step family) Separate (init foldOnExit) run ↔
      Along (step family) State.Clear (init foldOnExit) run :=
  always_iff_along (I := fun s => Inv s ∧ s.Alive) (fun _ h => h.1.separate)
    (fun _ _ _ h hc hs => ⟨h.1.step hc hs, h.2.step hs⟩) (fun _ _ _ h hc hs => h.1.breaks h.2 hc hs) run _
    ⟨Inv.init foldOnExit, fun _ => not_mem_nil⟩

end Runs

/-- Two tealets take turns; while the profiler is off the second one goes on.  Then a switch back to
the first leaves the second on the stack of the first, with its frame. -/
theorem unseen_switch_shares_stack : ∃ s,
    exec (step fun _ : Nat => (none : Option Nat)) (init true)
      [.enable 0 true, .switch 0 1 1 false, .switch 0 2 0 false, .disable 3,
        .switch 0 4 1 false, .enable 0 true,
        .enter 0 5 7, .switch 0 6 0 false] = some s ∧ ¬ Separate s := by
  refine ⟨_, rfl, fun h => ?_⟩
  have hsame := h.one (⟨0, 0⟩, 0) (by decide) (⟨0, 1⟩, 0) (by decide) (by decide) (by decide) rfl
  exact absurd (congrArg Tealet.id hsame) (by decide)

end Pytealet.Profiler
