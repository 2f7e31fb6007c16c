import Pytealet.TaskGroups.Model

/-!
# Join — what is left when `TaskGroup.__exit__` is over

Every child that the group has started is done, or registered in `_tasks`, or it is an eager child
whose spawner is still inside `spawn`.  `_join` waits until `_tasks` is empty.  An unregistered
child hangs below a spawner with a smaller number, and so on down to a child that is registered or
to the parent itself; when `_join` returns, neither is there.

The chain breaks when an exception reaches a tealet inside `spawn`, and the wait is skipped when one
reaches the parent inside the `_abort_children` of `__exit__` or of `_join`.
-/

namespace Pytealet.TaskGroups

open Lib Lib.Transition Function

variable {ε : Type*}

/-! ## Which tealets an action throws into -/

/-- The tealet into which the loop of `_abort_children` throws next, or the parent when
`_request_abort` has come to the end of its loop. -/
def abortReceivers (s : State ε) (k : After ε) (order : List Nat) : List Nat :=
  match order.dropWhile (skip s k) with
  | c :: _ => [c]
  | [] =>
    match k with
    | .request => if s.exiting then [] else [0]
    | _ => []

/-- The tealets that receive an exception in this action. -/
def receivers (s : State ε) : Act ε → List Nat
  | .resume t _ =>
    match s.pos t with
    | .inAbort rest k => abortReceivers s k rest
    | _ => []
  | .exit body order =>
    if body.isSome ∧ ¬ s.aborting then
      abortReceivers s (.join { body := body, timeoutExc := false, cancelExc := false }) order
    else
      []
  | .throw t _ order =>
    match s.pos t with
    | .inJoin f _ => abortReceivers s (.join f) order
    | _ => [t]
  | .cancel t order => abortReceivers s (.cancel t) order
  | .request order => abortReceivers s .request order
  | .drainTurn =>
    match s.drain with
    | some rest => abortReceivers s .request rest
    | none => []
  | _ => []

/-- The two switch points at which the code is not prepared for an exception: inside `spawn` while
an eager child runs, and inside the `_abort_children` of `__exit__` or `_join`. -/
def Pos.unprotected : Pos ε → Bool
  | .inSpawn _ => true
  | .inAbort _ (.join _) => true
  | _ => false

/-- No exception arrives at an unprotected switch point. -/
def Guard (s : State ε) (a : Act ε) : Prop :=
  ∀ t ∈ receivers s a, (s.pos t).unprotected = false

instance (s : State ε) (a : Act ε) : Decidable (Guard s a) :=
  inferInstanceAs (Decidable (∀ t ∈ _, _))

/-! ## The invariant -/

/-- When the `with` block is over, every child that was started is done. -/
def Joined (s : State ε) : Prop :=
  ∀ r, s.pos 0 = .exited r → ∀ c, 0 < c → c < s.next → ∃ e, s.pos c = .done e

/-- A child is in `_tasks`, or in its `spawn`, until it is done. -/
structure Inv (s : State ε) : Prop where
  born : 0 < s.next
  parent : s.pos 0 ≠ .primed ∧ ∀ e, s.pos 0 ≠ .done e
  unborn : ∀ t, s.next ≤ t → s.pos t = .unborn
  spawner : ∀ t c, s.pos t = .inSpawn c → t < c
  runner : ∀ t rest k, s.pos t = .inAbort rest k → k.self = some t
  joiner : ∀ t f w, s.pos t = .inJoin f w → t = 0
  kept : ∀ c, 0 < c → c < s.next →
    (∃ e, s.pos c = .done e) ∨ c ∈ s.tasks ∨ ∃ t, s.pos t = .inSpawn c
  joined : Joined s

theorem Inv.init : Inv (init : State ε) where
  born := Nat.one_pos
  parent := by simp [TaskGroups.init]
  unborn := by
    intro t ht
    have h0 : t ≠ 0 := by
      intro h0
      simp [TaskGroups.init, h0] at ht
    simp [TaskGroups.init, h0]
  spawner := by
    intro t c h
    by_cases ht : t = 0 <;> simp [TaskGroups.init, ht] at h
  runner := by
    intro t rest k h
    by_cases ht : t = 0 <;> simp [TaskGroups.init, ht] at h
  joiner := by
    intro t f w h
    by_cases ht : t = 0 <;> simp [TaskGroups.init, ht] at h
  kept := by
    intro c h0 hc
    simp only [TaskGroups.init] at hc
    omega
  joined := by
    intro r h
    simp [TaskGroups.init] at h

variable {s : State ε}

theorem Inv.lt_next {t : Nat} (h : Inv s) (ht : s.pos t ≠ .unborn) : t < s.next := by
  by_contra hlt
  exact ht (h.unborn t (by omega))

/-- With nothing registered and the parent outside `spawn`, no child is left: a child that is not
done hangs below one with a smaller number. -/
theorem Inv.all_done (h : Inv s) (htasks : s.tasks = ∅)
    (h0 : ∀ c, s.pos 0 ≠ .inSpawn c) : ∀ c, 0 < c → c < s.next → ∃ e, s.pos c = .done e := by
  intro c
  -- on the number of the child: a spawner is older than its child
  induction c using Nat.strong_induction_on with
  | _ c ih =>
    intro hpos hlt
    rcases h.kept c hpos hlt with hdone | hmem | ⟨t, ht⟩
    · exact hdone
    · simp [htasks] at hmem
    · -- the spawner `t` is not done, so it would have to be the parent
      have htc : t < c := h.spawner t c ht
      by_cases ht0 : t = 0
      · exact absurd (ht0 ▸ ht) (h0 c)
      · rcases ih t htc (by omega) (by omega) with ⟨e, he⟩
        rw [ht] at he
        cases he

/-! ## Moving one tealet -/

/-- The places to which a tealet may be moved without further ado. -/
def Plain (t : Nat) : Pos ε → Prop
  | .user => True
  | .spinning => True
  | .inJoin _ _ => t = 0
  | .inAbort _ k => k.self = some t
  | .done _ => 0 < t
  | _ => False

theorem Inv.setPos {t : Nat} {p : Pos ε} (h : Inv s) (ht : t < s.next)
    (hspawn : ∀ c, s.pos t ≠ .inSpawn c) (hdone : ∀ e, s.pos t ≠ .done e) (hp : Plain t p) :
    Inv (setPos s t p) := by
  refine ⟨h.born, ?_, ?_, ?_, ?_, ?_, ?_, ?_⟩
  · by_cases ht0 : t = 0
    · subst ht0
      simp only [TaskGroups.setPos, update_self]
      cases p <;> simp_all [Plain]
    · simpa [TaskGroups.setPos, Ne.symm ht0] using h.parent
  · intro u hu
    have hne : u ≠ t := by
      rintro rfl
      simp only [TaskGroups.setPos] at hu
      omega
    simpa [TaskGroups.setPos, hne] using h.unborn u hu
  · intro u c hu
    by_cases hut : u = t
    · subst hut
      simp only [TaskGroups.setPos, update_self] at hu
      subst hu
      exact absurd hp id
    · exact h.spawner u c (by simpa [TaskGroups.setPos, hut] using hu)
  · intro u rest k hu
    by_cases hut : u = t
    · subst hut
      simp only [TaskGroups.setPos, update_self] at hu
      subst hu
      exact hp
    · exact h.runner u rest k (by simpa [TaskGroups.setPos, hut] using hu)
  · intro u f w hu
    by_cases hut : u = t
    · subst hut
      simp only [TaskGroups.setPos, update_self] at hu
      subst hu
      exact hp
    · exact h.joiner u f w (by simpa [TaskGroups.setPos, hut] using hu)
  · intro c hpos hlt
    rcases h.kept c hpos hlt with ⟨e, he⟩ | hmem | ⟨u, hu⟩
    -- the children that are done stay done
    · have hne : c ≠ t := by
        rintro rfl
        exact hdone e he
      exact .inl ⟨e, by simpa [TaskGroups.setPos, hne] using he⟩
    · exact .inr (.inl hmem)
    · have hne : u ≠ t := by
        rintro rfl
        exact hspawn c hu
      exact .inr (.inr ⟨u, by simpa [TaskGroups.setPos, hne] using hu⟩)
  · intro r hr c hpos hlt
    by_cases ht0 : t = 0
    · subst ht0
      simp only [TaskGroups.setPos, update_self] at hr
      subst hr
      exact absurd hp id
    · -- after the exit all children are done, so `t` could not have moved
      have hr' : s.pos 0 = .exited r := by
        simpa [TaskGroups.setPos, Ne.symm ht0] using hr
      rcases h.joined r hr' t (by omega) ht with ⟨e, he⟩
      exact absurd he (hdone e)

theorem Inv.congr {s s' : State ε} (h : Inv s) (hpos : s'.pos = s.pos) (hnext : s'.next = s.next)
    (htasks : ∀ c ∈ s.tasks, c ∈ s'.tasks ∨ ∃ e, s.pos c = .done e) : Inv s' := by
  refine ⟨hnext ▸ h.born, ?_, ?_, ?_, ?_, ?_, ?_, ?_⟩
  · rw [hpos]
    exact h.parent
  · rw [hpos, hnext]
    exact h.unborn
  · rw [hpos]
    exact h.spawner
  · rw [hpos]
    exact h.runner
  · rw [hpos]
    exact h.joiner
  · rw [hpos, hnext]
    intro c h0 hc
    rcases h.kept c h0 hc with hdone | hmem | hspawn
    · exact .inl hdone
    · exact (htasks c hmem).elim (fun hm => .inr (.inl hm)) .inl
    · exact .inr (.inr hspawn)
  · unfold Joined
    rw [hpos, hnext]
    exact h.joined

/-! ## Completion of a child -/

theorem setDone_pos (s : State ε) (t : Nat) :
    (setDone s).pos t = s.pos t ∨ ∃ f w, s.pos t = .inJoin f w ∧ (setDone s).pos t = .inJoin f true := by
  simp only [setDone]
  cases hp : s.pos t with
  | inJoin f w => exact .inr ⟨f, w, rfl, rfl⟩
  | _ => exact .inl rfl

theorem setDone_pos_iff (s : State ε) (t : Nat) {p : Pos ε} (hp : ∀ f w, p ≠ .inJoin f w) :
    (setDone s).pos t = p ↔ s.pos t = p := by
  rcases setDone_pos s t with heq | ⟨f, w, hold, hnew⟩
  · rw [heq]
  · rw [hold, hnew]
    exact ⟨fun h => absurd h.symm (hp f true), fun h => absurd h.symm (hp f w)⟩

theorem Inv.setDone (h : Inv s) : Inv (setDone s) := by
  have hiff := setDone_pos_iff s
  refine ⟨h.born, ?_, ?_, ?_, ?_, ?_, ?_, ?_⟩
  · refine ⟨fun hp => h.parent.1 ((hiff 0 (by simp)).1 hp), ?_⟩
    intro e hp
    exact h.parent.2 e ((hiff 0 (by simp)).1 hp)
  · intro t ht
    exact (hiff t (by simp)).2 (h.unborn t ht)
  · intro t c ht
    exact h.spawner t c ((hiff t (by simp)).1 ht)
  · intro t rest k ht
    exact h.runner t rest k ((hiff t (by simp)).1 ht)
  · intro t f w ht
    rcases setDone_pos s t with heq | ⟨f', w', hold, -⟩
    · exact h.joiner t f w (heq ▸ ht)
    · exact h.joiner t f' w' hold
  · intro c h0 hc
    rcases h.kept c h0 hc with ⟨e, he⟩ | hmem | ⟨t, ht⟩
    · exact .inl ⟨e, (hiff c (by simp)).2 he⟩
    · exact .inr (.inl hmem)
    · exact .inr (.inr ⟨t, (hiff t (by simp)).2 ht⟩)
  · intro r hr c h0 hc
    rcases h.joined r ((hiff 0 (by simp)).1 hr) c h0 hc with ⟨e, he⟩
    exact ⟨e, (hiff c (by simp)).2 he⟩

theorem recordError_pos (s : State ε) (e : Option (Exc ε)) : (recordError s e).pos = s.pos := by
  unfold recordError
  split <;> rfl

theorem recordError_next (s : State ε) (e : Option (Exc ε)) : (recordError s e).next = s.next := by
  unfold recordError
  split <;> rfl

theorem recordError_tasks (s : State ε) (e : Option (Exc ε)) :
    (recordError s e).tasks = s.tasks := by
  unfold recordError
  split <;> rfl

theorem Inv.recordError (h : Inv s) (e : Option (Exc ε)) : Inv (recordError s e) :=
  h.congr (recordError_pos s e) (recordError_next s e)
    (fun _ hc => .inl (recordError_tasks s e ▸ hc))

theorem Inv.onTaskDone {c : Nat} {e₀ : Option (Exc ε)} (h : Inv s)
    (hc : s.pos c = .done e₀) (e : Option (Exc ε)) : Inv (onTaskDone s c e) := by
  have herase : Inv { s with tasks := s.tasks.erase c } := by
    refine h.congr rfl rfl ?_
    intro c' hc'
    by_cases hcc : c' = c
    · exact .inr ⟨e₀, hcc ▸ hc⟩
    · exact .inl (Finset.mem_erase.2 ⟨hcc, hc'⟩)
  simp only [TaskGroups.onTaskDone]
  split
  · exact herase.setDone.recordError e
  · exact herase.recordError e

theorem Inv.finishChild {c : Nat} (h : Inv s) (h0 : 0 < c)
    (hc : s.pos c = .user ∨ s.pos c = .primed) (e : Option (Exc ε)) : Inv (finishChild s c e) := by
  have hlt : c < s.next := h.lt_next (by rcases hc with hc | hc <;> simp [hc])
  have hmoved : Inv (TaskGroups.setPos s c (.done e)) := by
    refine h.setPos hlt ?_ ?_ h0
    · intro c'
      rcases hc with hc | hc <;> simp [hc]
    · intro e'
      rcases hc with hc | hc <;> simp [hc]
  simp only [TaskGroups.finishChild]
  split
  · have hdone : (TaskGroups.setPos s c (.done e)).pos c = .done e := update_self ..
    exact hmoved.onTaskDone hdone e
  · exact hmoved

/-! ## The parent leaves or waits -/

theorem Inv.leave (h : Inv s) (htasks : s.tasks = ∅)
    (h0 : ∀ c, s.pos 0 ≠ .inSpawn c) (r : ExitResult ε) : Inv (leave s r) := by
  -- the only state in which `__exit__` may end
  have hdone := h.all_done htasks h0
  have hpos : ∀ t, t ≠ 0 → (TaskGroups.leave s r).pos t = s.pos t := by
    intro t ht
    simp [TaskGroups.leave, TaskGroups.setPos, ht]
  have hpos0 : (TaskGroups.leave s r).pos 0 = .exited r := by
    simp [TaskGroups.leave, TaskGroups.setPos]
  have hall : ∀ c, 0 < c → c < s.next → ∃ e, (TaskGroups.leave s r).pos c = .done e := by
    intro c hc hlt
    rw [hpos c (by omega)]
    exact hdone c hc hlt
  refine ⟨h.born, by simp [hpos0], ?_, ?_, ?_, ?_, fun c hc hlt => .inl (hall c hc hlt),
    fun _ _ => hall⟩
  · intro t ht
    have hb := h.born
    have ht' : s.next ≤ t := ht
    rw [hpos t (by omega)]
    exact h.unborn t ht'
  · intro t c ht
    by_cases ht0 : t = 0
    · simp [ht0, hpos0] at ht
    · exact h.spawner t c (hpos t ht0 ▸ ht)
  · intro t rest k ht
    by_cases ht0 : t = 0
    · simp [ht0, hpos0] at ht
    · exact h.runner t rest k (hpos t ht0 ▸ ht)
  · intro t f w ht
    by_cases ht0 : t = 0
    · exact ht0
    · exact h.joiner t f w (hpos t ht0 ▸ ht)

theorem Inv.joinLoop (h : Inv s) (h0 : ∀ c, s.pos 0 ≠ .inSpawn c)
    (hd : ∀ e, s.pos 0 ≠ .done e) (f : Frame ε) : Inv (joinLoop s f) := by
  unfold TaskGroups.joinLoop
  split
  · rename_i htasks
    exact h.leave htasks h0 _
  · split
    · exact h.setPos h.born h0 hd trivial
    · exact h.setPos h.born h0 hd rfl

/-! ## Exceptions and the abort loop -/

theorem Inv.interrupt {t : Nat} (h : Inv s) (ht : (s.pos t).unprotected = false)
    (e : Exc ε) : Inv (interrupt s t e) := by
  unfold TaskGroups.interrupt
  cases hp : s.pos t with
  | primed =>
    have h0 : 0 < t := by
      rcases Nat.eq_zero_or_pos t with rfl | hpos
      · exact absurd hp h.parent.1
      · exact hpos
    exact h.finishChild h0 (.inr hp) _
  | inSpawn c => simp [hp, Pos.unprotected] at ht
  -- the loop is given up; only in `cancel` does its caller go on
  | inAbort rest k =>
    have hmoved : Inv (TaskGroups.setPos s t .user) :=
      h.setPos (h.lt_next (by simp [hp])) (by simp [hp]) (by simp [hp]) trivial
    cases k with
    | join f => simp [hp, Pos.unprotected] at ht
    | cancel u => exact hmoved
    | request => exact hmoved
  | _ => exact h

/-- The tealet that runs an abort loop is not inside `spawn`, and it is not done. -/
def Runs (s : State ε) (k : After ε) : Prop :=
  ∀ t, k.self = some t → t < s.next ∧ (∀ c, s.pos t ≠ .inSpawn c) ∧ ∀ e, s.pos t ≠ .done e

theorem Inv.suspend {k : After ε} (h : Inv s) (hk : Runs s k) (rest : List Nat) :
    Inv (suspend s k rest) := by
  cases k with
  | cancel t =>
    rcases hk t rfl with ⟨hlt, hspawn, hdone⟩
    exact h.setPos hlt hspawn hdone rfl
  | join f =>
    rcases hk 0 rfl with ⟨hlt, hspawn, hdone⟩
    exact h.setPos hlt hspawn hdone rfl
  | request => exact h.congr rfl rfl fun _ hc => .inl hc

theorem suspend_pos {k : After ε} {c : Nat} (hc : k.self ≠ some c) (rest : List Nat) :
    (suspend s k rest).pos c = s.pos c := by
  cases k with
  | cancel t =>
    have hne : c ≠ t := fun heq => hc (by simp [After.self, heq])
    simp [suspend, setPos, hne]
  | join f =>
    have hne : c ≠ 0 := fun heq => hc (by simp [After.self, heq])
    simp [suspend, setPos, hne]
  | request => rfl

theorem Inv.abortLoop {k : After ε} {order : List Nat} (h : Inv s) (hk : Runs s k)
    (hg : ∀ t ∈ abortReceivers s k order, (s.pos t).unprotected = false) :
    Inv (abortLoop s k order) := by
  unfold TaskGroups.abortLoop
  cases hd : order.dropWhile (skip s k) with
  | nil =>
    simp only [abortReceivers, hd] at hg
    cases k with
    | cancel t =>
      rcases hk t rfl with ⟨hlt, hspawn, hdone⟩
      exact h.setPos hlt hspawn hdone trivial
    | join f =>
      rcases hk 0 rfl with ⟨-, hspawn, hdone⟩
      exact h.joinLoop hspawn hdone f
    | request =>
      have hdrain : Inv { s with drain := none } := h.congr rfl rfl fun _ hc => .inl hc
      -- `_request_abort` has thrown into all children and turns to the parent
      simp only [afterAbort]
      split
      · exact hdrain
      · rename_i hexit
        exact hdrain.interrupt (hg 0 (by simp [hexit])) .ours
  | cons c rest =>
    -- `c` was not passed over, so it is not the tealet that runs the loop
    have hskip : skip s k c = false := by
      have hhead := List.head_dropWhile_not (skip s k) (l := order) (by simp [hd])
      simpa [hd] using hhead
    have hself : k.self ≠ some c := by
      intro heq
      simp [skip, heq] at hskip
    have hc : (s.pos c).unprotected = false := hg c (by simp [abortReceivers, hd])
    refine (h.suspend hk rest).interrupt ?_ .ours
    rw [suspend_pos hself]
    exact hc

theorem Inv.abortChildren {k : After ε} {order : List Nat} (h : Inv s)
    (hk : Runs s k) (hg : ∀ t ∈ abortReceivers s k order, (s.pos t).unprotected = false) :
    Inv (abortChildren s k order) := by
  have haborting : Inv { s with aborting := true } := h.congr rfl rfl fun _ hc => .inl hc
  exact haborting.abortLoop hk hg

/-! ## Spawning -/

theorem Inv.grow {s s' : State ε} (h : Inv s) (hnext : s'.next = s.next + 1)
    (hexit : ∀ r, s'.pos 0 ≠ .exited r)
    (hnew : s'.pos s.next = .user ∨ s'.pos s.next = .primed)
    (hold : ∀ u, u ≠ s.next →
      s'.pos u = s.pos u ∨ (s.pos u = .user ∧ s'.pos u = .inSpawn s.next))
    (htasks : s.tasks ⊆ s'.tasks)
    (hkept : s.next ∈ s'.tasks ∨ ∃ t, s'.pos t = .inSpawn s.next) : Inv s' := by
  have hborn := h.born
  refine ⟨by omega, ?_, ?_, ?_, ?_, ?_, ?_, fun r hr => absurd hr (hexit r)⟩
  · rcases hold 0 (by omega) with heq | ⟨-, heq⟩
    · rw [heq]
      exact h.parent
    · simp [heq]
  · intro u hu
    rcases hold u (by omega) with heq | ⟨huser, -⟩
    · rw [heq]
      exact h.unborn u (by omega)
    · simp [h.unborn u (by omega)] at huser
  · intro u c hu
    by_cases hun : u = s.next
    · subst hun
      rcases hnew with hnew | hnew <;> simp [hnew] at hu
    · rcases hold u hun with heq | ⟨huser, heq⟩
      · exact h.spawner u c (heq ▸ hu)
      · have hlt : u < s.next := h.lt_next (by simp [huser])
        rw [heq] at hu
        cases hu
        exact hlt
  · intro u rest k hu
    by_cases hun : u = s.next
    · subst hun
      rcases hnew with hnew | hnew <;> simp [hnew] at hu
    · rcases hold u hun with heq | ⟨-, heq⟩
      · exact h.runner u rest k (heq ▸ hu)
      · simp [heq] at hu
  · intro u f w hu
    by_cases hun : u = s.next
    · subst hun
      rcases hnew with hnew | hnew <;> simp [hnew] at hu
    · rcases hold u hun with heq | ⟨-, heq⟩
      · exact h.joiner u f w (heq ▸ hu)
      · simp [heq] at hu
  · intro c h0 hc
    by_cases hcn : c = s.next
    · subst hcn
      exact .inr hkept
    · rcases h.kept c h0 (by omega) with ⟨e, he⟩ | hmem | ⟨u, hu⟩
      · rcases hold c hcn with heq | ⟨huser, -⟩
        · exact .inl ⟨e, heq ▸ he⟩
        · simp [he] at huser
      · exact .inr (.inl (htasks hmem))
      · have hun : u ≠ s.next := by
          rintro rfl
          simp [h.unborn s.next (le_refl _)] at hu
        rcases hold u hun with heq | ⟨huser, -⟩
        · exact .inr (.inr ⟨u, heq ▸ hu⟩)
        · simp [hu] at huser

theorem Inv.spawn {t : Nat} (h : Inv s) (ht : s.pos t = .user) (eager : Bool) :
    Inv (spawn s t eager) := by
  have hlt : t < s.next := h.lt_next (by simp [ht])
  have hborn := h.born
  -- somebody still runs, so the group has not been left
  have hexit : ∀ r, s.pos 0 ≠ .exited r := by
    intro r hr
    by_cases ht0 : t = 0
    · simp [← ht0, ht] at hr
    · rcases h.joined r hr t (by omega) hlt with ⟨e, he⟩
      simp [ht] at he
  cases eager with
  | true =>
    refine h.grow rfl ?_ ?_ ?_ (fun _ hc => hc) (.inr ⟨t, by simp [TaskGroups.spawn, TaskGroups.setPos]⟩)
    · intro r
      by_cases ht0 : t = 0
      · simp [TaskGroups.spawn, TaskGroups.setPos, ht0]
      · simpa [TaskGroups.spawn, TaskGroups.setPos, Ne.symm ht0, hborn.ne] using hexit r
    · exact .inl (by simp [TaskGroups.spawn, TaskGroups.setPos, hlt.ne'])
    · intro u hu
      by_cases hut : u = t
      · exact .inr ⟨hut ▸ ht, by simp [TaskGroups.spawn, TaskGroups.setPos, hut]⟩
      · exact .inl (by simp [TaskGroups.spawn, TaskGroups.setPos, hut, hu])
  | false =>
    refine h.grow rfl ?_ ?_ ?_ (Finset.subset_insert _ _) (.inl (Finset.mem_insert_self _ _))
    · intro r
      simpa [TaskGroups.spawn, TaskGroups.setPos, hborn.ne] using hexit r
    · exact .inr (by simp [TaskGroups.spawn, TaskGroups.setPos])
    · intro u hu
      exact .inl (by simp [TaskGroups.spawn, TaskGroups.setPos, hu])

theorem Inv.registered {t c : Nat} (h : Inv s) (ht : s.pos t = .inSpawn c) :
    Inv { TaskGroups.setPos s t .user with tasks := insert c s.tasks } := by
  have hlt : t < s.next := h.lt_next (by simp [ht])
  have hpos : ∀ u, u ≠ t → (TaskGroups.setPos s t .user).pos u = s.pos u := by
    intro u hu
    simp [TaskGroups.setPos, hu]
  have hpost : (TaskGroups.setPos s t .user).pos t = .user := by
    simp [TaskGroups.setPos]
  refine ⟨h.born, ?_, ?_, ?_, ?_, ?_, ?_, ?_⟩
  · by_cases ht0 : t = 0
    · simp [← ht0, hpost]
    · simpa [hpos 0 (Ne.symm ht0)] using h.parent
  · intro u hu
    have hne : u ≠ t := by
      rintro rfl
      simp only [TaskGroups.setPos] at hu
      omega
    simpa [hpos u hne] using h.unborn u hu
  · intro u d hu
    by_cases hut : u = t
    · simp [hut, hpost] at hu
    · exact h.spawner u d (hpos u hut ▸ hu)
  · intro u rest k hu
    by_cases hut : u = t
    · simp [hut, hpost] at hu
    · exact h.runner u rest k (hpos u hut ▸ hu)
  · intro u f w hu
    by_cases hut : u = t
    · simp [hut, hpost] at hu
    · exact h.joiner u f w (hpos u hut ▸ hu)
  · intro d h0 hd
    rcases h.kept d h0 hd with ⟨e, he⟩ | hmem | ⟨u, hu⟩
    · have hne : d ≠ t := by
        rintro rfl
        simp [ht] at he
      exact .inl ⟨e, by simpa [hpos d hne] using he⟩
    · exact .inr (.inl (Finset.mem_insert_of_mem hmem))
    · by_cases hut : u = t
      -- the child that hung on `t` is registered now
      · have hdc : d = c := by
          rw [hut, ht] at hu
          cases hu
          rfl
        exact .inr (.inl (by simp [hdc]))
      · exact .inr (.inr ⟨u, by simpa [hpos u hut] using hu⟩)
  · intro r hr
    by_cases ht0 : t = 0
    · simp [← ht0, hpost] at hr
    · -- after the exit the spawner would be done
      have hr' : s.pos 0 = .exited r := by simpa [hpos 0 (Ne.symm ht0)] using hr
      rcases h.joined r hr' t (by omega) hlt with ⟨e, he⟩
      simp [ht] at he

theorem Inv.register {t c : Nat} (h : Inv s) (ht : s.pos t = .inSpawn c)
    (hosted : Bool) : Inv (register (TaskGroups.setPos s t .user) c hosted) := by
  have hreg := h.registered ht
  unfold TaskGroups.register
  cases hc : (TaskGroups.setPos s t .user).pos c with
  | done e =>
    cases hosted with
    | true => exact hreg.congr rfl rfl fun _ hm => .inl hm
    | false => exact hreg.onTaskDone hc e
  | _ => exact hreg

/-! ## Every run -/

theorem Inv.deliver {t : Nat} {e : Thrown} {order : List Nat} (h : Inv s)
    (hg : Guard s (.throw t e order)) : Inv (deliver s t e.exc order) := by
  unfold TaskGroups.deliver
  cases hp : s.pos t with
  | inJoin f w =>
    have ht0 : t = 0 := h.joiner t f w hp
    subst ht0
    have hruns : ∀ f', Runs s (.join f' : After ε) := by
      intro f' u hu
      cases hu
      exact ⟨h.born, by simp [hp], by simp [hp]⟩
    have habort : ∀ f', Inv (TaskGroups.abortChildren s (.join f') order) := by
      intro f'
      refine h.abortChildren (hruns f') ?_
      intro u hu
      refine hg u ?_
      -- who is thrown into does not depend on what `_join` has caught so far
      have hsame : abortReceivers s (.join f') order = abortReceivers s (.join f) order := rfl
      simpa [receivers, hp, ← hsame] using hu
    cases e with
    | cancelled => exact habort _
    | timeout => exact habort _
  | _ =>
    refine h.interrupt ?_ _
    exact hg t (by simp [receivers, hp])

/-- A child leaves `_tasks` only when it is done. -/
theorem Inv.step {s s' : State ε} {a : Act ε} (h : Inv s) (hg : Guard s a)
    (hs : step s a = some s') : Inv s' := by
  cases Move.of_step hs with
  | enter => exact h.congr rfl rfl fun _ hc => .inl hc
  | spawn t eager ht hc => exact h.spawn ht eager
  | refused t eager ht hc => exact h
  | begin c hc => exact h.setPos (h.lt_next (by simp [hc])) (by simp [hc]) (by simp [hc]) trivial
  | register t c hosted ht => exact h.register ht hosted
  | abortTurn t hosted rest k ht =>
    refine h.abortLoop ?_ ?_
    · -- the tealet that runs the loop is `t` itself
      intro u hu
      have hut : t = u := Option.some.inj ((h.runner t rest k ht).symm.trans hu)
      subst hut
      exact ⟨h.lt_next (by simp [ht]), by simp [ht], by simp [ht]⟩
    · intro u hu
      exact hg u (by simpa [receivers, ht] using hu)
  | joinTurn t hosted f ht =>
    have ht0 : t = 0 := h.joiner t f true ht
    subst ht0
    exact h.joinLoop (by simp [ht]) (by simp [ht]) f
  | callback c e hc hd =>
    have hdef : Inv { s with deferred := s.deferred.erase c } :=
      h.congr rfl rfl fun _ hc => .inl hc
    exact hdef.onTaskDone hc e
  | finish c e hc h0 => exact h.finishChild (Nat.pos_of_ne_zero h0) (.inl hc) e
  | exitAbort body order h0 hl hb =>
    have hexit : Inv { s with exiting := true } := h.congr rfl rfl fun _ hc => .inl hc
    refine hexit.abortChildren ?_ ?_
    · intro u hu
      cases hu
      exact ⟨h.born, by simp [h0], by simp [h0]⟩
    · intro u hu
      have hu' : u ∈ abortReceivers s
          (.join { body := body, timeoutExc := false, cancelExc := false }) order := hu
      exact hg u (by simpa [receivers, hb] using hu')
  | exitJoin body order h0 hl hb =>
    have hexit : Inv { s with exiting := true } := h.congr rfl rfl fun _ hc => .inl hc
    exact hexit.joinLoop (by simp [h0]) (by simp [h0]) _
  | throw t e order hl => exact h.deliver hg
  | cancel t order ht hl =>
    refine h.abortChildren ?_ hg
    intro u hu
    cases hu
    exact ⟨h.lt_next (by simp [ht]), by simp [ht], by simp [ht]⟩
  | request order hr hd hl =>
    -- the loop runs in a callback, so no tealet of the group is suspended in it
    have hreq : Inv { s with requests := s.requests - 1 } :=
      h.congr rfl rfl fun _ hc => .inl hc
    refine hreq.abortChildren ?_ hg
    intro u hu
    cases hu
  | drainTurn rest hd =>
    refine h.abortLoop ?_ ?_
    · intro u hu
      cases hu
    · intro u hu
      exact hg u (by simpa [receivers, hd] using hu)

/-- In every run in which no exception reaches a tealet inside `spawn`, nor the parent inside the
`_abort_children` of `__exit__` or `_join`, every child is done when `__exit__` is over. -/
theorem taskgroup_join (acts : List (Act ε)) :
    Along step Guard init acts → Always step Joined init acts :=
  always_of_along (fun _ h => h.joined) (fun _ _ _ h hg hs => h.step hg hs) acts init Inv.init

/-- An eager child finishes, a second child is started later, and an error in the body aborts it. -/
theorem taskgroup_join_eager_child :
    Played step (Always step Joined) (init : State Nat)
      [.enter, .spawn 0 true, .finish 1 none, .resume 0 false, .spawn 0 false,
        .exit (some (.exception 7)) [2], .resume 0 false] :=
  ⟨taskgroup_join _ (by decide), rfl⟩

/-- Two ways to leave a child behind.  An eager child cancels the parent, which is inside `spawn`:
the child is never registered.  Or a timeout reaches the parent while `__exit__` aborts its
children: `__exit__` ends at once. -/
theorem taskgroup_leaves_child :
    ¬ Always step Joined (init : State Nat)
        [.enter, .spawn 0 true, .throw 0 .cancelled [], .exit (some .cancelled) []] ∧
      ¬ Always step Joined (init : State Nat)
        [.enter, .spawn 0 false, .begin 1, .exit (some (.exception 7)) [1], .throw 0 .timeout [1]] := by
  refine ⟨?_, ?_⟩
  · intro h
    have hjoined := ((((h.next rfl).next rfl).next rfl).next rfl).head
    rcases hjoined _ rfl 1 (by decide) (by decide) with ⟨e, he⟩
    cases he
  · intro h
    have hjoined := (((((h.next rfl).next rfl).next rfl).next rfl).next rfl).head
    rcases hjoined _ rfl 1 (by decide) (by decide) with ⟨e, he⟩
    cases he

end Pytealet.TaskGroups
