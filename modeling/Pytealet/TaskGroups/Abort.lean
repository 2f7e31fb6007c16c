import Mathlib.Data.List.TakeWhile
import Pytealet.TaskGroups.Join

/-!
# Abort — how often a task group throws into its children and its parent

The first failure of a child queues `_request_abort`, and so does every further one until it has
run: only then is `_aborting` set.  Each of these calls throws into the children that are left, and
into the parent.

A run of the group is watched for the tealets that `_request_abort` throws into.
-/

namespace Pytealet.TaskGroups

open Lib Lib.Transition List Bool

variable {ε : Type*} {s s' : State ε}

/-! ## The failures of the children -/

/-- `_on_task_done` takes it for a failure. -/
def Exc.failed : Exc ε → Bool
  | .ours | .cancelled => false
  | _ => true

/-- The child and its exception, if it has failed. -/
def failing (c : Nat) : Option (Exc ε) → Option (Nat × Exc ε)
  | some e => if e.failed then some (c, e) else none
  | none => none

/-- The failure of a child for which `_on_task_done` is called in this action. -/
def failure (s : State ε) (a : Act ε) : Option (Nat × Exc ε) :=
  match a with
  | .finish c e => if c ∈ s.tasks then failing c e else none
  -- an eager child that has ended inside its `spawn`
  | .resume t false =>
    match s.pos t with
    | .inSpawn c =>
      match (setPos s t .user).pos c with
      | .done e => failing c e
      | _ => none
    | _ => none
  | .callback c =>
    match s.pos c with
    | .done e => failing c e
    | _ => none
  -- a child that has not started yet ends with what is thrown into it
  | .throw c e _ =>
    match s.pos c with
    | .primed => if c ∈ s.tasks then failing c (some e.exc) else none
    | _ => none
  | _ => none

theorem failing_isSome (c : Nat) (e : Option (Exc ε)) : (failing c e).isSome = e.any Exc.failed := by
  cases e with
  | none => rfl
  | some e =>
    unfold failing
    dsimp only [Option.any_some]
    split
    · rename_i hfailed
      exact hfailed.symm
    · rename_i hnot
      exact (by simpa using hnot : e.failed = false).symm

theorem ite_failing_isSome {p : Prop} [Decidable p] (c : Nat) (e : Option (Exc ε)) :
    (if p then failing c e else none).isSome = (decide p && e.any Exc.failed) := by
  by_cases hp : p
  · rw [if_pos hp, decide_eq_true hp, Bool.true_and, failing_isSome]
  · rw [if_neg hp, decide_eq_false hp, Bool.false_and]
    rfl

/-! ## The watched group -/

structure Watched (ε : Type*) where
  group : State ε
  /-- a `_request_abort` has begun -/
  begun : Bool
  /-- the tealets that it has thrown into, in this order -/
  thrown : List Nat

/-- The tealets into which `_request_abort` throws in this action. -/
def requested (s : State ε) : Act ε → List Nat
  | .request order => receivers s (.request order)
  | .drainTurn => receivers s .drainTurn
  | _ => []

def Act.isRequest : Act ε → Bool
  | .request _ => true
  | _ => false

def watchedStep (w : Watched ε) (a : Act ε) : Option (Watched ε) :=
  (step w.group a).map fun s => ⟨s, w.begun || a.isRequest, w.thrown ++ requested w.group a⟩

def watched : Watched ε :=
  ⟨init, false, []⟩

/-- Nobody is cancelled twice for the failures of the children. -/
def Watched.Single (w : Watched ε) : Prop :=
  w.thrown.Nodup

/-- A `_request_abort` that is not the first one finds no child to cancel, and the parent
leaving. -/
def Watched.Late (w : Watched ε) : Act ε → Prop
  | .request _ => w.begun = true → 0 < w.group.requests →
      (∀ c ∈ w.group.tasks, (w.group.pos c).isDone = true) ∧ w.group.exiting = true
  | _ => True

/-- No failure comes while a `_request_abort` is queued and none has run. -/
def Watched.Lone (w : Watched ε) (a : Act ε) : Prop :=
  w.group.aborting = false → 0 < w.group.requests → failure w.group a = none

/-! ## What the other steps leave alone -/

/-- The parent is not among the children, and no tealet of the group runs `_request_abort`. -/
structure Small (s : State ε) : Prop where
  next : 0 < s.next
  tasks : 0 ∉ s.tasks
  spawned : ∀ t c, s.pos t = .inSpawn c → 0 < c
  runner : ∀ t rest k, s.pos t = .inAbort rest k → k ≠ .request

/-- A place where this leaves a tealet. -/
def Pos.Aside : Pos ε → Prop
  | .inSpawn c => 0 < c
  | .inAbort _ k => k ≠ .request
  | _ => True

/-- What a step does with the requests, if it calls `_on_task_done` with a failure or not. -/
structure Quiet (fails : Bool) (s s' : State ε) : Prop where
  drain : s'.drain = s.drain
  requests : s'.requests = s.requests ∨ fails = true ∧ s.aborting = false ∧ s'.requests = s.requests + 1
  aborting : s.aborting = true → s'.aborting = true
  small : Small s → Small s'

namespace Quiet

theorem refl (s : State ε) : Quiet false s s :=
  ⟨rfl, .inl rfl, id, id⟩

theorem trans {fails : Bool} {s₁ : State ε} (h : Quiet false s s₁) (h' : Quiet fails s₁ s') :
    Quiet fails s s' where
  drain := h'.drain.trans h.drain
  requests := by
    have hsame : s₁.requests = s.requests := h.requests.resolve_right fun hr => false_ne_true hr.1
    rw [← hsame]
    refine h'.requests.imp_right fun hr => ⟨hr.1, ?_, hr.2.2⟩
    by_contra htrue
    have hset := h.aborting (by simpa using htrue)
    rw [hr.2.1] at hset
    cases hset
  aborting := fun hset => h'.aborting (h.aborting hset)
  small := fun hsmall => h'.small (h.small hsmall)

theorem weaken (h : Quiet false s s') (fails : Bool) : Quiet fails s s' :=
  ⟨h.drain, .inl (h.requests.resolve_right fun hr => false_ne_true hr.1), h.aborting, h.small⟩

theorem setPos (s : State ε) (t : Nat) {p : Pos ε} (hp : Small s → p.Aside) :
    Quiet false s (TaskGroups.setPos s t p) := by
  refine ⟨rfl, .inl rfl, id, fun hsmall => ⟨hsmall.next, hsmall.tasks, fun u c hu =>
    ?_, fun u rest k hu => ?_⟩⟩
  · by_cases hut : u = t
    · subst hut
      simp only [TaskGroups.setPos, Function.update_self] at hu
      have haside := hp hsmall
      rw [hu] at haside
      exact haside
    · exact hsmall.spawned u c (by simpa [TaskGroups.setPos, hut] using hu)
  · by_cases hut : u = t
    · subst hut
      simp only [TaskGroups.setPos, Function.update_self] at hu
      have haside := hp hsmall
      rw [hu] at haside
      exact haside
    · exact hsmall.runner u rest k (by simpa [TaskGroups.setPos, hut] using hu)

theorem setDone (s : State ε) : Quiet false s (setDone s) := by
  refine ⟨rfl, .inl rfl, id, fun hsmall => ⟨hsmall.next, hsmall.tasks, fun t c ht =>
    ?_, fun t rest k ht => ?_⟩⟩
  · exact hsmall.spawned t c ((setDone_pos_iff s t (by simp)).1 ht)
  · exact hsmall.runner t rest k ((setDone_pos_iff s t (by simp)).1 ht)

theorem recordError (s : State ε) (e : Option (Exc ε)) :
    Quiet (e.any Exc.failed) s (TaskGroups.recordError s e) := by
  have hsmall : Small s → Small (TaskGroups.recordError s e) := fun hs =>
    ⟨recordError_next s e ▸ hs.next, recordError_tasks s e ▸ hs.tasks,
      recordError_pos s e ▸ hs.spawned, recordError_pos s e ▸ hs.runner⟩
  have hcount : ∀ {n : Nat}, n = (if s.aborting then s.requests else s.requests + 1) →
      n = s.requests ∨ s.aborting = false ∧ n = s.requests + 1 := by
    intro n hn
    cases haborting : s.aborting with
    | true =>
      rw [haborting] at hn
      exact .inl hn
    | false =>
      rw [haborting] at hn
      exact .inr ⟨rfl, hn⟩
  cases e with
  | none => exact ⟨rfl, .inl rfl, id, hsmall⟩
  | some e =>
    cases e with
    | ours => exact ⟨rfl, .inl rfl, id, hsmall⟩
    | cancelled => exact ⟨rfl, .inl rfl, id, hsmall⟩
    | timeout => exact ⟨rfl, (hcount rfl).imp_right fun h => ⟨rfl, h⟩, id, hsmall⟩
    | exception e => exact ⟨rfl, (hcount rfl).imp_right fun h => ⟨rfl, h⟩, id, hsmall⟩
    | base e => exact ⟨rfl, (hcount rfl).imp_right fun h => ⟨rfl, h⟩, id, hsmall⟩

theorem onTaskDone (s : State ε) (c : Nat) (e : Option (Exc ε)) :
    Quiet (e.any Exc.failed) s (TaskGroups.onTaskDone s c e) := by
  have herase : Quiet false s { s with tasks := s.tasks.erase c } :=
    ⟨rfl, .inl rfl, id, fun hs => ⟨hs.next, fun h0 => hs.tasks (Finset.mem_of_mem_erase h0), hs.spawned,
      hs.runner⟩⟩
  unfold TaskGroups.onTaskDone
  dsimp only
  split
  · exact herase.trans ((setDone _).trans (recordError _ e))
  · exact herase.trans (recordError _ e)

theorem finishChild (s : State ε) (c : Nat) (e : Option (Exc ε)) :
    Quiet (decide (c ∈ s.tasks) && e.any Exc.failed) s (TaskGroups.finishChild s c e) := by
  have hmoved : Quiet false s (TaskGroups.setPos s c (.done e)) := setPos s c fun _ => trivial
  unfold TaskGroups.finishChild
  dsimp only
  split
  · rename_i hmem
    rw [decide_eq_true hmem, Bool.true_and]
    exact hmoved.trans (onTaskDone _ c e)
  · exact hmoved.weaken _

theorem leave (s : State ε) (r : ExitResult ε) : Quiet false s (leave s r) := by
  have hmoved : Quiet false s (TaskGroups.setPos s 0 (.exited r)) := setPos s 0 fun _ => trivial
  exact ⟨rfl, .inl rfl, id, fun hs => ⟨hs.next, hs.tasks, (hmoved.small hs).spawned,
    (hmoved.small hs).runner⟩⟩

theorem joinLoop (s : State ε) (f : Frame ε) : Quiet false s (joinLoop s f) := by
  unfold TaskGroups.joinLoop
  split
  · exact leave s _
  · split
    · exact setPos s 0 fun _ => trivial
    · exact setPos s 0 fun _ => trivial

/-- An exception that `_on_task_done` does not take for a failure, or that does not end a child. -/
theorem interrupt (s : State ε) (t : Nat) {e : Exc ε}
    (he : s.pos t = .primed → t ∈ s.tasks → e.failed = false) :
    Quiet false s (interrupt s t e) := by
  unfold TaskGroups.interrupt
  cases hp : s.pos t with
  | primed =>
    have hquiet := finishChild s t (some e)
    have hfalse : (decide (t ∈ s.tasks) && (some e).any Exc.failed) = false := by
      by_cases hmem : t ∈ s.tasks
      · rw [decide_eq_true hmem, Bool.true_and]
        exact he hp hmem
      · rw [decide_eq_false hmem, Bool.false_and]
    rw [hfalse] at hquiet
    exact hquiet
  | inSpawn c => exact setPos s t fun _ => trivial
  | inAbort rest k =>
    cases k with
    | join f => exact leave s _
    | cancel u => exact setPos s t fun _ => trivial
    | request => exact setPos s t fun _ => trivial
  | _ => exact refl s

theorem interrupt_ours (s : State ε) (t : Nat) : Quiet false s (TaskGroups.interrupt s t .ours) :=
  interrupt s t fun _ _ => rfl

theorem abortLoop (s : State ε) (k : After ε) (hk : k ≠ .request) (order : List Nat) :
    Quiet false s (abortLoop s k order) := by
  have hsuspend : ∀ rest, Quiet false s (suspend s k rest) := by
    intro rest
    cases k with
    | cancel t => exact setPos s t fun _ => hk
    | join f => exact setPos s 0 fun _ => hk
    | request => exact absurd rfl hk
  unfold TaskGroups.abortLoop
  split
  · cases k with
    | cancel t => exact setPos s t fun _ => trivial
    | join f => exact joinLoop s f
    | request => exact absurd rfl hk
  · rename_i c rest _
    exact (hsuspend rest).trans (interrupt_ours _ c)

theorem abortChildren (s : State ε) (k : After ε) (hk : k ≠ .request) (order : List Nat) :
    Quiet false s (abortChildren s k order) := by
  have hset : Quiet false s { s with aborting := true } :=
    ⟨rfl, .inl rfl, fun _ => rfl, fun hs => ⟨hs.next, hs.tasks, hs.spawned, hs.runner⟩⟩
  exact hset.trans (abortLoop _ k hk order)

theorem spawn (s : State ε) (t : Nat) (eager : Bool) : Quiet false s (spawn s t eager) := by
  let s₁ : State ε := { s with doneSet := if s.tasks = ∅ then false else s.doneSet, next := s.next + 1 }
  have hnumber : Quiet false s s₁ :=
    ⟨rfl, .inl rfl, id, fun hs => ⟨Nat.succ_pos _, hs.tasks, hs.spawned, hs.runner⟩⟩
  have hplace : ∀ p : Pos ε, p.Aside → Quiet false s (TaskGroups.setPos s₁ s.next p) := fun p hp =>
    hnumber.trans (setPos s₁ s.next fun _ => hp)
  cases eager with
  | true =>
    have hchild := hplace .user trivial
    -- the number of the child is not that of the parent
    refine ⟨rfl, .inl rfl, id, fun hs => ?_⟩
    have hmoved := setPos (TaskGroups.setPos s₁ s.next .user) t (p := .inSpawn s.next) fun _ => hs.next
    exact hmoved.small (hchild.small hs)
  | false =>
    have hchild := hplace .primed trivial
    refine ⟨rfl, .inl rfl, id, fun hs => ?_⟩
    have hsmall := hchild.small hs
    refine ⟨hsmall.next, fun h0 => ?_, hsmall.spawned, hsmall.runner⟩
    rcases Finset.mem_insert.1 h0 with heq | h0
    · exact absurd heq hs.next.ne
    · exact hs.tasks h0

theorem register {t c : Nat} (ht : s.pos t = .inSpawn c) (hosted : Bool) :
    Quiet (failure s (.resume t hosted)).isSome s (register (TaskGroups.setPos s t .user) c hosted) := by
  have hmoved : Quiet false s (TaskGroups.setPos s t .user) := setPos s t fun _ => trivial
  have hadded : Quiet false s { TaskGroups.setPos s t .user with tasks := insert c s.tasks } := by
    refine ⟨rfl, .inl rfl, id, fun hs => ?_⟩
    have hsmall := hmoved.small hs
    refine ⟨hsmall.next, fun h0 => ?_, hsmall.spawned, hsmall.runner⟩
    rcases Finset.mem_insert.1 h0 with heq | h0
    · exact absurd heq (hs.spawned t c ht).ne
    · exact hs.tasks h0
  unfold TaskGroups.register
  cases hc : (TaskGroups.setPos s t .user).pos c with
  | done e =>
    cases hosted with
    | true =>
      refine ⟨rfl, .inl rfl, id, fun hs => ?_⟩
      have hsmall := hadded.small hs
      exact ⟨hsmall.next, hsmall.tasks, hsmall.spawned, hsmall.runner⟩
    | false =>
      have hfails : (failure s (.resume t false)).isSome = e.any Exc.failed := by
        simp only [failure, ht, hc]
        exact failing_isSome c e
      rw [hfails]
      exact hadded.trans (onTaskDone _ c e)
  | _ => exact hadded.weaken _

theorem step {a : Act ε} (hsmall : Small s) (hrequest : a.isRequest = false) (hdrain : a ≠ .drainTurn)
    (hs : step s a = some s') : Quiet (failure s a).isSome s s' := by
  cases Move.of_step hs with
  | enter => exact ⟨rfl, .inl rfl, id, fun hs => ⟨hs.next, hs.tasks, hs.spawned, hs.runner⟩⟩
  | spawn t eager ht hc => exact (spawn s t eager).weaken _
  | refused t eager ht hc => exact (refl s).weaken _
  | begin c hc =>
    have hmoved : Quiet false s (TaskGroups.setPos s c .user) := setPos s c fun _ => trivial
    exact hmoved.weaken _
  | register t c hosted ht => exact register ht hosted
  | abortTurn t hosted rest k ht => exact (abortLoop s k (hsmall.runner t rest k ht) rest).weaken _
  | joinTurn t hosted f ht => exact (joinLoop s f).weaken _
  | callback c e hc hd =>
    have hfails : (failure s (.callback c)).isSome = e.any Exc.failed := by
      simp only [failure, hc]
      exact failing_isSome c e
    rw [hfails]
    have hforget : Quiet false s { s with deferred := s.deferred.erase c } :=
      ⟨rfl, .inl rfl, id, fun hs => ⟨hs.next, hs.tasks, hs.spawned, hs.runner⟩⟩
    exact hforget.trans (onTaskDone _ c e)
  | finish c e hc h0 =>
    have hfails : (failure s (.finish c e)).isSome = (decide (c ∈ s.tasks) && e.any Exc.failed) :=
      ite_failing_isSome c e
    rw [hfails]
    exact finishChild s c e
  | exitAbort body order h0 hl hb =>
    have hexit : Quiet false s { s with exiting := true } :=
      ⟨rfl, .inl rfl, id, fun hs => ⟨hs.next, hs.tasks, hs.spawned, hs.runner⟩⟩
    exact (hexit.trans (abortChildren _ (.join _) nofun order)).weaken _
  | exitJoin body order h0 hl hb =>
    have hexit : Quiet false s { s with exiting := true } :=
      ⟨rfl, .inl rfl, id, fun hs => ⟨hs.next, hs.tasks, hs.spawned, hs.runner⟩⟩
    exact (hexit.trans (joinLoop _ _)).weaken _
  | throw t e order hl =>
    unfold deliver
    cases hp : s.pos t with
    | inJoin f w =>
      cases e with
      | cancelled => exact (abortChildren s (.join _) nofun order).weaken _
      | timeout => exact (abortChildren s (.join _) nofun order).weaken _
    | primed =>
      have hfails : (failure s (.throw t e order)).isSome =
          (decide (t ∈ s.tasks) && (some (e.exc : Exc ε)).any Exc.failed) := by
        simp only [failure, hp]
        exact ite_failing_isSome t (some e.exc)
      rw [hfails]
      dsimp only
      unfold TaskGroups.interrupt
      rw [hp]
      exact finishChild s t (some e.exc)
    | _ => exact (interrupt s t fun hprimed => by rw [hp] at hprimed; cases hprimed).weaken _
  | cancel t order ht hl => exact (abortChildren s (.cancel t) nofun order).weaken _
  | request order hr hd hl => cases hrequest
  | drainTurn rest hd => exact absurd rfl hdrain

end Quiet

/-! ## The loop of `_request_abort` -/

theorem requestLoop (s : State ε) (order : List Nat) :
    (∃ c rest, (c :: rest).Sublist order ∧ abortReceivers s .request order = [c] ∧
        (abortLoop s .request order).drain = some rest) ∨
      abortReceivers s .request order = (if s.exiting then [] else [0]) ∧
        (abortLoop s .request order).drain = none := by
  unfold abortLoop abortReceivers
  cases hd : order.dropWhile (skip s .request) with
  | cons c rest =>
    have hsub : (c :: rest).Sublist order := hd ▸ dropWhile_sublist _
    exact .inl ⟨c, rest, hsub, rfl, (Quiet.interrupt_ours (suspend s .request rest) c).drain⟩
  | nil =>
    refine .inr ⟨rfl, ?_⟩
    unfold afterAbort
    dsimp only
    split
    · rfl
    · exact (Quiet.interrupt_ours { s with drain := none } 0).drain

theorem requestLoop_quiet (s : State ε) (order : List Nat) :
    (abortLoop s .request order).requests = s.requests ∧
      (s.aborting = true → (abortLoop s .request order).aborting = true) ∧
      (Small s → Small (abortLoop s .request order)) := by
  have hdrain : ∀ drain : Option (List Nat), Small s → Small { s with drain := drain } := fun _ hs =>
    ⟨hs.next, hs.tasks, hs.spawned, hs.runner⟩
  have hthrow : ∀ (drain : Option (List Nat)) (t : Nat),
      (interrupt { s with drain := drain } t .ours).requests = s.requests ∧
        (s.aborting = true → (interrupt { s with drain := drain } t .ours).aborting = true) ∧
        (Small s → Small (interrupt { s with drain := drain } t .ours)) := by
    intro drain t
    have hquiet := Quiet.interrupt_ours { s with drain := drain } t
    exact ⟨hquiet.requests.resolve_right fun hr => false_ne_true hr.1, hquiet.aborting,
      fun hs => hquiet.small (hdrain drain hs)⟩
  unfold abortLoop
  split
  · unfold afterAbort
    dsimp only
    split
    · exact ⟨rfl, id, hdrain none⟩
    · exact hthrow none 0
  · rename_i c rest _
    exact hthrow (some rest) c

/-! ## The invariant -/

structure Watched.Inv (w : Watched ε) : Prop where
  small : Small w.group
  idle : w.begun = false → w.thrown = [] ∧ w.group.drain = none
  /-- the first `_request_abort` is in its loop -/
  loop : ∀ rest, w.group.drain = some rest → (w.thrown ++ rest).Nodup ∧ 0 ∉ w.thrown ++ rest
  single : w.thrown.Nodup

/-- At most one `_request_abort` is queued or has begun. -/
structure Watched.Once (w : Watched ε) : Prop where
  small : Small w.group
  one : w.group.requests ≤ 1
  begun : w.begun = true → w.group.aborting = true ∧ w.group.requests = 0

theorem watchedStep_eq {w w' : Watched ε} {a : Act ε} (hs : watchedStep w a = some w') :
    ∃ s', step w.group a = some s' ∧
      w' = ⟨s', w.begun || a.isRequest, w.thrown ++ requested w.group a⟩ := by
  rcases Option.map_eq_some_iff.1 hs with ⟨s', hstep, rfl⟩
  exact ⟨s', hstep, rfl⟩

namespace Watched.Inv

variable {w w' : Watched ε}

theorem aside (h : w.Inv) {a : Act ε} (hrequest : a.isRequest = false) (hdrain : a ≠ .drainTurn)
    (hs : step w.group a = some s') : Watched.Inv ⟨s', w.begun || a.isRequest,
      w.thrown ++ requested w.group a⟩ := by
  have hquiet := Quiet.step h.small hrequest hdrain hs
  have hnone : requested w.group a = [] := by
    cases a with
    | request order => cases hrequest
    | drainTurn => exact absurd rfl hdrain
    | _ => rfl
  rw [hrequest, hnone, Bool.or_false, List.append_nil]
  exact ⟨hquiet.small h.small, fun hb => ⟨(h.idle hb).1, hquiet.drain.trans (h.idle hb).2⟩,
    fun rest hrest => h.loop rest (hquiet.drain.symm.trans hrest), h.single⟩

theorem turn {s : State ε} {thrown order : List Nat} (hsmall : Small s) (hnodup : (thrown ++ order).Nodup)
    (h0 : 0 ∉ thrown ++ order) :
    Watched.Inv ⟨abortLoop s .request order, true, thrown ++ abortReceivers s .request order⟩ := by
  have hsmall' := (requestLoop_quiet s order).2.2 hsmall
  rcases requestLoop s order with ⟨c, rest, hsub, hreceivers, hloop⟩ | ⟨hreceivers, hloop⟩
  · have hall : (thrown ++ [c] ++ rest).Sublist (thrown ++ order) := by
      rw [append_assoc]
      exact (List.Sublist.refl thrown).append hsub
    rw [hreceivers]
    refine ⟨hsmall', nofun, fun rest' hrest => ?_, ?_⟩
    · cases hloop.symm.trans hrest
      exact ⟨hall.nodup hnodup, fun hmem => h0 (hall.subset hmem)⟩
    · exact (nodup_append.1 (hall.nodup hnodup)).1
  · rw [hreceivers]
    refine ⟨hsmall', nofun, fun rest' hrest => (nomatch hloop.symm.trans hrest), ?_⟩
    have hthrown := (nodup_append.1 hnodup).1
    split
    · rw [append_nil]
      exact hthrown
    · -- the parent comes last
      refine nodup_append.2 ⟨hthrown, nodup_singleton 0, fun a ha b hb hab => ?_⟩
      cases mem_singleton.1 hb
      exact h0 (mem_append_left _ (hab ▸ ha))

/-- The one `_request_abort` goes through its list, and throws into each child once. -/
theorem step {a : Act ε} (h : w.Inv) (hlate : w.Late a) (hs : watchedStep w a = some w') : w'.Inv := by
  rcases watchedStep_eq hs with ⟨s', hstep, rfl⟩
  by_cases hrequest : a.isRequest = true
  · cases a with
    | request order =>
      cases Move.of_step hstep with
      | request _ hr hd hl =>
        have hreceived : requested w.group (.request order) =
            abortReceivers { w.group with requests := w.group.requests - 1, aborting := true }
              .request order := rfl
        have hsmall : Small { w.group with requests := w.group.requests - 1, aborting := true } :=
          ⟨h.small.next, h.small.tasks, h.small.spawned, h.small.runner⟩
        have h0 : 0 ∉ order := fun hmem => h.small.tasks (hl.2 ▸ mem_toFinset.2 hmem)
        cases hbegun : w.begun with
        | false =>
          rw [(h.idle hbegun).1, hreceived]
          exact turn hsmall hl.1 h0
        | true =>
          rcases hlate hbegun hr with ⟨hdone, hexiting⟩
          -- it passes over all children, and over the parent
          have hskip : order.dropWhile (skip w.group .request) = [] := by
            rw [dropWhile_eq_nil_iff]
            intro c hc
            have hmem : c ∈ w.group.tasks := hl.2 ▸ mem_toFinset.2 hc
            unfold skip
            rw [hdone c hmem, Bool.or_true]
          have hnone : requested w.group (.request order) = [] := by
            rw [hreceived]
            unfold abortReceivers
            split
            · rename_i hcons
              cases hcons.symm.trans hskip
            · exact if_pos hexiting
          have hidle :=
            requestLoop { w.group with requests := w.group.requests - 1, aborting := true } order
          rw [hreceived] at hnone
          rcases hidle with ⟨c, rest, -, hreceivers, -⟩ | ⟨-, hloop⟩
          · rw [hnone] at hreceivers
            cases hreceivers
          · rw [hreceived, hnone, append_nil]
            exact ⟨(requestLoop_quiet _ order).2.2 hsmall, (fun hnot => by cases hnot),
              (fun rest hrest => by cases hloop.symm.trans hrest), h.single⟩
    | _ => cases hrequest
  · by_cases hdrain : a = .drainTurn
    · subst hdrain
      cases Move.of_step hstep with
      | drainTurn rest hd =>
        have hbegun : w.begun = true := by
          by_contra hfalse
          have hnone := (h.idle (by simpa using hfalse)).2
          rw [hd] at hnone
          cases hnone
        have hreceived : requested w.group .drainTurn = abortReceivers w.group .request rest := by
          unfold requested receivers
          rw [hd]
        rw [hbegun, hreceived]
        exact turn h.small (h.loop rest hd).1 (h.loop rest hd).2
    · exact h.aside (by simpa using hrequest) hdrain hstep

theorem watched : (watched : Watched ε).Inv := by
  refine ⟨⟨Nat.one_pos, Finset.notMem_empty 0, fun t c ht => ?_, fun t rest k ht => ?_⟩,
    fun _ => ⟨rfl, rfl⟩, nofun,
    nodup_nil⟩
  · by_cases h0 : t = 0 <;> simp [TaskGroups.watched, init, h0] at ht
  · by_cases h0 : t = 0 <;> simp [TaskGroups.watched, init, h0] at ht

end Watched.Inv

theorem Watched.Once.step {w w' : Watched ε} {a : Act ε} (h : w.Once) (hlone : w.Lone a)
    (hs : watchedStep w a = some w') : w'.Once := by
  rcases watchedStep_eq hs with ⟨s', hstep, rfl⟩
  by_cases hrequest : a.isRequest = true
  · cases a with
    | request order =>
      cases Move.of_step hstep with
      | request _ hr hd hl =>
        have hsmall : Small { w.group with requests := w.group.requests - 1, aborting := true } :=
          ⟨h.small.next, h.small.tasks, h.small.spawned, h.small.runner⟩
        rcases requestLoop_quiet { w.group with requests := w.group.requests - 1, aborting := true } order with
          ⟨hrequests, haborting, hkeep⟩
        have hzero : w.group.requests - 1 = 0 := Nat.sub_eq_zero_of_le h.one
        refine ⟨hkeep hsmall, ?_, fun _ => ⟨haborting rfl, hrequests.trans hzero⟩⟩
        exact (hrequests.trans hzero).le.trans (Nat.zero_le 1)
    | _ => cases hrequest
  · by_cases hdrain : a = .drainTurn
    · subst hdrain
      cases Move.of_step hstep with
      | drainTurn rest hd =>
        rcases requestLoop_quiet w.group rest with ⟨hrequests, haborting, hkeep⟩
        refine ⟨hkeep h.small, hrequests.le.trans h.one, fun hb => ?_⟩
        have hbegun := h.begun (by simpa [Act.isRequest] using hb)
        exact ⟨haborting hbegun.1, hrequests.trans hbegun.2⟩
    · have hfalse : a.isRequest = false := by simpa using hrequest
      have hquiet := Quiet.step h.small hfalse hdrain hstep
      rcases hquiet.requests with hsame | ⟨hfails, haborting, hmore⟩
      · refine ⟨hquiet.small h.small, hsame.le.trans h.one, fun hb => ?_⟩
        have hbegun := h.begun (by simpa [hfalse] using hb)
        exact ⟨hquiet.aborting hbegun.1, hsame.trans hbegun.2⟩
      · -- the first failure
        have hzero : w.group.requests = 0 := by
          by_contra hne
          rw [hlone haborting (Nat.pos_of_ne_zero hne)] at hfails
          cases hfails
        refine ⟨hquiet.small h.small, (hmore.trans (by rw [hzero])).le, fun hb => ?_⟩
        have hbegun := h.begun (by simpa [hfalse] using hb)
        rw [haborting] at hbegun
        cases hbegun.1

theorem Watched.Once.late {w : Watched ε} {a : Act ε} (h : w.Once) : w.Late a := by
  cases a with
  | request order =>
    intro hb hr
    rw [(h.begun hb).2] at hr
    cases hr
  | _ => trivial

/-- Nobody is cancelled twice for the failures of the children, if every `_request_abort` after the
first one finds nobody to cancel any more; that is so if no failure comes while one is queued. -/
theorem single_abort (acts : List (Act ε)) :
    (Along watchedStep Watched.Late watched acts → Always watchedStep Watched.Single watched acts) ∧
      (Along watchedStep Watched.Lone watched acts → Along watchedStep Watched.Late watched acts) := by
  have hsmall := (Watched.Inv.watched : (watched : Watched ε).Inv).small
  constructor
  · exact always_of_along (I := Watched.Inv) (fun _ h => h.single)
      (fun _ _ _ h hlate hs => h.step hlate hs) acts watched
      Watched.Inv.watched
  · exact along_of_along (I := Watched.Once) (fun _ _ h _ => h.late)
      (fun _ _ _ h hlone hs => h.step hlone hs) acts watched
      ⟨hsmall, Nat.zero_le 1, nofun⟩

/-- One child fails; the other one and the parent are cancelled. -/
theorem single_abort_two :
    Played watchedStep (Always watchedStep Watched.Single) (watched : Watched Nat)
      [.enter, .spawn 0 false, .spawn 0 false, .begin 1, .begin 2, .finish 1 (some (.exception 5)),
        .request [2], .drainTurn,
        .finish 2 (some .ours), .exit (some .ours) []] :=
  ⟨(single_abort _).1 ⟨trivial, trivial, trivial, trivial, trivial, trivial, nofun, trivial,
    trivial, trivial, trivial⟩,
    by decide⟩

/-- Two children fail before the abort runs: the third one and the parent are cancelled twice. -/
theorem two_failures_abort_twice : ∃ w : Watched Nat,
    exec watchedStep watched
        [.enter, .spawn 0 false, .spawn 0 false, .spawn 0 false, .begin 1, .begin 2, .begin 3,
          .finish 1 (some (.exception 5)), .finish 2 (some (.exception 6)), .request [3],
          .drainTurn, .request [3],
          .drainTurn] = some w ∧
      w.thrown = [3, 0, 3, 0] ∧ ¬ w.Single := by
  refine ⟨_, rfl, rfl, fun h => ?_⟩
  have hthrown : [3, 0, 3, 0].Nodup := h
  exact absurd hthrown (by decide)

end Pytealet.TaskGroups
