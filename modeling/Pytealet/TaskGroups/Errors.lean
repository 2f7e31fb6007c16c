import Mathlib.Data.List.Basic
import Pytealet.TaskGroups.Abort

/-!
# Errors — what `TaskGroup.__exit__` raises

`_on_task_done` is called once for every child, and keeps its failure: the `Exception`s in a list,
and of the others the first one.  When the join is over, `_exit` chooses between them, the exception
of the body, and a timeout or a cancellation that `_join` has caught.

A run of the group is logged: the failures in the order of the calls of `_on_task_done`, and what
the body and the join have come to.
-/

namespace Pytealet.TaskGroups

open Lib Lib.Transition List

variable {ε : Type*} {s s' : State ε}

/-! ## The logged group -/

def Exc.exception? : Exc ε → Option ε
  | .exception e => some e
  | _ => none

/-- A failure that is no `Exception`. -/
def Exc.isBase : Exc ε → Bool
  | .timeout | .base _ => true
  | _ => false

def exceptions (failures : List (Exc ε)) : List ε :=
  failures.filterMap Exc.exception?

structure Collected (ε : Type*) where
  group : State ε
  /-- the children that have failed, in the order of the calls of `_on_task_done` -/
  log : List (Nat × Exc ε)
  /-- the exception of the body, and what `_join` has caught -/
  frame : Frame ε

/-- What `__exit__` is called with, and what its `_join` catches in this action. -/
def caught (s : State ε) (f : Frame ε) : Act ε → Frame ε
  | .exit body _ => { body := body, timeoutExc := false, cancelExc := false }
  | .throw t e _ =>
    match s.pos t with
    | .inJoin _ _ =>
      match e with
      | .cancelled => { f with cancelExc := true }
      | .timeout => { f with timeoutExc := true }
    | _ => f
  | _ => f

def collectedStep (w : Collected ε) (a : Act ε) : Option (Collected ε) :=
  (step w.group a).map fun s => ⟨s, w.log ++ (failure w.group a).toList, caught w.group w.frame a⟩

def collected : Collected ε :=
  ⟨init, [], ⟨none, false, false⟩⟩

/-! ## What is asked of `__exit__` -/

/-- The outcome, from the failures of the children, the exception of the body and what the join has
caught. -/
structure Raises (f : Frame ε) (failures : List (Exc ε)) (r : ExitResult ε) : Prop where
  /-- the first failure that is no `Exception` goes before all others -/
  base : ∀ e, failures.find? Exc.isBase = some e → r = .raised e
  /-- all `Exception`s of the children, and that of the body -/
  group : failures.find? Exc.isBase = none → failures ≠ [] ∨ (∃ e, f.body = some (.exception e)) →
    r = .exceptionGroup (exceptions failures ++ (f.body.bind Exc.exception?).toList)
  /-- no failure: a timeout of the join, then a cancellation -/
  caught : failures = [] → f.body = none →
    r = if f.timeoutExc then .raised .timeout else if f.cancelExc then .raised .cancelled else .returned
  /-- the exception of the body goes on -/
  propagates : failures = [] → ∀ e, f.body = some e → e.exception? = none → r = .returned

/-- When `__exit__` is over, the log has every child that has failed, and has it once; the outcome
is chosen from it. -/
def Collected.Complete (w : Collected ε) : Prop :=
  ∀ r, w.group.pos 0 = .exited r →
    (w.log.map Prod.fst).Nodup ∧
      (∀ c e, (c, e) ∈ w.log ↔ w.group.pos c = .done (some e) ∧ e.failed = true) ∧
      Raises w.frame (w.log.map Prod.snd) r

/-- No exception arrives inside of `spawn`, nor in the `_abort_children` of `__exit__` or of
`_join`. -/
def Collected.Guard (w : Collected ε) (a : Act ε) : Prop :=
  TaskGroups.Guard w.group a

instance (w : Collected ε) (a : Act ε) : Decidable (w.Guard a) :=
  inferInstanceAs (Decidable (TaskGroups.Guard w.group a))

/-! ## The choice -/

theorem exceptions_eq_nil {failures : List (Exc ε)} (hbase : failures.find? Exc.isBase = none)
    (hfailed : ∀ e ∈ failures, e.failed = true) : exceptions failures = [] ↔ failures = [] := by
  refine ⟨fun hnil => ?_, fun hnil => by rw [hnil]; rfl⟩
  apply eq_nil_iff_forall_not_mem.2
  intro e he
  have hnot : ¬ e.isBase = true := List.find?_eq_none.1 hbase e he
  have hnone : e.exception? = none := filterMap_eq_nil_iff.1 hnil e he
  have hfails := hfailed e he
  cases e with
  | ours => cases hfails
  | cancelled => cases hfails
  | timeout => exact hnot rfl
  | exception e => cases hnone
  | base e => exact hnot rfl

theorem exitResult_plain {body : Exc ε} {f : Frame ε} (hbase : s.baseError = none)
    (hbody : f.body = some body)
    (hexc : body.exception? = none) :
    exitResult s f = if s.errors ≠ [] then .exceptionGroup s.errors else .returned := by
  unfold exitResult
  rw [hbase, hbody]
  cases body <;> first | rfl | cases hexc

theorem raises_exitResult {failures : List (Exc ε)} (f : Frame ε) (herrors : s.errors = exceptions failures)
    (hbase : s.baseError = failures.find? Exc.isBase) (hfailed : ∀ e ∈ failures, e.failed = true) :
    Raises f failures (exitResult s f) := by
  cases hfind : failures.find? Exc.isBase with
  | some e =>
    unfold exitResult
    rw [hbase, hfind]
    refine ⟨fun e' he' => ?_, fun hnone => ?_, fun hnil => ?_, fun hnil => ?_⟩
    · cases hfind.symm.trans he'
      rfl
    · cases hfind.symm.trans hnone
    · rw [hnil] at hfind
      cases hfind
    · rw [hnil] at hfind
      cases hfind
  | none =>
    have hnil := exceptions_eq_nil hfind hfailed
    have hbases : ∀ e, failures.find? Exc.isBase = some e → ∀ {p : Prop}, p := fun e he => by
      cases hfind.symm.trans he
    cases hbody : f.body with
    | none =>
      unfold exitResult
      rw [hbase, hfind, hbody]
      dsimp only
      refine ⟨fun e he => hbases e he, fun _ hsome => ?_, fun hempty _ => ?_, fun _ e he => ?_⟩
      · have hne : failures ≠ [] := hsome.resolve_right (by rintro ⟨e, he⟩; cases hbody.symm.trans he)
        have herr : s.errors ≠ [] := by
          rw [herrors]
          exact mt hnil.1 hne
        rw [if_pos herr, hbody, herrors]
        exact congrArg _ (append_nil _).symm
      · have herr : ¬ s.errors ≠ [] := by
          rw [herrors, hnil.2 hempty]
          exact fun h => h rfl
        exact if_neg herr
      · cases hbody.symm.trans he
    | some body =>
      have hfield : ∀ {p : Prop}, f.body = none → p := fun h => by cases hbody.symm.trans h
      cases hexc : body.exception? with
      | some e =>
        have hshape : body = .exception e := by
          cases body <;> cases hexc
          rfl
        subst hshape
        unfold exitResult
        rw [hbase, hfind, hbody]
        refine ⟨fun e he => hbases e he, fun _ _ => ?_, fun _ h => hfield h, fun _ e' he' hnone => ?_⟩
        · rw [hbody, herrors]
          rfl
        · cases hbody.symm.trans he'
          cases hnone
      | none =>
        have hchoice := exitResult_plain (hbase.trans hfind) hbody hexc
        refine ⟨fun e he => hbases e he, fun _ hsome => ?_, fun _ h => hfield h, fun hempty e he _ => ?_⟩
        · have hne : failures ≠ [] := hsome.resolve_right (by
            rintro ⟨e, he⟩
            cases hbody.symm.trans he
            cases hexc)
          have herr : s.errors ≠ [] := by
            rw [herrors]
            exact mt hnil.1 hne
          refine (hchoice.trans (if_pos herr)).trans ?_
          rw [hbody, herrors]
          show ExitResult.exceptionGroup _ = .exceptionGroup (_ ++ (body.exception?).toList)
          rw [hexc]
          exact congrArg _ (append_nil _).symm
        · have herr : ¬ s.errors ≠ [] := by
            rw [herrors, hnil.2 hempty]
            exact fun h => h rfl
          exact hchoice.trans (if_neg herr)

/-! ## The invariant -/

/-- The frame of the call of `_join` that the parent is in. -/
def Pos.holding : Pos ε → Option (Frame ε)
  | .inJoin f _ => some f
  | .inAbort _ (.join f) => some f
  | _ => none

/-- The places that a child does not leave for its own code, and the end of the parent. -/
def Pos.settled : Pos ε → Bool
  | .done _ | .inSpawn _ | .exited _ => true
  | _ => false

/-- Every failure is in the log, or its child is still registered, or is to be registered. -/
structure Core (s : State ε) (log : List (Nat × Exc ε)) (f : Frame ε) : Prop where
  kept : (∀ r, s.pos 0 ≠ .exited r) →
    s.errors = exceptions (log.map Prod.snd) ∧ s.baseError = (log.map Prod.snd).find? Exc.isBase
  entries : ∀ c e, (c, e) ∈ log →
    s.pos c = .done (some e) ∧ e.failed = true ∧ c ∉ s.tasks ∧ ∀ t, s.pos t ≠ .inSpawn c
  nodup : (log.map Prod.fst).Nodup
  missing : ∀ c e, s.pos c = .done (some e) → e.failed = true →
    (c, e) ∈ log ∨ c ∈ s.tasks ∨ ∃ t, s.pos t = .inSpawn c
  deferred : ∀ c ∈ s.deferred, c ∈ s.tasks ∧ ∃ e, s.pos c = .done e
  spawning : ∀ t c, s.pos t = .inSpawn c → c ∉ s.tasks ∧ c < s.next ∧ ∀ t', s.pos t' = .inSpawn c → t' = t
  bound : ∀ c ∈ s.tasks, c < s.next
  /-- the frame of `_join` is the logged one -/
  waits : ∀ g, (s.pos 0).holding = some g → g = f
  exited : ∀ r, s.pos 0 = .exited r → s.tasks = ∅ ∧ Raises f (log.map Prod.snd) r

theorem Inv.not_exited (h : Inv s) {t : Nat} (hborn : s.pos t ≠ .unborn) (hdone : ∀ e, s.pos t ≠ .done e)
    (hexited : ∀ r, s.pos t ≠ .exited r) : ∀ r, s.pos 0 ≠ .exited r := by
  intro r hr
  rcases Nat.eq_zero_or_pos t with rfl | hpos
  · exact hexited r hr
  · rcases h.joined r hr t hpos (h.lt_next hborn) with ⟨e, he⟩
    exact hdone e he

theorem log_snd_append (log : List (Nat × Exc ε)) (o : Option (Nat × Exc ε)) :
    (log ++ o.toList).map Prod.snd = log.map Prod.snd ++ (o.map Prod.snd).toList := by
  rw [map_append]
  cases o <;> rfl

theorem mem_failing (c : Nat) (e : Option (Exc ε)) {d : Nat} {x : Exc ε} :
    (d, x) ∈ (failing c e).toList ↔ d = c ∧ e = some x ∧ x.failed = true := by
  cases e with
  | none => exact ⟨nofun, fun h => nomatch h.2.1⟩
  | some y =>
    unfold failing
    dsimp only
    split
    · rename_i hy
      rw [Option.toList_some, mem_singleton, Prod.mk.injEq]
      constructor
      · rintro ⟨rfl, rfl⟩
        exact ⟨rfl, rfl, hy⟩
      · rintro ⟨rfl, heq, -⟩
        exact ⟨rfl, (Option.some.inj heq).symm⟩
    · rename_i hy
      refine ⟨nofun, ?_⟩
      rintro ⟨-, heq, hx⟩
      cases heq
      exact absurd hx hy

theorem recordError_kept {failures : List (Exc ε)} (c : Nat) (e : Option (Exc ε))
    (herrors : s.errors = exceptions failures) (hbase : s.baseError = failures.find? Exc.isBase) :
    (recordError s e).errors = exceptions (failures ++ ((failing c e).map Prod.snd).toList) ∧
      (recordError s e).baseError = (failures ++ ((failing c e).map Prod.snd).toList).find? Exc.isBase := by
  have hsame : (recordError s e).errors = s.errors → (recordError s e).baseError = s.baseError →
      failing c e = none →
      (recordError s e).errors = exceptions (failures ++ ((failing c e).map Prod.snd).toList) ∧
        (recordError s e).baseError = (failures ++ ((failing c e).map Prod.snd).toList).find?
          Exc.isBase := by
    intro h₁ h₂ hnone
    rw [h₁, h₂, hnone, herrors, hbase]
    simp
  have hfirst : ∀ {b : Exc ε}, b.isBase = true →
      some (s.baseError.getD b) = (failures ++ [b]).find? Exc.isBase := by
    intro b hb
    rw [List.find?_append, List.find?_singleton, if_pos hb, hbase]
    cases failures.find? Exc.isBase <;> rfl
  cases e with
  | none => exact hsame rfl rfl rfl
  | some e =>
    cases e with
    | ours => exact hsame rfl rfl rfl
    | cancelled => exact hsame rfl rfl rfl
    | timeout =>
      refine ⟨?_, hfirst rfl⟩
      show s.errors = exceptions (failures ++ [Exc.timeout])
      rw [herrors]
      simp [exceptions, Exc.exception?]
    | exception e =>
      refine ⟨?_, ?_⟩
      · show s.errors ++ [e] = exceptions (failures ++ [Exc.exception e])
        rw [herrors]
        simp [exceptions, Exc.exception?]
      · show s.baseError = (failures ++ [Exc.exception e]).find? Exc.isBase
        rw [hbase]
        simp [Exc.isBase]
    | base e =>
      refine ⟨?_, hfirst rfl⟩
      show s.errors = exceptions (failures ++ [Exc.base e])
      rw [herrors]
      simp [exceptions, Exc.exception?]

theorem setDone_holding (s : State ε) : ((setDone s).pos 0).holding = (s.pos 0).holding := by
  rcases setDone_pos s 0 with heq | ⟨f, w, hold, hnew⟩
  · rw [heq]
  · rw [hold, hnew]
    rfl

namespace Core

variable {log : List (Nat × Exc ε)} {f : Frame ε}

theorem of_settled (h : Core s log f) (hpos : ∀ u {q : Pos ε}, q.settled = true →
    (s'.pos u = q ↔ s.pos u = q))
    (htasks : s'.tasks = s.tasks) (herrors : s'.errors = s.errors) (hbase : s'.baseError = s.baseError)
    (hnext : s'.next = s.next) (hdeferred : ∀ c ∈ s'.deferred, c ∈ s.deferred)
    (hwaits : ∀ g, (s'.pos 0).holding = some g → g = f) : Core s' log f := by
  refine ⟨fun hopen => ?_, fun c e hc => ?_, h.nodup, fun c e hc he => ?_, fun c hc => ?_,
    fun u c hu => ?_, ?_, hwaits,
    fun r hr => ?_⟩
  · rw [herrors, hbase]
    exact h.kept fun r hr => hopen r ((hpos 0 rfl).2 hr)
  · rw [htasks]
    rcases h.entries c e hc with ⟨hended, hfailed, hout, hspawn⟩
    exact ⟨(hpos c rfl).2 hended, hfailed, hout, fun u hu => hspawn u ((hpos u rfl).1 hu)⟩
  · rw [htasks]
    rcases h.missing c e ((hpos c rfl).1 hc) he with hlog | hmem | ⟨u, hu⟩
    · exact .inl hlog
    · exact .inr (.inl hmem)
    · exact .inr (.inr ⟨u, (hpos u rfl).2 hu⟩)
  · rw [htasks]
    rcases h.deferred c (hdeferred c hc) with ⟨hmem, hended⟩
    exact ⟨hmem, hended.imp fun e he => (hpos c rfl).2 he⟩
  · rw [htasks, hnext]
    rcases h.spawning u c ((hpos u rfl).1 hu) with ⟨hout, hlt, hone⟩
    exact ⟨hout, hlt, fun u' hu' => hone u' ((hpos u' rfl).1 hu')⟩
  · rw [htasks, hnext]
    exact h.bound
  · rw [htasks]
    exact h.exited r ((hpos 0 rfl).1 hr)

theorem congr (h : Core s log f) (hpos : s'.pos = s.pos) (htasks : s'.tasks = s.tasks)
    (herrors : s'.errors = s.errors)
    (hbase : s'.baseError = s.baseError) (hnext : s'.next = s.next)
    (hdeferred : ∀ c ∈ s'.deferred, c ∈ s.deferred) :
    Core s' log f := by
  refine h.of_settled (fun u q _ => ?_) htasks herrors hbase hnext hdeferred ?_
  · rw [hpos]
  · rw [hpos]
    exact h.waits

theorem reframe (h : Core s log f) (hopen : s.pos 0 = .user) (g : Frame ε) : Core s log g where
  kept := h.kept
  entries := h.entries
  nodup := h.nodup
  missing := h.missing
  deferred := h.deferred
  spawning := h.spawning
  bound := h.bound
  waits := fun g' hg => by
    rw [hopen] at hg
    cases hg
  exited := fun r hr => nomatch hopen.symm.trans hr

theorem setPos (h : Core s log f) {t : Nat} {p : Pos ε} (hold : (s.pos t).settled = false)
    (hnew : p.settled = false)
    (hframe : ∀ g, p.holding = some g → g = f) : Core (setPos s t p) log f := by
  refine h.of_settled (fun u q hq => ?_) rfl rfl rfl rfl (fun _ hc => hc) fun g hg => ?_
  · -- a settled place is held by the same tealets before and after
    rcases eq_or_ne u t with rfl | hne
    · rw [setPos_self]
      constructor
      · rintro rfl
        rw [hnew] at hq
        cases hq
      · rintro rfl
        rw [hold] at hq
        cases hq
    · rw [setPos_of_ne s p hne]
  · rcases eq_or_ne 0 t with rfl | hne
    · rw [setPos_self] at hg
      exact hframe g hg
    · rw [setPos_of_ne s p hne] at hg
      exact h.waits g hg

theorem ends (h : Core s log f) {c : Nat} {e : Option (Exc ε)} (h0 : c ≠ 0)
    (hold : (s.pos c).settled = false)
    (hkept : c ∈ s.tasks ∨ ∃ t, s.pos t = .inSpawn c) : Core (TaskGroups.setPos s c (.done e)) log f := by
  have hself := setPos_self s c (.done e)
  have hother := fun u (hu : u ≠ c) => setPos_of_ne s (.done e) hu
  have hspawn : ∀ u d, (TaskGroups.setPos s c (.done e)).pos u = .inSpawn d ↔ s.pos u = .inSpawn d := by
    intro u d
    rcases eq_or_ne u c with rfl | hne
    · rw [hself]
      refine ⟨nofun, fun hu => ?_⟩
      rw [hu] at hold
      cases hold
    · rw [hother u hne]
  have hparent := hother 0 (Ne.symm h0)
  refine ⟨fun hopen => h.kept fun r hr => hopen r (hparent.trans hr), fun d x hd => ?_,
    h.nodup, fun d x hd hx => ?_,
    fun d hd => ⟨(h.deferred d hd).1, ?_⟩, fun u d hu => ?_, h.bound, fun g hg => h.waits g (hparent ▸ hg),
    fun r hr => h.exited r (hparent.symm.trans hr)⟩
  · rcases h.entries d x hd with ⟨hpos, hfailed, hout, hnone⟩
    have hne : d ≠ c := by
      rintro rfl
      rw [hpos] at hold
      cases hold
    exact ⟨(hother d hne).trans hpos, hfailed, hout, fun u hu => hnone u ((hspawn u d).1 hu)⟩
  · rcases eq_or_ne d c with rfl | hne
    · exact .inr (hkept.imp_right fun ⟨t, ht⟩ => ⟨t, (hspawn t d).2 ht⟩)
    · rcases h.missing d x ((hother d hne).symm.trans hd) hx with hlog | hmem | ⟨u, hu⟩
      · exact .inl hlog
      · exact .inr (.inl hmem)
      · exact .inr (.inr ⟨u, (hspawn u d).2 hu⟩)
  · rcases eq_or_ne d c with rfl | hne
    · exact ⟨e, hself⟩
    · exact (h.deferred d hd).2.imp fun e he => (hother d hne).trans he
  · rcases h.spawning u d ((hspawn u d).1 hu) with ⟨hout, hlt, hone⟩
    exact ⟨hout, hlt, fun u' hu' => hone u' ((hspawn u' d).1 hu')⟩

theorem onTaskDone (h : Core s log f) {c : Nat} {e : Option (Exc ε)} (hdone : s.pos c = .done e)
    (hnew : ∀ x, (c, x) ∉ log) (hspawn : ∀ t, s.pos t ≠ .inSpawn c) (hopen : ∀ r, s.pos 0 ≠ .exited r)
    (hdeferred : c ∉ s.deferred) : Core (onTaskDone s c e) (log ++ (failing c e).toList) f := by
  -- what is done before the error is looked at
  have hquit : ∃ s₁, TaskGroups.onTaskDone s c e = recordError s₁ e ∧ s₁.tasks = s.tasks.erase c ∧
      s₁.errors = s.errors ∧ s₁.baseError = s.baseError ∧ s₁.deferred = s.deferred ∧ s₁.next = s.next ∧
      (s₁.pos 0).holding = (s.pos 0).holding ∧ ∀ u {q : Pos ε}, (∀ g b, q ≠ .inJoin g b) →
        (s₁.pos u = q ↔ s.pos u = q) := by
    by_cases hlast : s.tasks.erase c = ∅
    · refine ⟨TaskGroups.setDone { s with tasks := s.tasks.erase c }, ?_, rfl, rfl, rfl, rfl, rfl,
        setDone_holding { s with tasks := s.tasks.erase c }, fun u q hq => ?_⟩
      · unfold TaskGroups.onTaskDone
        dsimp only
        rw [if_pos hlast]
      · exact setDone_pos_iff { s with tasks := s.tasks.erase c } u hq
    · refine ⟨{ s with tasks := s.tasks.erase c }, ?_, rfl, rfl, rfl, rfl, rfl, rfl, fun u q hq => Iff.rfl⟩
      unfold TaskGroups.onTaskDone
      dsimp only
      rw [if_neg hlast]
  rcases hquit with ⟨s₁, heq, htasks, herrors, hbase, hdef, hnext, hholding, hiff⟩
  have hfailing := fun d x => mem_failing c e (d := d) (x := x)
  rw [heq]
  refine ⟨fun _ => ?_, fun d x hd => ?_, ?_, fun d x hd hx => ?_, fun d hd => ?_,
    fun u d hu => ?_, fun d hd => ?_,
    fun g hg => ?_, fun r hr => ?_⟩
  · rcases h.kept hopen with ⟨hkept, hkeptBase⟩
    rw [log_snd_append]
    exact recordError_kept c e (herrors.trans hkept) (hbase.trans hkeptBase)
  · rw [recordError_pos, recordError_tasks, htasks]
    rcases mem_append.1 hd with hd | hd
    · rcases h.entries d x hd with ⟨hpos, hfailed, hout, hnone⟩
      exact ⟨(hiff d (by simp)).2 hpos, hfailed, fun hmem => hout (Finset.mem_of_mem_erase hmem),
        fun u hu => hnone u ((hiff u (by simp)).1 hu)⟩
    · rcases (hfailing d x).1 hd with ⟨rfl, rfl, hx⟩
      exact ⟨(hiff d (by simp)).2 hdone, hx, Finset.notMem_erase d s.tasks,
        fun u hu => hspawn u ((hiff u (by simp)).1 hu)⟩
  · rw [map_append]
    refine nodup_append.2 ⟨h.nodup, ?_, fun a ha b hb hab => ?_⟩
    · cases failing c e with
      | none => exact nodup_nil
      | some p => exact nodup_singleton _
    · rcases mem_map.1 ha with ⟨⟨d, x⟩, hd, rfl⟩
      rcases mem_map.1 hb with ⟨⟨d', x'⟩, hd', rfl⟩
      have hcc : d = c := Eq.trans hab ((hfailing d' x').1 hd').1
      exact hnew x (hcc ▸ hd)
  · rw [recordError_pos] at hd
    rw [recordError_tasks, htasks, recordError_pos]
    have hold := (hiff d (by simp)).1 hd
    rcases eq_or_ne d c with rfl | hne
    · have heq' := Pos.done.inj (hdone.symm.trans hold)
      exact .inl (mem_append_right _ ((hfailing d x).2 ⟨rfl, heq', hx⟩))
    · rcases h.missing d x hold hx with hlog | hmem | ⟨u, hu⟩
      · exact .inl (mem_append_left _ hlog)
      · exact .inr (.inl (Finset.mem_erase.2 ⟨hne, hmem⟩))
      · exact .inr (.inr ⟨u, (hiff u (by simp)).2 hu⟩)
  · have hd' : d ∈ s.deferred := by
      have hsame : (recordError s₁ e).deferred = s₁.deferred := by
        unfold recordError
        split <;> rfl
      rw [hsame, hdef] at hd
      exact hd
    rw [recordError_tasks, htasks, recordError_pos]
    rcases h.deferred d hd' with ⟨hmem, hended⟩
    exact ⟨Finset.mem_erase.2 ⟨fun hdc => hdeferred (hdc ▸ hd'), hmem⟩,
      hended.imp fun x hx => (hiff d (by simp)).2 hx⟩
  · rw [recordError_pos] at hu
    rw [recordError_tasks, htasks, recordError_next, hnext, recordError_pos]
    rcases h.spawning u d ((hiff u (by simp)).1 hu) with ⟨hout, hlt, hone⟩
    exact ⟨fun hmem => hout (Finset.mem_of_mem_erase hmem), hlt, fun u' hu' =>
      hone u' ((hiff u' (by simp)).1 hu')⟩
  · rw [recordError_tasks, htasks] at hd
    rw [recordError_next, hnext]
    exact h.bound d (Finset.mem_of_mem_erase hd)
  · rw [recordError_pos] at hg
    exact h.waits g (hholding.symm.trans hg)
  · rw [recordError_pos] at hr
    exact absurd ((hiff 0 (by simp)).1 hr) (hopen r)

end Core

end Pytealet.TaskGroups
