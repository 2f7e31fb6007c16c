import Pytealet.TaskGroups.Errors

/-!
# ErrorRuns — no failure of a child gets lost

The invariant of the logged group is preserved by every step that throws into protected switch
points only.  When `_join` returns, no child is registered and none is to be registered, so every
failure is in the log.
-/

namespace Pytealet.TaskGroups

open Lib Lib.Transition List Option

variable {ε : Type*} {s s' : State ε} {log : List (Nat × Exc ε)} {f : Frame ε}

namespace Core

/-! ## A child ends -/

theorem finishChild (h : Core s log f) (hinv : Inv s) {c : Nat} (h0 : c ≠ 0)
    (hc : s.pos c = .user ∨ s.pos c = .primed) (e : Option (Exc ε)) :
    Core (finishChild s c e) (log ++ (if c ∈ s.tasks then failing c e else none).toList) f := by
  have hborn : s.pos c ≠ .unborn := by rcases hc with hc | hc <;> simp [hc]
  have hactive : ∀ e', s.pos c ≠ .done e' := by rcases hc with hc | hc <;> simp [hc]
  have hleft : ∀ r, s.pos c ≠ .exited r := by rcases hc with hc | hc <;> simp [hc]
  have hold : (s.pos c).settled = false := by rcases hc with hc | hc <;> simp [hc, Pos.settled]
  have hopen := hinv.not_exited hborn hactive hleft
  have hkept : c ∈ s.tasks ∨ ∃ t, s.pos t = .inSpawn c := by
    rcases hinv.kept c (Nat.pos_of_ne_zero h0) (hinv.lt_next hborn) with ⟨e', he'⟩ | hkept
    · exact absurd he' (hactive e')
    · exact hkept
  have hended := h.ends (e := e) h0 hold hkept
  unfold TaskGroups.finishChild
  dsimp only
  split
  · rename_i hmem
    refine hended.onTaskDone (setPos_self s c (.done e)) (fun x hx => ?_) (fun t ht => ?_) (fun r hr => ?_)
      (fun hdef => ?_)
    · exact hactive _ (h.entries c x hx).1
    · exact (hended.spawning t c ht).1 hmem
    · exact hopen r ((setPos_of_ne s (.done e) (Ne.symm h0)).symm.trans hr)
    · rcases (h.deferred c hdef).2 with ⟨e', he'⟩
      exact hactive e' he'
  · rw [toList_none, append_nil]
    exact hended

theorem interrupt (h : Core s log f) (hinv : Inv s) {t : Nat}
    (ht : (s.pos t).unprotected = false) {e : Exc ε}
    (he : s.pos t = .primed → e.failed = false) : Core (interrupt s t e) log f := by
  unfold TaskGroups.interrupt
  cases hp : s.pos t with
  | primed =>
    have h0 : t ≠ 0 := by
      rintro rfl
      exact hinv.parent.1 hp
    have hended := h.finishChild hinv h0 (.inr hp) (some e)
    have hnone : (if t ∈ s.tasks then failing t (some e) else none) = none := by
      simp [failing, he hp]
    rw [hnone, toList_none, append_nil] at hended
    exact hended
  | inSpawn c => simp [hp, Pos.unprotected] at ht
  | inAbort rest k =>
    have hmoved : Core (TaskGroups.setPos s t .user) log f :=
      h.setPos (by rw [hp]; rfl) rfl fun _ hc => by cases hc
    cases k with
    | join g => simp [hp, Pos.unprotected] at ht
    | cancel u => exact hmoved
    | request => exact hmoved
  | _ => exact h

/-! ## The parent leaves or waits -/

theorem joinLoop (h : Core s log f) (hinv : Inv s) (hparent : (s.pos 0).settled = false) :
    Core (joinLoop s f) log f := by
  have hopen : ∀ r, s.pos 0 ≠ .exited r := by
    intro r hr
    rw [hr] at hparent
    cases hparent
  have hspawn : ∀ c, s.pos 0 ≠ .inSpawn c := by
    intro c hc
    rw [hc] at hparent
    cases hparent
  unfold TaskGroups.joinLoop
  split
  · rename_i htasks
    have hother : ∀ t, t ≠ 0 → (leave s (exitResult s f)).pos t = s.pos t := fun t ht => setPos_of_ne s _ ht
    have hpos0 : (leave s (exitResult s f)).pos 0 = .exited (exitResult s f) := setPos_self s 0 _
    -- nobody is in `spawn` any more
    have hdone := hinv.all_done htasks hspawn
    have hidle : ∀ t c, s.pos t ≠ .inSpawn c := by
      intro t c ht
      rcases Nat.eq_zero_or_pos t with rfl | hpos
      · exact hspawn c ht
      · rcases hdone t hpos (hinv.lt_next (by simp [ht])) with ⟨e, he⟩
        exact nomatch ht.symm.trans he
    have hchild : ∀ {c e}, s.pos c = .done e → c ≠ 0 := by
      rintro c e hc rfl
      exact hinv.parent.2 e hc
    have hnone : ∀ t c, (leave s (exitResult s f)).pos t ≠ .inSpawn c := by
      intro t c ht
      rcases eq_or_ne t 0 with rfl | hne
      · exact nomatch hpos0.symm.trans ht
      · exact hidle t c ((hother t hne).symm.trans ht)
    refine ⟨fun hno => absurd hpos0 (hno _), fun c e hc => ?_, h.nodup, fun c e hc he => ?_, fun c hc => ?_,
      fun t c ht => absurd ht (hnone t c), h.bound, fun g hg => ?_, fun r hr => ⟨htasks, ?_⟩⟩
    · rcases h.entries c e hc with ⟨hpos, hfailed, hout, -⟩
      exact ⟨(hother c (hchild hpos)).trans hpos, hfailed, hout, fun t => hnone t c⟩
    · have hne : c ≠ 0 := by
        rintro rfl
        exact nomatch hpos0.symm.trans hc
      have hlog := h.missing c e ((hother c hne).symm.trans hc) he
      exact hlog.imp_right fun hrest => hrest.imp_right fun ⟨t, ht⟩ => absurd ht (hidle t c)
    · have hmem := (h.deferred c hc).1
      rw [htasks] at hmem
      exact absurd hmem (Finset.notMem_empty c)
    · rw [hpos0] at hg
      cases hg
    · cases hpos0.symm.trans hr
      rcases h.kept hopen with ⟨herrors, hbase⟩
      refine raises_exitResult f herrors hbase fun e he => ?_
      rcases mem_map.1 he with ⟨⟨c, e'⟩, hc, rfl⟩
      exact (h.entries c e' hc).2.1
  · split
    · exact h.setPos hparent rfl nofun
    · exact h.setPos hparent rfl fun g hg => (Option.some.inj hg).symm

/-! ## The abort loop -/

theorem suspend (h : Core s log f) {k : After ε} (hself : ∀ t, k.self = some t → (s.pos t).settled = false)
    (hframe : ∀ g, k = .join g → g = f) (rest : List Nat) : Core (suspend s k rest) log f := by
  cases k with
  | cancel t =>
    exact h.setPos (hself t rfl) rfl nofun
  | join g =>
    refine h.setPos (hself 0 rfl) rfl fun g' hg' => ?_
    exact hframe g' (congrArg After.join (Option.some.inj hg'))
  | request => exact h.congr rfl rfl rfl rfl rfl fun _ hc => hc

theorem abortLoop (h : Core s log f) (hinv : Inv s) {k : After ε} {order : List Nat} (hk : Runs s k)
    (hself : ∀ t, k.self = some t → (s.pos t).settled = false) (hframe : ∀ g, k = .join g → g = f)
    (hg : ∀ t ∈ abortReceivers s k order, (s.pos t).unprotected = false) :
      Core (abortLoop s k order) log f := by
  unfold TaskGroups.abortLoop
  cases hd : order.dropWhile (skip s k) with
  | nil =>
    simp only [abortReceivers, hd] at hg
    cases k with
    | cancel t =>
      exact h.setPos (hself t rfl) rfl fun _ hc => by cases hc
    | join g =>
      rw [hframe g rfl]
      exact h.joinLoop hinv (hself 0 rfl)
    | request =>
      have hdrain : Core { s with drain := none } log f := h.congr rfl rfl rfl rfl rfl fun _ hc => hc
      have hinv' : Inv { s with drain := none } := hinv.congr rfl rfl fun _ hc => .inl hc
      simp only [afterAbort]
      split
      · exact hdrain
      · rename_i hexit
        exact hdrain.interrupt hinv' (hg 0 (by simp [hexit])) fun _ => rfl
  | cons c rest =>
    -- `c` was not passed over, so it is not the tealet that runs the loop
    have hskip : skip s k c = false := by
      have hhead := head_dropWhile_not (skip s k) (l := order) (by simp [hd])
      simpa [hd] using hhead
    have hother : k.self ≠ some c := by
      intro heq
      simp [skip, heq] at hskip
    have hc : (s.pos c).unprotected = false := hg c (by simp [abortReceivers, hd])
    refine (h.suspend hself hframe rest).interrupt (hinv.suspend hk rest) ?_ fun _ => rfl
    rw [suspend_pos hother]
    exact hc

theorem abortChildren (h : Core s log f) (hinv : Inv s) {k : After ε} {order : List Nat} (hk : Runs s k)
    (hself : ∀ t, k.self = some t → (s.pos t).settled = false) (hframe : ∀ g, k = .join g → g = f)
    (hg : ∀ t ∈ abortReceivers s k order, (s.pos t).unprotected = false) :
      Core (abortChildren s k order) log f := by
  have haborting : Core { s with aborting := true } log f := h.congr rfl rfl rfl rfl rfl fun _ hc => hc
  have hinv' : Inv { s with aborting := true } := hinv.congr rfl rfl fun _ hc => .inl hc
  exact haborting.abortLoop hinv' hk hself hframe hg

/-! ## Spawning -/

theorem spawn (h : Core s log f) (hinv : Inv s) {t : Nat} (ht : s.pos t = .user) (eager : Bool) :
    Core (spawn s t eager) log f := by
  have hlt : t < s.next := hinv.lt_next (by simp [ht])
  have hnew := hinv.unborn s.next le_rfl
  have hopen := hinv.not_exited (t := t) (by simp [ht]) (by simp [ht]) (by simp [ht])
  have hended : ∀ {c e}, s.pos c = .done e → c ≠ t ∧ c ≠ s.next := by
    intro c e hc
    constructor
    · rintro rfl
      cases hc.symm.trans ht
    · rintro rfl
      cases hc.symm.trans hnew
  cases eager with
  | true =>
    have hpost : (TaskGroups.spawn s t true).pos t = .inSpawn s.next :=
      by simp [TaskGroups.spawn, TaskGroups.setPos]
    have hposc : (TaskGroups.spawn s t true).pos s.next = .user := by
      simp [TaskGroups.spawn, TaskGroups.setPos, hlt.ne']
    have hother : ∀ u, u ≠ t → u ≠ s.next → (TaskGroups.spawn s t true).pos u = s.pos u := by
      intro u hut hun
      simp [TaskGroups.spawn, TaskGroups.setPos, hut, hun]
    have hspawn : ∀ u c, (TaskGroups.spawn s t true).pos u = .inSpawn c →
        (u = t ∧ c = s.next) ∨ (u ≠ t ∧ s.pos u = .inSpawn c) := by
      intro u c hu
      rcases eq_or_ne u t with rfl | hut
      · exact .inl ⟨rfl, (Pos.inSpawn.inj (hpost.symm.trans hu)).symm⟩
      · rcases eq_or_ne u s.next with rfl | hun
        · cases hposc.symm.trans hu
        · exact .inr ⟨hut, (hother u hut hun).symm.trans hu⟩
    have hback : ∀ u c, s.pos u = .inSpawn c → (TaskGroups.spawn s t true).pos u = .inSpawn c := by
      intro u c hu
      have hut : u ≠ t := by
        rintro rfl
        cases hu.symm.trans ht
      have hun : u ≠ s.next := by
        rintro rfl
        cases hu.symm.trans hnew
      exact (hother u hut hun).trans hu
    have hold : ∀ {c e}, s.pos c = .done e → (TaskGroups.spawn s t true).pos c = .done e := fun hc =>
      (hother _ (hended hc).1 (hended hc).2).trans hc
    have hdone : ∀ {c e}, (TaskGroups.spawn s t true).pos c = .done e → s.pos c = .done e := by
      intro c e hc
      rcases eq_or_ne c t with rfl | hct
      · cases hpost.symm.trans hc
      · rcases eq_or_ne c s.next with rfl | hcn
        · cases hposc.symm.trans hc
        · exact (hother c hct hcn).symm.trans hc
    refine ⟨fun _ => h.kept hopen, fun c e hc => ?_, h.nodup, fun c e hc he => ?_,
      fun c hc => ?_, fun u c hu => ?_,
      fun c hc => Nat.lt_succ_of_lt (h.bound c hc), fun g hg => ?_, fun r hr => ?_⟩
    · rcases h.entries c e hc with ⟨hpos, hfailed, hout, hnone⟩
      refine ⟨hold hpos, hfailed, hout, fun u hu => ?_⟩
      rcases hspawn u c hu with ⟨-, rfl⟩ | ⟨-, hu⟩
      · exact (hended hpos).2 rfl
      · exact hnone u hu
    · rcases h.missing c e (hdone hc) he with hlog | hmem | ⟨u, hu⟩
      · exact .inl hlog
      · exact .inr (.inl hmem)
      · exact .inr (.inr ⟨u, hback u c hu⟩)
    · exact ⟨(h.deferred c hc).1, (h.deferred c hc).2.imp fun e he => hold he⟩
    · -- the number of the new child is larger than all others
      rcases hspawn u c hu with ⟨rfl, rfl⟩ | ⟨-, hu⟩
      · refine ⟨fun hmem => (h.bound _ hmem).ne rfl, Nat.lt_succ_self _, fun u' hu' => ?_⟩
        rcases hspawn u' s.next hu' with ⟨heq, -⟩ | ⟨-, hu'⟩
        · exact heq
        · exact absurd rfl (h.spawning u' s.next hu').2.1.ne
      · rcases h.spawning u c hu with ⟨hout, hless, hone⟩
        refine ⟨hout, Nat.lt_succ_of_lt hless, fun u' hu' => ?_⟩
        rcases hspawn u' c hu' with ⟨-, heq⟩ | ⟨-, hu'⟩
        · exact absurd heq hless.ne
        · exact hone u' hu'
    · rcases eq_or_ne 0 t with rfl | h0
      · rw [hpost] at hg
        cases hg
      · rw [hother 0 h0 hinv.born.ne] at hg
        exact h.waits g hg
    · rcases eq_or_ne 0 t with rfl | h0
      · cases hpost.symm.trans hr
      · exact absurd ((hother 0 h0 hinv.born.ne).symm.trans hr) (hopen r)
  | false =>
    have hposc : (TaskGroups.spawn s t false).pos s.next = .primed := by
      simp [TaskGroups.spawn, TaskGroups.setPos]
    have hother : ∀ u, u ≠ s.next → (TaskGroups.spawn s t false).pos u = s.pos u := by
      intro u hun
      simp [TaskGroups.spawn, TaskGroups.setPos, hun]
    -- the settled places are the same
    have hiff : ∀ u {q : Pos ε}, q.settled = true →
        ((TaskGroups.spawn s t false).pos u = q ↔ s.pos u = q) := by
      intro u q hq
      rcases eq_or_ne u s.next with rfl | hun
      · rw [hposc, hnew]
        constructor <;> rintro rfl <;> cases hq
      · rw [hother u hun]
    refine ⟨fun _ => h.kept hopen, fun c e hc => ?_, h.nodup, fun c e hc he => ?_,
      fun c hc => ?_, fun u c hu => ?_,
      fun c hc => ?_, fun g hg => ?_, fun r hr => absurd ((hiff 0 rfl).1 hr) (hopen r)⟩
    · rcases h.entries c e hc with ⟨hpos, hfailed, hout, hnone⟩
      refine ⟨(hiff c rfl).2 hpos, hfailed, fun hmem => ?_, fun u hu => hnone u ((hiff u rfl).1 hu)⟩
      exact (Finset.mem_insert.1 hmem).elim (hended hpos).2 hout
    · rcases h.missing c e ((hiff c rfl).1 hc) he with hlog | hmem | ⟨u, hu⟩
      · exact .inl hlog
      · exact .inr (.inl (Finset.mem_insert_of_mem hmem))
      · exact .inr (.inr ⟨u, (hiff u rfl).2 hu⟩)
    · rcases h.deferred c hc with ⟨hmem, hdone⟩
      exact ⟨Finset.mem_insert_of_mem hmem, hdone.imp fun e he => (hiff c rfl).2 he⟩
    · rcases h.spawning u c ((hiff u rfl).1 hu) with ⟨hout, hless, hone⟩
      refine ⟨fun hmem => ?_, Nat.lt_succ_of_lt hless, fun u' hu' => hone u' ((hiff u' rfl).1 hu')⟩
      exact (Finset.mem_insert.1 hmem).elim hless.ne hout
    · rcases Finset.mem_insert.1 hc with rfl | hc
      · exact Nat.lt_succ_self _
      · exact Nat.lt_succ_of_lt (h.bound c hc)
    · rw [hother 0 hinv.born.ne] at hg
      exact h.waits g hg

theorem registered (h : Core s log f) (hinv : Inv s) {t c : Nat} (ht : s.pos t = .inSpawn c) :
    Core { TaskGroups.setPos s t .user with tasks := insert c s.tasks } log f := by
  have hopen := hinv.not_exited (t := t) (by simp [ht]) (by simp [ht]) (by simp [ht])
  have hself := setPos_self s t .user
  have hother := fun u (hu : u ≠ t) => setPos_of_ne s .user hu
  have hold : ∀ {d e}, s.pos d = .done e → (TaskGroups.setPos s t .user).pos d = .done e := by
    intro d e hd
    refine (hother d ?_).trans hd
    rintro rfl
    exact nomatch hd.symm.trans ht
  have hspawn : ∀ {u d}, (TaskGroups.setPos s t .user).pos u = .inSpawn d → u ≠ t ∧
      s.pos u = .inSpawn d := by
    intro u d hu
    have hne : u ≠ t := by
      rintro rfl
      exact nomatch hself.symm.trans hu
    exact ⟨hne, (hother u hne).symm.trans hu⟩
  have hparent : ∀ {p : Pos ε}, (TaskGroups.setPos s t .user).pos 0 = p → p = .user ∨ s.pos 0 = p := by
    intro p hp
    rcases eq_or_ne 0 t with rfl | hne
    · exact .inl (hp.symm.trans hself)
    · exact .inr ((hother 0 hne).symm.trans hp)
  refine ⟨fun _ => h.kept hopen, fun d e hd => ?_, h.nodup, fun d e hd he => ?_,
    fun d hd => ?_, fun u d hu => ?_,
    fun d hd => ?_, fun g hg => ?_, fun r hr => ?_⟩
  · rcases h.entries d e hd with ⟨hpos, hfailed, hout, hnone⟩
    refine ⟨hold hpos, hfailed, fun hmem => ?_, fun u hu => hnone u (hspawn hu).2⟩
    rcases Finset.mem_insert.1 hmem with rfl | hmem
    · exact hnone t ht
    · exact hout hmem
  · have hne : d ≠ t := by
      rintro rfl
      exact nomatch hself.symm.trans hd
    rcases h.missing d e ((hother d hne).symm.trans hd) he with hlog | hmem | ⟨u, hu⟩
    · exact .inl hlog
    · exact .inr (.inl (Finset.mem_insert_of_mem hmem))
    · rcases eq_or_ne u t with rfl | hut
      -- it is the child that is registered now
      · cases ht.symm.trans hu
        exact .inr (.inl (Finset.mem_insert_self _ _))
      · exact .inr (.inr ⟨u, (hother u hut).trans hu⟩)
  · rcases h.deferred d hd with ⟨hmem, hdone⟩
    exact ⟨Finset.mem_insert_of_mem hmem, hdone.imp fun e he => hold he⟩
  · rcases hspawn hu with ⟨hut, hu⟩
    rcases h.spawning u d hu with ⟨hout, hless, hone⟩
    refine ⟨fun hmem => ?_, hless, fun u' hu' => hone u' (hspawn hu').2⟩
    rcases Finset.mem_insert.1 hmem with rfl | hmem
    · exact hut (hone t ht).symm
    · exact hout hmem
  · rcases Finset.mem_insert.1 hd with rfl | hd
    · exact (h.spawning t d ht).2.1
    · exact h.bound d hd
  · rcases hparent rfl with hp | hp
    · rw [hp] at hg
      cases hg
    · rw [← hp] at hg
      exact h.waits g hg
  · rcases hparent hr with hp | hp
    · cases hp
    · exact absurd hp (hopen r)

theorem register (h : Core s log f) (hinv : Inv s) {t c : Nat} (ht : s.pos t = .inSpawn c) (hosted : Bool) :
    Core (register (TaskGroups.setPos s t .user) c hosted)
      (log ++ (failure s (.resume t hosted)).toList) f := by
  have hreg := h.registered hinv ht
  have hplain : (∀ e, (TaskGroups.setPos s t .user).pos c = .done e → hosted = true) →
      failure s (.resume t hosted) = none := by
    intro hnot
    cases hosted with
    | true => rfl
    | false =>
      simp only [failure, ht]
      cases hc : (TaskGroups.setPos s t .user).pos c with
      | done e => cases hnot e hc
      | _ => rfl
  unfold TaskGroups.register
  cases hc : (TaskGroups.setPos s t .user).pos c with
  | done e =>
    cases hosted with
    | true =>
      rw [hplain fun _ _ => rfl, toList_none, append_nil]
      refine ⟨hreg.kept, hreg.entries, hreg.nodup, hreg.missing, fun d hd => ?_,
        hreg.spawning, hreg.bound, hreg.waits,
        hreg.exited⟩
      rcases Finset.mem_insert.1 hd with rfl | hd
      · exact ⟨Finset.mem_insert_self _ _, e, hc⟩
      · exact hreg.deferred d hd
    | false =>
      have hlogged : failure s (.resume t false) = failing c e := by
        simp only [failure, ht, hc]
      rw [hlogged]
      refine hreg.onTaskDone hc (fun x hx => ?_) (fun u hu => ?_) (fun r hr => ?_) (fun hd => ?_)
      · exact (h.entries c x hx).2.2.2 t ht
      · exact (hreg.spawning u c hu).1 (Finset.mem_insert_self _ _)
      · exact absurd (hreg.exited r hr).1 (Finset.insert_ne_empty c s.tasks)
      · exact (h.spawning t c ht).1 (h.deferred c hd).1
  | _ =>
    have hnone := hplain fun e he => by cases hc.symm.trans he
    rw [hnone, toList_none, append_nil]
    exact hreg

/-! ## An exception in `_join` -/

theorem setPos_setPos (s : State ε) (t : Nat) (p q : Pos ε) :
    TaskGroups.setPos (TaskGroups.setPos s t p) t q = TaskGroups.setPos s t q := by
  simp [TaskGroups.setPos, Function.update_idem]

theorem skip_parent (s : State ε) (p : Pos ε) (g : Frame ε) :
    skip (TaskGroups.setPos s 0 p) (.join g) = skip s (.join g) := by
  funext c
  rcases eq_or_ne c 0 with rfl | hne
  · rfl
  · unfold skip
    rw [setPos_of_ne s p hne]

theorem abortLoop_parent (s : State ε) (p : Pos ε) (g : Frame ε) (order : List Nat) :
    TaskGroups.abortLoop (TaskGroups.setPos s 0 p)
      (.join g) order = TaskGroups.abortLoop s (.join g) order := by
  have hjoin : TaskGroups.joinLoop (TaskGroups.setPos s 0 p) g = TaskGroups.joinLoop s g := by
    unfold TaskGroups.joinLoop leave
    simp only [setPos_setPos]
    rfl
  unfold TaskGroups.abortLoop TaskGroups.suspend
  rw [skip_parent]
  simp only [setPos_setPos]
  split
  · exact hjoin
  · rfl

theorem deliver (h : Core s log f) (hinv : Inv s) {t : Nat} {e : Thrown} {order : List Nat}
    (hg : Guard s (.throw t e order)) :
    Core (deliver s t e.exc order) (log ++ (failure s (.throw t e order)).toList)
      (caught s f (.throw t e order)) := by
  unfold TaskGroups.deliver
  cases hp : s.pos t with
  | inJoin g w =>
    have ht0 : t = 0 := hinv.joiner t g w hp
    subst ht0
    have hlogged : failure s (.throw 0 e order) = none := by
      simp only [failure, hp]
    have hframe : g = f := h.waits g (by rw [hp]; rfl)
    subst hframe
    rw [hlogged, toList_none, append_nil]
    -- the parent might as well be in code of its own, so that the frame can change
    have haside : ∀ g', Core (TaskGroups.setPos s 0 .user) log g' := fun g' =>
      (h.setPos (t := 0) (p := .user) (by rw [hp]; rfl) rfl fun _ hc => by cases hc).reframe
        (setPos_self s 0 .user) g'
    have hinv' : Inv (TaskGroups.setPos s 0 .user) :=
      hinv.setPos hinv.born (by simp [hp]) (by simp [hp]) trivial
    have hpost := setPos_self s 0 .user
    have habort : ∀ g', Core (TaskGroups.abortChildren s (.join g') order) log g' := by
      intro g'
      have hloop : Core (TaskGroups.abortChildren (TaskGroups.setPos s 0 .user) (.join g') order)
          log g' := by
        refine (haside g').abortChildren hinv' (fun u hu => ?_) (fun u hu => ?_)
          (fun g'' hg'' => ?_) fun u hu => ?_
        · cases hu
          exact ⟨hinv.born, by simp [hpost], by simp [hpost]⟩
        · cases hu
          rw [hpost]
          rfl
        · exact (After.join.inj hg'').symm
        · rcases eq_or_ne u 0 with rfl | hne
          · rw [hpost]
            rfl
          · rw [setPos_of_ne s .user hne]
            apply hg u
            simp only [receivers, hp]
            unfold abortReceivers at hu ⊢
            rw [skip_parent] at hu
            exact hu
      have hsame := abortLoop_parent { s with aborting := true } .user g' order
      unfold TaskGroups.abortChildren
      rw [← hsame]
      exact hloop
    cases e with
    | cancelled =>
      have hcaught : caught s g (.throw 0 .cancelled order) = { g with cancelExc := true } := by
        simp only [caught, hp]
      rw [hcaught]
      exact habort _
    | timeout =>
      have hcaught : caught s g (.throw 0 .timeout order) = { g with timeoutExc := true } := by
        simp only [caught, hp]
      rw [hcaught]
      exact habort _
  | primed =>
    have h0 : t ≠ 0 := by
      rintro rfl
      exact hinv.parent.1 hp
    have hlogged : failure s (.throw t e order) = if t ∈ s.tasks then failing t (some e.exc) else none := by
      simp only [failure, hp]
    have hcaught : caught s f (.throw t e order) = f := by
      simp only [caught, hp]
    rw [hlogged, hcaught]
    dsimp only
    unfold TaskGroups.interrupt
    rw [hp]
    exact h.finishChild hinv h0 (.inr hp) _
  | _ =>
    have hlogged : failure s (.throw t e order) = none := by
      simp only [failure, hp]
    have hcaught : caught s f (.throw t e order) = f := by
      simp only [caught, hp]
    rw [hlogged, hcaught, toList_none, append_nil]
    refine h.interrupt hinv (hg t (by simp [receivers, hp])) fun hprimed => ?_
    cases hp.symm.trans hprimed

/-! ## Every run -/

theorem step {a : Act ε} (h : Core s log f) (hinv : Inv s) (hg : Guard s a) (hs : step s a = some s') :
    Core s' (log ++ (failure s a).toList) (caught s f a) := by
  have hquiet : failure s a = none → log ++ (failure s a).toList = log := by
    intro hnone
    rw [hnone]
    exact append_nil log
  cases Move.of_step hs with
  | enter =>
    rw [hquiet rfl]
    exact h.congr rfl rfl rfl rfl rfl fun _ hc => hc
  | spawn t eager ht hc =>
    rw [hquiet rfl]
    exact h.spawn hinv ht eager
  | refused t eager ht hc =>
    rw [hquiet rfl]
    exact h
  | begin c hc =>
    rw [hquiet rfl]
    exact h.setPos (by rw [hc]; rfl) rfl fun _ hc => by cases hc
  | register t c hosted ht => exact h.register hinv ht hosted
  | abortTurn t hosted rest k ht =>
    have hnone : failure s (.resume t hosted) = none := by
      cases hosted with
      | true => rfl
      | false => simp only [failure, ht]
    rw [hquiet hnone]
    have hself : k.self = some t := hinv.runner t rest k ht
    have hrunner : ∀ u, k.self = some u → u = t := fun u hu => Option.some.inj (hu.symm.trans hself)
    refine h.abortLoop hinv (fun u hu => ?_) (fun u hu => ?_) (fun g hk => ?_) fun u hu => ?_
    · cases hrunner u hu
      exact ⟨hinv.lt_next (by simp [ht]), by simp [ht], by simp [ht]⟩
    · cases hrunner u hu
      rw [ht]
      rfl
    · -- the loop of `__exit__` or `_join` runs in the parent
      subst hk
      cases hself
      exact h.waits g (by rw [ht]; rfl)
    · exact hg u (by simpa [receivers, ht] using hu)
  | joinTurn t hosted g ht =>
    have ht0 : t = 0 := hinv.joiner t g true ht
    subst ht0
    have hnone : failure s (.resume 0 hosted) = none := by
      cases hosted with
      | true => rfl
      | false => simp only [failure, ht]
    rw [hquiet hnone]
    have hframe : g = f := h.waits g (by rw [ht]; rfl)
    subst hframe
    exact h.joinLoop hinv (by rw [ht]; rfl)
  | callback c e hc hd =>
    have hlogged : failure s (.callback c) = failing c e := by
      simp only [failure, hc]
    rw [hlogged]
    have hforget : Core { s with deferred := s.deferred.erase c } log f :=
      h.congr rfl rfl rfl rfl rfl fun _ hc => Finset.mem_of_mem_erase hc
    have hmem := (h.deferred c hd).1
    refine hforget.onTaskDone hc (fun x hx => ?_) (fun t ht => ?_) (fun r hr => ?_)
      (Finset.notMem_erase c s.deferred)
    · exact (h.entries c x hx).2.2.1 hmem
    · exact (h.spawning t c ht).1 hmem
    · have hempty := (h.exited r hr).1
      rw [hempty] at hmem
      exact absurd hmem (Finset.notMem_empty c)
  | finish c e hc h0 => exact h.finishChild hinv h0 (.inl hc) e
  | exitAbort body order h0 hl hb =>
    rw [hquiet rfl]
    have hleaving : Core { s with exiting := true } log f := h.congr rfl rfl rfl rfl rfl fun _ hc => hc
    have hexit := hleaving.reframe h0 { body := body, timeoutExc := false, cancelExc := false }
    have hinv' : Inv { s with exiting := true } := hinv.congr rfl rfl fun _ hc => .inl hc
    refine hexit.abortChildren hinv' (fun u hu => ?_) (fun u hu => ?_) (fun g hk => ?_) fun u hu => ?_
    · cases hu
      exact ⟨hinv.born, by simp [h0], by simp [h0]⟩
    · cases hu
      exact congrArg Pos.settled h0
    · exact (After.join.inj hk).symm
    · have hu' :
          u ∈ abortReceivers s (.join { body := body, timeoutExc := false, cancelExc := false })
            order := hu
      exact hg u (by simpa [receivers, hb] using hu')
  | exitJoin body order h0 hl hb =>
    rw [hquiet rfl]
    have hleaving : Core { s with exiting := true } log f := h.congr rfl rfl rfl rfl rfl fun _ hc => hc
    have hexit := hleaving.reframe h0 { body := body, timeoutExc := false, cancelExc := false }
    have hinv' : Inv { s with exiting := true } := hinv.congr rfl rfl fun _ hc => .inl hc
    exact hexit.joinLoop hinv' (congrArg Pos.settled h0)
  | throw t e order hl => exact h.deliver hinv hg
  | cancel t order ht hl =>
    rw [hquiet rfl]
    refine h.abortChildren hinv (fun u hu => ?_) (fun u hu => ?_) (fun _ hk => by cases hk) hg
    · cases hu
      exact ⟨hinv.lt_next (by simp [ht]), by simp [ht], by simp [ht]⟩
    · cases hu
      rw [ht]
      rfl
  | request order hr hd hl =>
    rw [hquiet rfl]
    have hreq : Core { s with requests := s.requests - 1 } log f :=
      h.congr rfl rfl rfl rfl rfl fun _ hc => hc
    have hinv' : Inv { s with requests := s.requests - 1 } := hinv.congr rfl rfl fun _ hc => .inl hc
    exact hreq.abortChildren hinv' (fun _ hu => by cases hu) (fun _ hu => by cases hu)
      (fun _ hk => by cases hk) hg
  | drainTurn rest hd =>
    rw [hquiet rfl]
    refine h.abortLoop hinv (fun _ hu => by cases hu) (fun _ hu => by cases hu)
      (fun _ hk => by cases hk) fun u hu => ?_
    exact hg u (by simpa [receivers, hd] using hu)

theorem init : Core (init : State ε) [] ⟨none, false, false⟩ := by
  have hplace : ∀ t (p : Pos ε), (TaskGroups.init : State ε).pos t = p → p = .user ∨ p = .unborn := by
    intro t p hp
    subst hp
    rcases eq_or_ne t 0 with rfl | hne
    · exact .inl rfl
    · exact .inr (if_neg hne)
  refine ⟨fun _ => ⟨rfl, rfl⟩, nofun, nodup_nil, fun c e hc => ?_, nofun,
    fun t c ht => ?_, nofun, nofun, nofun⟩
  · rcases hplace c _ hc with hp | hp <;> cases hp
  · rcases hplace t _ ht with hp | hp <;> cases hp

end Core

structure Collected.Ok (w : Collected ε) : Prop where
  inv : Inv w.group
  core : Core w.group w.log w.frame

namespace Collected.Ok

variable {w w' : Collected ε}

theorem step {a : Act ε} (h : w.Ok) (hg : w.Guard a) (hs : collectedStep w a = some w') : w'.Ok := by
  rcases map_eq_some_iff.1 hs with ⟨s', hstep, rfl⟩
  exact ⟨h.inv.step hg hstep, h.core.step h.inv hg hstep⟩

theorem complete (h : w.Ok) : w.Complete := by
  intro r hr
  rcases h.core.exited r hr with ⟨htasks, hraises⟩
  refine ⟨h.core.nodup, fun c e => ⟨fun hc => ?_, fun ⟨hc, he⟩ => ?_⟩, hraises⟩
  · rcases h.core.entries c e hc with ⟨hpos, hfailed, -, -⟩
    exact ⟨hpos, hfailed⟩
  · rcases h.core.missing c e hc he with hlog | hmem | ⟨t, ht⟩
    · exact hlog
    · rw [htasks] at hmem
      exact absurd hmem (Finset.notMem_empty c)
    · have h0 : 0 < t := by
        rcases Nat.eq_zero_or_pos t with rfl | hpos
        · exact nomatch hr.symm.trans ht
        · exact hpos
      rcases h.inv.joined r hr t h0 (h.inv.lt_next (by simp [ht])) with ⟨e', he'⟩
      exact nomatch ht.symm.trans he'

end Collected.Ok

/-- In every run in which no exception reaches a tealet inside `spawn`, nor the parent inside the
`_abort_children` of `__exit__` or `_join`: `__exit__` ends with all the failures of the
children. -/
theorem exit_raises_failures (acts : List (Act ε)) :
    Along collectedStep Collected.Guard collected acts →
      Always collectedStep Collected.Complete collected acts :=
  always_of_along (I := Collected.Ok) (fun _ h => h.complete)
    (fun _ _ _ h hg hs => h.step hg hs) acts collected
    ⟨Inv.init, Core.init⟩

/-- Two children fail, the second one before the abort begins; the group has both failures and that
of the body. -/
theorem exit_raises_failures_two :
    Played collectedStep (Always collectedStep Collected.Complete) (collected : Collected Nat)
      [.enter, .spawn 0 false, .spawn 0 false, .begin 1, .begin 2, .finish 2 (some (.exception 6)),
        .finish 1 (some (.exception 5)), .exit (some (.exception 7)) []] :=
  ⟨exit_raises_failures _ (by decide), by decide⟩

/-- A `SystemExit` of the body gives way to the `Exception` of a child; a cancellation of the join
gives way to a timeout; a child that has failed inside its `spawn` is collected after one that has
failed later, if an asyncio loop is running; and the failure of a child is dropped when a timeout
reaches the parent while `__exit__` aborts the others. -/
theorem exit_deviates :
    (∃ w : Collected Nat, exec collectedStep collected
        [.enter, .spawn 0 false, .begin 1, .finish 1 (some (.exception 5)),
          .exit (some (.base 9)) []] = some w ∧
      w.group.pos 0 = .exited (.exceptionGroup [5])) ∧
    (∃ w : Collected Nat, exec collectedStep collected
        [.enter, .spawn 0 false, .begin 1, .exit none [1], .throw 0 .cancelled [1], .resume 0 false,
          .throw 0 .timeout [1], .resume 0 false, .finish 1 (some .ours), .resume 0 false] = some w ∧
      w.log = [] ∧ w.frame.cancelExc = true ∧ w.group.pos 0 = .exited (.raised .timeout)) ∧
    (∃ w : Collected Nat, exec collectedStep collected
        [.enter, .spawn 0 false, .begin 1, .spawn 0 true, .finish 2 (some (.exception 6)), .resume 0 true,
          .finish 1 (some (.exception 5)), .callback 2, .exit none []] = some w ∧
      w.group.pos 0 = .exited (.exceptionGroup [5, 6])) ∧
    ∃ w : Collected Nat, exec collectedStep collected
        [.enter, .spawn 0 false, .spawn 0 false, .begin 1, .begin 2, .finish 1 (some (.exception 5)),
          .exit (some (.exception 7)) [2], .throw 0 .timeout [2]] = some w ∧
      w.log = [(1, .exception 5)] ∧ w.group.pos 0 = .exited (.raised .timeout) :=
  ⟨⟨_, rfl, rfl⟩, ⟨_, rfl, rfl, rfl, rfl⟩, ⟨_, rfl, rfl⟩, ⟨_, rfl, rfl, rfl⟩⟩

end Pytealet.TaskGroups
