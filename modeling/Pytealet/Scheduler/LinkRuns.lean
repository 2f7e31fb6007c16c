import Pytealet.Scheduler.LinkInvariant

/-!
# LinkRuns — links and queued wakes in whole runs

One lemma for each operation of `Links` says that it keeps `Inv`, under a condition where the code
needs one.  `Guard` collects the conditions, and every run that meets it keeps the link invariant
and makes only parked tasks runnable in a queued wake.
-/

namespace Pytealet.Scheduler.Links

open Lib Lib.Transition Function

variable {ρ : Type*} {q : RunnableQueue ρ} {s : State ρ}

/-! ## Before a transfer -/

theorem Inv.batch_of_live (h : Inv q s) (hlive : Live s) :
    Batch s (s.link 0 = some .runnable) := by
  refine ⟨h.batch.1, ?_⟩
  intro n hn
  rcases h.batch.2 n hn with ⟨hdrain, hrunner, hcur⟩
  refine ⟨hdrain, hrunner, hcur.resolve_left ?_⟩
  rcases hlive with hne | hsome
  · exact hne
  · simp [hdrain] at hsome

theorem Inv.current_ne_main (h : Inv q s) (h0 : s.link 0 = some .runnable) : s.current ≠ 0 := by
  intro hcur
  have hfree := h.free
  simp [hcur, h0] at hfree

theorem parkCurrent_ok (h : Consistent q s) (hfree : s.link s.current = none)
    (hawake : s.sleeping s.current = false) (halive : s.status s.current = .alive)
    (resumeNext : Bool) :
    Consistent q (parkCurrent q s resumeNext) ∧ Frame s (parkCurrent q s resumeNext) ∧
      (parkCurrent q s resumeNext).link = update s.link s.current (some .runnable) := by
  rcases parkCurrent_eq (q := q) s resumeNext with ⟨position, heq⟩
  rw [heq]
  rcases enqueue_ok h position hfree (.inr halive) hawake with ⟨hok, hl⟩
  exact ⟨hok, enqueue_frame s _ position, hl⟩

theorem parkCurrent_transfer_inv (h : Inv q s)
    (hbatch : Batch s (s.current = 0 ∨ s.link 0 = some .runnable)) (resumeNext explicit : Bool) :
    Inv q (transfer q (parkCurrent q s resumeNext) explicit) := by
  rcases parkCurrent_ok h.ok h.free h.awake h.alive resumeNext with ⟨hok, hF, hl⟩
  apply transfer_inv hok
  · refine hbatch.mono hF.drain hF.runner hF.targetCount ?_
    intro hmain
    rw [hl]
    -- main is the one that parks, or it is in the queue already
    by_cases h0 : 0 = s.current
    · simp [h0]
    · simpa [h0] using hmain.resolve_left (Ne.symm h0)
  · rw [hF.status, hF.current, h.alive]
  · rw [hF.cont, hF.current, h.idle]
    simp

/-! ## Waiting -/

variable {t : Nat} {s' : State ρ} {p : Prim}

theorem Consistent.setCont (h : Consistent q s) (ht : s.link t = none) (c : Option Prim) :
    Consistent q { s with cont := update s.cont t c } := by
  refine ⟨h.placed, h.linked, ?_, h.sleeping, h.unborn, h.main, h.assertions⟩
  intro u p hu
  have hut : u ≠ t := by
    intro hut
    change s.link u = _ at hu
    simp [hut, ht] at hu
  simpa [hut] using h.cont u p hu

theorem park_inv (h : Inv q s) (hlive : Live s) (p : Prim) :
    Inv q (transfer q
      { (s.setWaiters p (s.waiters p ++ [s.current])).setLink s.current (some (.prim p)) with
        cont := update s.cont s.current (some p) } false) := by
  -- first into the wait call, then into the list
  have hcont := h.ok.setCont h.free (some p)
  have hmoved : Consistent q
      { (s.setWaiters p (s.waiters p ++ [s.current])).setLink s.current (some (.prim p)) with
        cont := update s.cont s.current (some p) } := by
    refine hcont.move s.current (.prim p) rfl rfl rfl ?_ ?_
      (.inr h.alive) h.awake ?_
    · rw [hcont.placed.erase_of_ne (by simp [h.free])]
      simp [place, State.setLink, State.setWaiters]
    · intro l hl
      rw [hcont.placed.erase_of_ne (by simp [h.free])]
      exact List.Perm.of_eq (place_setWaiters_of_ne (s := s) hl _)
    · intro p' hp'
      cases hp'
      simp
  apply transfer_inv hmoved
  · refine (h.batch_of_live hlive).mono rfl rfl rfl ?_
    intro h0
    simpa [State.setLink, State.setWaiters, (h.current_ne_main h0).symm] using h0
  · exact h.alive
  · intro p' hp'
    have hpp : p = p' := by
      simpa [State.setLink, State.setWaiters] using hp'
    subst hpp
    simp [State.setLink, State.setWaiters]

theorem waitOn_inv (h : Inv q s) (hlive : Live s) (p : Prim) : Inv q (waitOn q s p) := by
  have hlink : s.link s.current = none ∧ s.current ∉ s.waiters p :=
    ⟨h.free, h.ok.not_waiter h.free p⟩
  have heq : waitOn q s p = transfer q
      { (s.setWaiters p (s.waiters p ++ [s.current])).setLink s.current (some (.prim p)) with
        cont := update s.cont s.current (some p) } false :=
    if_pos hlink
  rw [heq]
  exact park_inv h hlive p

theorem eventWait_inv (h : Inv q s) (hlive : Live s) (p : Prim) : Inv q (eventWait q s p) := by
  unfold eventWait
  split
  · exact h
  · exact waitOn_inv h hlive p

theorem sleep_inv (h : Inv q s) (hlive : Live s) :
    Inv q (transfer q { s with sleeping := update s.sleeping s.current true } false) := by
  have hok : Consistent q { s with sleeping := update s.sleeping s.current true } := by
    refine ⟨h.ok.placed, h.ok.linked, h.ok.cont, ?_, h.ok.unborn, h.ok.main, h.ok.assertions⟩
    intro u hu
    by_cases hut : u = s.current
    · rw [hut]
      exact ⟨h.free, h.alive⟩
    · apply h.ok.sleeping u
      simpa [hut] using hu
  apply transfer_inv hok ((h.batch_of_live hlive).mono rfl rfl rfl id) h.alive
  simp [h.idle]

theorem yieldTo_inv (h : Inv q s) (hlive : Live s) (ht : t ∈ q.tasks s.runnable)
    (insertCurrentAt : Option Int) :
    Inv q (transfer q
      { s.setLink s.current (some .runnable) with
        runnable := q.yieldTo s.runnable t s.current insertCurrentAt } true) := by
  have hnot : s.current ∉ q.tasks s.runnable := h.ok.placed.not_mem h.free .runnable
  have hok : Consistent q { s.setLink s.current (some .runnable) with
      runnable := q.yieldTo s.runnable t s.current insertCurrentAt } := by
    refine h.ok.move s.current .runnable rfl rfl rfl ?_ ?_
      (.inr h.alive) h.awake ?_
    · rw [h.ok.placed.erase_of_ne (by simp [h.free])]
      exact q.yieldTo_perm insertCurrentAt ht hnot
    · intro l hl
      rw [h.ok.placed.erase_of_ne (by simp [h.free])]
      cases l with
      | runnable => exact absurd rfl hl
      | prim p => exact List.Perm.refl _
    · intro p hp
      cases hp
  apply transfer_inv hok
  · refine (h.batch_of_live hlive).mono rfl rfl rfl ?_
    intro h0
    simpa [State.setLink, (h.current_ne_main h0).symm] using h0
  · exact h.alive
  · intro p hp
    change s.cont s.current = some p at hp
    simp [h.idle] at hp

/-! ## Switching to a given task -/

theorem unlink_parkCurrent_ok (h : Inv q s) (ht : t ≠ s.current)
    (hnamed : ∀ p, t ∉ named s.ready p) (resumeNext : Bool) :
    Consistent q (parkCurrent q (unlink q s t) resumeNext) ∧
      Frame s (parkCurrent q (unlink q s t) resumeNext) ∧
      (parkCurrent q (unlink q s t) resumeNext).link t = none ∧
      Batch (parkCurrent q (unlink q s t) resumeNext)
        (t = 0 ∨ (parkCurrent q (unlink q s t) resumeNext).link 0 = some .runnable) := by
  rcases unlink_ok h.ok hnamed with ⟨hok, hl⟩
  have hF := unlink_frame (q := q) s t
  have hfree : (unlink q s t).link (unlink q s t).current = none := by
    rw [hF.current, hl, update_of_ne ht.symm, h.free]
  obtain ⟨hok', hF', hl'⟩ := parkCurrent_ok hok hfree
    (by rw [hF.sleeping, hF.current, h.awake]) (by rw [hF.status, hF.current, h.alive]) resumeNext
  rw [hF.current] at hl'
  refine ⟨hok', hF.trans hF', ?_, ?_⟩
  · simp [hl', hl, ht]
  · refine h.batch.mono (hF.trans hF').drain (hF.trans hF').runner (hF.trans hF').targetCount ?_
    intro hmain
    by_cases ht0 : t = 0
    · exact .inl ht0
    · right
      rw [hl', hl]
      by_cases h0 : 0 = s.current
      · simp [h0]
      · simpa [h0, Ne.symm ht0] using hmain.resolve_left (Ne.symm h0)

theorem run_inv (h : Inv q s) (ht : t ≠ s.current →
      (s.status t = .primed ∨ s.status t = .alive) ∧ ∀ p, t ∉ named s.ready p) :
    Inv q (run q s t) := by
  unfold run
  split
  · exact h
  · rename_i hne
    rcases ht hne with ⟨hstatus, hnamed⟩
    rcases unlink_parkCurrent_ok h hne hnamed false with ⟨hok, hF, hlink, hbatch⟩
    exact switchTo_inv hok hlink (by rwa [hF.status]) hbatch

theorem throw_inv (h : Inv q s) (ht : t ≠ s.current →
      (s.status t = .primed ∨ s.status t = .alive) ∧ ∀ p, t ∉ named s.ready p) :
    Inv q (throw q s t) := by
  unfold throw
  split
  · exact h
  · rename_i hne
    rcases ht hne with ⟨hstatus, hnamed⟩
    rcases unlink_parkCurrent_ok h hne hnamed true with ⟨hok, hF, hlink, hbatch⟩
    generalize hs₁ : parkCurrent q (unlink q s t) true = s₁ at hok hF hlink hbatch
    have hstatus₁ : s₁.status t = .primed ∨ s₁.status t = .alive := by rwa [hF.status]
    -- who has thrown does not matter to the queues
    have hok' : Consistent q
        { s₁ with thrower := update s.thrower t (some s.current) } := by
      refine hok.congr rfl rfl rfl ?_
      intro l
      cases l <;> exact List.Perm.refl _
    have hinv := switchTo_inv hok' hlink hstatus₁ hbatch
    have heq := throwInto_eq_switchTo
      (s := { s₁ with thrower := update s.thrower t (some s.current) }) hstatus₁ hinv
    change Inv q (throwInto _ t)
    rw [heq]
    exact hinv

/-! ## Waking -/

theorem makeRunnable_inv (h : Inv q s) (hlink : s.link t = none) (ht : t ≠ s.current)
    (hstatus : s.status t = .primed ∨ s.status t = .alive) (hawake : s.sleeping t = false) :
    Inv q (makeRunnable q s t) := by
  rcases enqueue_ok h.ok none hlink hstatus hawake with ⟨hok, hl⟩
  apply h.of_frame (enqueue_frame s t none) hok
  · rw [hl, update_of_ne ht.symm, h.free]
  · intro hmain
    rw [hl]
    by_cases h0 : 0 = t
    · simp [h0]
    · simpa [h0] using hmain

theorem enqueue_ready (s : State ρ) (t : Nat) (position : Option Int) :
    (enqueue q s t position).ready = s.ready := by
  unfold enqueue
  split <;> rfl

theorem wake_ready (ts : List Nat) (s : State ρ) : (wake q s ts).ready = s.ready := by
  induction ts generalizing s with
  | nil => rfl
  | cons t ts ih => exact (ih _).trans (enqueue_ready s t none)

theorem Consistent.detach (h : Consistent q s) (p : Prim) (isSet : Prim → Bool) :
    Consistent q { s.setWaiters p [] with isSet := isSet, ready := (p, s.waiters p) :: s.ready } := by
  refine h.congr rfl rfl rfl ?_
  intro l
  cases l with
  | runnable => exact List.Perm.refl _
  | prim p' =>
    apply List.Perm.of_eq
    by_cases hp : p = p'
    · subst hp
      simp [place, named, State.setWaiters]
    · simp [place, named, State.setWaiters, hp, Ne.symm hp]

theorem Consistent.defer (h : Consistent q s) (p : Prim) (isSet : Prim → Bool) :
    Consistent q { s.setWaiters p [] with isSet := isSet, ready := s.ready ++ [(p, s.waiters p)] } := by
  refine h.congr rfl rfl rfl ?_
  intro l
  cases l with
  | runnable => exact List.Perm.refl _
  | prim p' =>
    by_cases hp : p = p'
    · subst hp
      simpa [place, named_append, State.setWaiters] using List.perm_append_comm
    · apply List.Perm.of_eq
      simp [place, named_append, State.setWaiters, hp, Ne.symm hp]

theorem eventSet_ok (h : Consistent q s) (p : Prim) (live : Bool) :
    Consistent q (eventSet q s p live) ∧ Frame s (eventSet q s p live) ∧
      ∀ u, s.link u ≠ some (.prim p) → (eventSet q s p live).link u = s.link u := by
  unfold eventSet
  cases live with
  | true =>
    have hdetach := h.detach p (update s.isSet p true)
    simp only [if_true]
    have hF : Frame s { s.setWaiters p [] with isSet := update s.isSet p true } := rfl
    refine ⟨(wake_ok p _ hdetach).1, hF.trans (wake_frame _ _), ?_⟩
    intro u hu
    exact wake_link_of_ne hdetach hu
  | false =>
    simp only [Bool.false_eq_true, if_false]
    split
    · rename_i hnil
      refine ⟨?_, rfl, fun _ _ => rfl⟩
      refine h.congr rfl rfl rfl ?_
      intro l
      apply List.Perm.of_eq
      have hsame : update s.waiters p [] = s.waiters := by
        rw [← hnil, update_eq_self]
      cases l <;> simp [place, State.setWaiters, hsame]
    -- no link changes: the waiters are named by the queued wake instead
    · refine ⟨h.defer p _, ?_, fun _ _ => rfl⟩
      exact rfl

theorem eventSet_inv (h : Inv q s) (p : Prim) (live : Bool) : Inv q (eventSet q s p live) := by
  rcases eventSet_ok h.ok p live with ⟨hok, hF, hl⟩
  apply h.of_frame hF hok
  · rw [hl _ (by simp [h.free]), h.free]
  · intro h0
    rw [hl _ (by simp [h0]), h0]

theorem pulseSet_inv (h : Inv q s) (p : Nat) : Inv q (pulseSet q s p) := by
  have hdetach := h.ok.detach (.pulse p) s.isSet
  have hF : Frame s (s.setWaiters (.pulse p) []) := rfl
  unfold pulseSet
  apply h.of_frame (hF.trans (wake_frame _ _)) (wake_ok (.pulse p) _ hdetach).1
  · exact (wake_link_of_ne hdetach (by simp [State.setWaiters, h.free])).trans h.free
  · intro h0
    exact (wake_link_of_ne hdetach (by simp [State.setWaiters, h0])).trans h0

theorem Consistent.popWaiter (h : Consistent q s) {rest : List Nat}
    (hw : s.waiters p = t :: rest) : Consistent q ((s.setWaiters p rest).setLink t none) := by
  have hlink : s.link t = some (.prim p) := h.link_of_waiter (by simp [hw])
  refine h.remove t rfl rfl rfl ?_
  intro l
  by_cases hl : l = .prim p
  · subst hl
    rw [place_setLink, place_setWaiters_self]
    simp [place, hw]
  · rw [place_setLink, place_setWaiters_of_ne hl,
      h.placed.erase_of_ne (by simp [hlink, Ne.symm hl])]

theorem Inv.popWaiter (h : Inv q s) {rest : List Nat} (hw : s.waiters p = t :: rest) :
    Inv q ((s.setWaiters p rest).setLink t none) ∧ t ≠ s.current := by
  have hlink : s.link t = some (.prim p) := h.ok.link_of_waiter (by simp [hw])
  have hcur : t ≠ s.current := by
    intro hcur
    have hfree := h.free
    simp [← hcur, hlink] at hfree
  refine ⟨h.of_frame rfl (h.ok.popWaiter hw) ?_ ?_, hcur⟩
  · simpa [State.setLink, State.setWaiters, hcur.symm] using h.free
  · intro hmain
    have h0 : t ≠ 0 := by
      intro h0
      simp [← h0, hlink] at hmain
    simpa [State.setLink, State.setWaiters, h0.symm] using hmain

theorem channelWake_inv (h : Inv q s) {c : Nat} {immediate : Bool}
    (hwake : channelWake q s c immediate = some s') : Inv q s' := by
  unfold channelWake at hwake
  cases hw : s.waiters (.channel c) with
  | nil => simp [hw] at hwake
  | cons t rest =>
    have hlink : s.link t = some (.prim (.channel c)) := h.ok.link_of_waiter (by simp [hw])
    have hstatus := h.ok.linked t (by simp [hlink])
    rcases h.popWaiter hw with ⟨hinv, hcur⟩
    have hnone : ((s.setWaiters (.channel c) rest).setLink t none).link t = none := by
      simp [State.setLink]
    -- a fresh turn for the waiter, or a place in the runnable queue
    simp only [hw] at hwake
    cases immediate with
    | true =>
      simp only [if_true, Option.some.injEq] at hwake
      subst hwake
      apply run_inv hinv
      intro _
      refine ⟨hstatus, ?_⟩
      intro p hmem
      have hlink' := hinv.ok.link_of_named hmem
      simp [hnone] at hlink'
    | false =>
      simp only [Bool.false_eq_true, if_false, Option.some.injEq] at hwake
      subst hwake
      have hawake : s.sleeping t = false := by
        by_contra hsleep
        have hlink' := (h.ok.sleeping t (by simpa using hsleep)).1
        simp [hlink] at hlink'
      exact makeRunnable_inv hinv hnone hcur hstatus hawake

/-! ## Starting and ending tasks -/

theorem Inv.prime (h : Inv q s) :
    Inv q { s with status := update s.status s.next .primed, next := s.next + 1 } ∧
      s.link s.next = none ∧ s.next ≠ s.current ∧ s.next ≠ 0 ∧ s.sleeping s.next = false := by
  have hunborn : s.status s.next = .unborn := h.ok.unborn s.next (Nat.le_refl _)
  have hlink : s.link s.next = none := h.ok.link_unborn hunborn
  have hcur : s.next ≠ s.current := by
    intro hcur
    have halive := h.alive
    simp [← hcur, hunborn] at halive
  have h0 : s.next ≠ 0 := by
    intro h0
    have hmain := h.ok.main
    simp [← h0, hunborn] at hmain
  have hawake : s.sleeping s.next = false := by
    by_contra hsleep
    have halive := (h.ok.sleeping s.next (by simpa using hsleep)).2
    simp [hunborn] at halive
  refine ⟨?_, hlink, hcur, h0, hawake⟩
  -- only the fields about the status of the new task are in question
  refine ⟨⟨h.ok.placed, ?_, h.ok.cont, ?_, ?_, ?_, h.ok.assertions⟩, h.free, h.awake, h.idle, ?_, h.batch⟩
  · intro t ht
    by_cases hnext : t = s.next
    · simp [hnext]
    · simpa [hnext] using h.ok.linked t ht
  · intro t ht
    have hnext : t ≠ s.next := by
      intro hnext
      simp [hnext, hawake] at ht
    simpa [hnext] using h.ok.sleeping t ht
  · intro t ht
    have hlt : s.next < t := ht
    have hnext : t ≠ s.next := Nat.ne_of_gt hlt
    simpa [hnext] using h.ok.unborn t (Nat.le_of_lt hlt)
  · simpa [h0.symm] using h.ok.main
  · simpa [hcur.symm] using h.alive

theorem spawn_inv (h : Inv q s) : Inv q (spawn q s) := by
  rcases h.prime with ⟨hinv, hlink, hcur, -, hawake⟩
  exact makeRunnable_inv hinv hlink hcur (.inl (by simp)) hawake

theorem spawnEager_inv (h : Inv q s) : Inv q (spawnEager q s) := by
  rcases h.prime with ⟨hinv, hlink, hcur, h0, -⟩
  unfold spawnEager
  rw [if_pos hlink]
  rcases parkCurrent_ok hinv.ok hinv.free hinv.awake hinv.alive true with ⟨hok, hF, hl⟩
  apply switchTo_inv hok
  · rw [hl]
    simpa [hcur] using hlink
  · left
    simp [hF.status]
  · refine h.batch.mono hF.drain hF.runner hF.targetCount ?_
    intro hmain
    right
    rw [hl]
    by_cases hc : 0 = s.current
    · simp [hc]
    · simpa [hc] using hmain.resolve_left (Ne.symm hc)

theorem eventSet_link_of_live (h : Consistent q s) (ht : t ∈ s.waiters p) :
    (eventSet q s p true).link t = some .runnable := by
  have hlinks := (wake_ok
    (s := { s.setWaiters p [] with isSet := update s.isSet p true })
    p (s.waiters p) (h.detach p _)).2 t
  rwa [if_pos ht] at hlinks

theorem eventSet_named {live : Bool} {u : Nat} (hu : ∀ p', u ∉ named s.ready p')
    (hw : live = false → u ∉ s.waiters p) (p' : Prim) :
    u ∉ named (eventSet q s p live).ready p' := by
  unfold eventSet
  cases live with
  | true =>
    simp only [if_true, wake_ready]
    exact hu p'
  | false =>
    simp only [Bool.false_eq_true, if_false]
    split
    · exact hu p'
    · rw [named_append, List.mem_append]
      rintro (hmem | hmem)
      · exact hu p' hmem
      · by_cases hp : p = p'
        · rw [if_pos hp] at hmem
          exact hw rfl hmem
        · simp [hp] at hmem

theorem Inv.over (h : Inv q s) (h0 : s.current ≠ 0) :
    Consistent q { s with status := update s.status s.current .finished } := by
  refine ⟨h.ok.placed, ?_, h.ok.cont, ?_, ?_, ?_, h.ok.assertions⟩
  · intro t ht
    have hcur : t ≠ s.current := by
      intro hcur
      exact ht (hcur ▸ h.free)
    simpa [hcur] using h.ok.linked t ht
  · intro t ht
    have hcur : t ≠ s.current := by
      intro hcur
      have hsleep : s.sleeping t = true := ht
      simp [hcur, h.awake] at hsleep
    simpa [hcur] using h.ok.sleeping t ht
  · intro t ht
    have hcur : t ≠ s.current := by
      intro hcur
      have hunborn := h.ok.unborn t ht
      simp [hcur, h.alive] at hunborn
    simpa [hcur] using h.ok.unborn t ht
  · simpa [h0.symm] using h.ok.main

theorem finish_ok (h : Inv q s) (h0 : s.current ≠ 0) :
    Consistent q (finish q s) ∧
      Frame { s with status := update s.status s.current .finished } (finish q s) ∧
      ∀ u, s.link u ≠ some (.prim (.taskDone s.current)) → (finish q s).link u = s.link u :=
  eventSet_ok (h.over h0) (.taskDone s.current) s.drain.isSome

theorem Inv.batch_finish (h : Inv q s) (h0 : s.current ≠ 0) {P : Prop}
    (hP : (finish q s).link 0 = some .runnable → P) : Batch (finish q s) P := by
  rcases finish_ok h h0 with ⟨-, hF, hl⟩
  refine h.batch.mono hF.drain hF.runner hF.targetCount ?_
  intro hmain
  have hlink := hmain.resolve_left h0
  exact hP ((hl 0 (by simp [hlink])).trans hlink)

theorem finish_runnable_eq_nil (h : Inv q s) (h0 : s.current ≠ 0)
    (hempty : q.tasks (finish q s).runnable = []) :
    q.tasks s.runnable = [] ∧ (s.drain = none ∨ s.waiters (.taskDone s.current) = []) := by
  rcases finish_ok h h0 with ⟨hok, -, hl⟩
  have hout : ∀ t, (finish q s).link t ≠ some .runnable := by
    intro t ht
    have hmem := (hok.mem_runnable t).1 ht
    simp [hempty] at hmem
  refine ⟨?_, ?_⟩
  · apply List.eq_nil_iff_forall_not_mem.2
    intro t ht
    have hlink := (h.ok.mem_runnable t).2 ht
    exact hout t ((hl t (by simp [hlink])).trans hlink)
  · cases hdrain : s.drain with
    | none => exact .inl rfl
    | some d =>
      right
      apply List.eq_nil_iff_forall_not_mem.2
      intro t ht
      -- in a drain the wake runs at once
      have hlink := eventSet_link_of_live (h.over h0) ht
      apply hout t
      simpa [finish, hdrain] using hlink

/-- Control goes to main, with or without an exception. -/
theorem exit_main_inv (h : Inv q s) (h0 : s.current ≠ 0) (hmain : s.link 0 = none) :
    Inv q (exit q s .system) ∧ Inv q (exit q s .callback) := by
  rcases finish_ok h h0 with ⟨hok, -, hl⟩
  have hlink : (finish q s).link 0 = none := by
    rw [hl 0 (by simp [hmain]), hmain]
  have hinv := switchTo_inv hok hlink (.inr hok.main) (h.batch_finish h0 fun _ => .inl rfl)
  have hexit : exit q s .callback = switchTo (finish q s) 0 := by
    simp only [exit, exitTo, hok.main]
  refine ⟨?_, hexit ▸ hinv⟩
  change Inv q (throwInto (finish q s) 0)
  rw [throwInto_eq_switchTo (.inr hok.main) hinv]
  exact hinv

theorem exit_redirect_inv (h : Inv q s) (h0 : s.current ≠ 0) {u : Nat} (hu : u ≠ s.current)
    (halive : s.status u = .alive) (hnamed : ∀ p, u ∉ named s.ready p)
    (hw : s.drain = none → u ∉ s.waiters (.taskDone s.current)) :
    Inv q (exitTo (unlink q (finish q s) u) u) := by
  rcases finish_ok h h0 with ⟨hok, hF, -⟩
  have hnamed' : ∀ p, u ∉ named (finish q s).ready p := by
    intro p
    unfold finish
    refine eventSet_named ?_ ?_ p
    · exact hnamed
    · intro hdrain
      exact hw (by simpa using hdrain)
  rcases unlink_ok hok hnamed' with ⟨hok', hl⟩
  have hF' := unlink_frame (q := q) (finish q s) u
  have hstatus : (unlink q (finish q s) u).status u = .alive := by
    rw [hF'.status, hF.status]
    simpa [hu] using halive
  have heq : exitTo (unlink q (finish q s) u) u = switchTo (unlink q (finish q s) u) u := by
    simp [exitTo, hstatus]
  rw [heq]
  apply switchTo_inv hok' (by simp [hl]) (.inr hstatus)
  refine (h.batch_finish h0 id).mono hF'.drain hF'.runner hF'.targetCount ?_
  intro hmain
  by_cases hu0 : u = 0
  · exact .inl hu0
  · right
    simpa [hl, Ne.symm hu0] using hmain

theorem exit_find_inv (h : Inv q s) (h0 : s.current ≠ 0)
    (hmain : q.tasks s.runnable = [] →
      (s.drain = none ∨ s.waiters (.taskDone s.current) = []) → s.link 0 = none)
    (hfind : findTarget q (finish q s) true false = some (t, s')) :
    Inv q (exitTo s' t) := by
  rcases finish_ok h h0 with ⟨hok, -, hl⟩
  -- the condition is about the state before the exit
  have hmain' : true = true → q.tasks (finish q s).runnable = [] → (finish q s).link 0 = none := by
    intro _ hempty
    rcases finish_runnable_eq_nil h h0 hempty with ⟨hnil, hnobody⟩
    have hlink := hmain hnil hnobody
    rw [hl 0 (by simp [hlink]), hlink]
  have hbatch := h.batch_finish h0 id
  rcases findTarget_ok hok hbatch hmain' hfind with ⟨-, hF, -, hstatus⟩
  have heq : exitTo s' t = switchTo s' t := by
    rw [← hF.status] at hstatus
    rcases hstatus with hs | hs <;> simp [exitTo, hs]
  rw [heq]
  exact findTarget_switch_inv hok hbatch hmain' hfind

/-! ## The conditions -/

/-- What the code relies on without a check.  `run` and `throw` take a target that is neither
finished nor named by a queued wake, and so does the return of an exception; a task that ends
without another one to switch to, with `SystemExit` or with a done callback that raises, finds main
unlinked. -/
def Guard (q : RunnableQueue ρ) (s : State ρ) : Act → Prop
  | .run t | .throw t => t ≠ s.current → s.status t ≠ .finished ∧ Unnamed s t
  | .exit how =>
    match how, excTarget s how with
    | .system, _ | .callback, _ => s.link 0 = none
    | _, some u => Unnamed s u ∧ (s.drain = none → u ∉ s.waiters (.taskDone s.current))
    | _, none =>
      q.tasks s.runnable = [] →
        s.drain = none ∨ s.waiters (.taskDone s.current) = [] → s.link 0 = none
  | _ => True

instance (q : RunnableQueue ρ) (s : State ρ) : ∀ a, Decidable (Guard q s a)
  | .run t | .throw t =>
    inferInstanceAs (Decidable (t ≠ s.current → s.status t ≠ .finished ∧ Unnamed s t))
  | .exit .system | .exit .callback => inferInstanceAs (Decidable (s.link 0 = none))
  | .exit .returned | .exit .error =>
    inferInstanceAs (Decidable (q.tasks s.runnable = [] →
      s.drain = none ∨ s.waiters (.taskDone s.current) = [] → s.link 0 = none))
  | .exit .thrown =>
    match h : excTarget s .thrown with
    | some u =>
      decidable_of_iff
        (Unnamed s u ∧ (s.drain = none → u ∉ s.waiters (.taskDone s.current)))
        (by simp [Guard, h])
    | none =>
      decidable_of_iff (q.tasks s.runnable = [] →
        s.drain = none ∨ s.waiters (.taskDone s.current) = [] → s.link 0 = none)
        (by simp [Guard, h])
  | .spawn | .spawnEager | .yield | .yieldTo .. | .reschedule .. | .eventWait _ | .taskWait _
  | .eventSet _ | .eventSetOutside _ | .eventClear _ | .pulseWait _ | .pulseSet _ | .channelWait _
  | .channelWake .. | .sleep | .startBatch | .runCallback | .fireTimer _ | .endDrain _ | .endBatch =>
    inferInstanceAs (Decidable True)

theorem excTarget_some {how : Exit} {u : Nat} (h : excTarget s how = some u) :
    s.status u = .alive ∧ u ≠ s.current := by
  cases how with
  | thrown =>
    unfold excTarget at h
    cases hthrower : s.thrower s.current with
    | none => simp [hthrower] at h
    | some v =>
      simp only [hthrower, Option.ite_none_right_eq_some, Option.some.injEq] at h
      rcases h with ⟨hv, rfl⟩
      exact hv
  | returned => simp [excTarget] at h
  | error => simp [excTarget] at h
  | system | callback => simp [excTarget] at h

theorem exit_inv (h : Inv q s) (h0 : s.current ≠ 0) {how : Exit} (hguard : Guard q s (.exit how)) :
    Inv q (exit q s how) := by
  by_cases hmain : how = .system ∨ how = .callback
  · rcases hmain with rfl | rfl
    · exact (exit_main_inv h h0 (by simpa [Guard] using hguard)).1
    · exact (exit_main_inv h h0 (by simpa [Guard] using hguard)).2
  · cases htarget : excTarget s how with
    | some u =>
      have hu : Unnamed s u ∧ (s.drain = none → u ∉ s.waiters (.taskDone s.current)) := by
        cases how <;> simp_all [Guard]
      have heq : exit q s how = exitTo (unlink q (finish q s) u) u := by
        cases how <;> simp_all [exit]
      rcases excTarget_some htarget with ⟨halive, hne⟩
      rw [heq]
      exact exit_redirect_inv h h0 hne halive hu.1.not_mem hu.2
    | none =>
      have hmain : q.tasks s.runnable = [] →
          (s.drain = none ∨ s.waiters (.taskDone s.current) = []) → s.link 0 = none := by
        cases how <;> simp_all [Guard]
      cases hfind : findTarget q (finish q s) true false with
      | some r =>
        have heq : exit q s how = exitTo r.2 r.1 := by
          cases how <;> simp_all [exit]
        rw [heq]
        exact exit_find_inv h h0 hmain hfind
      | none =>
        -- a task that exits always finds a target
        simp only [findTarget] at hfind
        split at hfind
        · simp at hfind
        · cases hpop : q.popNext (finish q s).runnable <;> simp [hpop] at hfind

/-! ## One step -/

theorem reschedule_inv (h : Inv q s) (ht : t ∈ q.tasks s.runnable) (position : Option Int) :
    Inv q { s with runnable := q.reschedule s.runnable t position } := by
  refine h.of_frame rfl ?_ h.free id
  refine h.ok.congr rfl rfl rfl ?_
  intro l
  cases l with
  | runnable => exact q.reschedule_perm s.runnable t position ht
  | prim p => exact List.Perm.refl _

theorem eventClear_inv (h : Inv q s) (isSet : Prim → Bool) : Inv q { s with isSet := isSet } := by
  refine h.of_frame rfl ?_ h.free id
  refine h.ok.congr rfl rfl rfl ?_
  intro l
  cases l <;> exact List.Perm.refl _

theorem guard_target (hborn : s.status t ≠ .unborn)
    (hguard : t ≠ s.current → s.status t ≠ .finished ∧ Unnamed s t) :
    t ≠ s.current → (s.status t = .primed ∨ s.status t = .alive) ∧ ∀ p, t ∉ named s.ready p := by
  intro ht
  rcases hguard ht with ⟨hfinished, hunnamed⟩
  refine ⟨?_, hunnamed.not_mem⟩
  cases hs : s.status t with
  | unborn => exact absurd hs hborn
  | primed => exact .inl rfl
  | alive => exact .inr rfl
  | finished => exact absurd hs hfinished

theorem liveStep_inv (h : Inv q s) (hlive : Live s) {a : Act} (hguard : Guard q s a)
    (hstep : liveStep q s a = some s') : Inv q s' := by
  cases a with
  | spawn =>
    cases hstep
    exact spawn_inv h
  | spawnEager =>
    cases hstep
    exact spawnEager_inv h
  | yield =>
    cases hstep
    exact parkCurrent_transfer_inv h h.batch false false
  | yieldTo t insertCurrentAt =>
    simp only [liveStep] at hstep
    split at hstep
    · cases hstep
      exact h
    · rename_i ht
      cases hstep
      exact yieldTo_inv h hlive (by simpa using (not_or.1 ht).2) insertCurrentAt
  | run t =>
    simp only [liveStep] at hstep
    split at hstep
    · cases hstep
    · rename_i hborn
      cases hstep
      exact run_inv h (guard_target hborn hguard)
  | throw t =>
    simp only [liveStep] at hstep
    split at hstep
    · cases hstep
    · rename_i hborn
      cases hstep
      exact throw_inv h (guard_target hborn hguard)
  | reschedule t position =>
    simp only [liveStep] at hstep
    split at hstep
    · rename_i ht
      cases hstep
      exact reschedule_inv h ht position
    · cases hstep
      exact h
  | eventWait e =>
    cases hstep
    exact eventWait_inv h hlive (.event e)
  | taskWait t =>
    cases hstep
    exact eventWait_inv h hlive (.taskDone t)
  | eventSet e =>
    cases hstep
    exact eventSet_inv h (.event e) true
  | eventClear e =>
    cases hstep
    exact eventClear_inv h _
  | pulseWait p =>
    cases hstep
    exact waitOn_inv h hlive (.pulse p)
  | pulseSet p =>
    cases hstep
    exact pulseSet_inv h p
  | channelWait c =>
    cases hstep
    exact park_inv h hlive (.channel c)
  | channelWake c immediate => exact channelWake_inv h hstep
  | sleep =>
    cases hstep
    exact sleep_inv h hlive
  | exit how =>
    simp only [liveStep] at hstep
    split at hstep
    · cases hstep
    · rename_i h0
      cases hstep
      exact exit_inv h h0 hguard
  | eventSetOutside e => cases hstep
  | startBatch => cases hstep
  | runCallback => cases hstep
  | fireTimer t => cases hstep
  | endDrain limit => cases hstep
  | endBatch => cases hstep

theorem Inv.targetCount_of_drain (h : Inv q s) {d : Nat} (hdrain : s.drain = some d) :
    s.targetCount = none := by
  by_contra hne
  rcases Option.ne_none_iff_exists'.1 hne with ⟨n, hn⟩
  have hnone := (h.batch.2 n hn).1
  simp [hdrain] at hnone

theorem Inv.counters (h : Inv q s) (runner drain : Option Nat) (startCount : Nat)
    (targetCount : Option Nat) (hdrain : drain ≠ none → runner = some 0)
    (hcount : ∀ n, targetCount = some n →
      drain = none ∧ runner = some 0 ∧ (s.current = 0 ∨ s.link 0 = some .runnable)) :
    Inv q { s with
      runner := runner, drain := drain, startCount := startCount, targetCount := targetCount } := by
  refine ⟨?_, h.free, h.awake, h.idle, h.alive, hdrain, hcount⟩
  exact ⟨h.ok.placed, h.ok.linked, h.ok.cont, h.ok.sleeping, h.ok.unborn, h.ok.main, h.ok.assertions⟩

theorem runCallback_inv (h : Inv q s) {ts : List Nat} {rest : List (Prim × List Nat)}
    (hready : s.ready = (p, ts) :: rest) : Inv q (wake q { s with ready := rest } ts) := by
  have hnamed : Consistent q { { s with ready := rest } with ready := (p, ts) :: rest } := by
    rw [← hready]
    exact h.ok
  have hF : Frame s { s with ready := rest } := rfl
  apply h.of_frame (hF.trans (wake_frame ts _)) (wake_ok p ts hnamed).1
  · exact (wake_link_of_ne hnamed (by simp [h.free])).trans h.free
  · intro h0
    exact (wake_link_of_ne hnamed (by simp [h0])).trans h0

theorem fireTimer_inv (h : Inv q s) (ht : s.sleeping t = true) :
    Inv q (makeRunnable q { s with sleeping := update s.sleeping t false } t) := by
  rcases h.ok.sleeping t ht with ⟨hlink, halive⟩
  have hcur : t ≠ s.current := by
    intro hcur
    simp [hcur, h.awake] at ht
  have hinv : Inv q { s with sleeping := update s.sleeping t false } := by
    refine ⟨⟨h.ok.placed, h.ok.linked, h.ok.cont, ?_, h.ok.unborn, h.ok.main, h.ok.assertions⟩,
      h.free, ?_, h.idle, h.alive, h.batch⟩
    · intro u hu
      by_cases hut : u = t
      · simp [hut] at hu
      · apply h.ok.sleeping u
        simpa [hut] using hu
    · simpa [hcur.symm] using h.awake
  exact makeRunnable_inv hinv hlink hcur (.inr halive) (by simp)

theorem driverStep_inv (h : Inv q s) (h0 : s.current = 0) {a : Act}
    (hstep : driverStep q s a = some s') : Inv q s' := by
  cases a with
  | spawn =>
    simp only [driverStep] at hstep
    split at hstep
    · cases hstep
      exact spawn_inv h
    · cases hstep
  | startBatch =>
    simp only [driverStep] at hstep
    split at hstep
    · rename_i hidle
      cases hstep
      apply h.counters _ _ _ _ (fun _ => rfl)
      intro n hn
      have hrunner := (h.batch.2 n hn).2.1
      simp [hidle.2] at hrunner
    · cases hstep
  | runCallback =>
    cases hready : s.ready with
    | nil => simp [driverStep, hready] at hstep
    | cons w rest =>
      simp only [driverStep, hready] at hstep
      split at hstep
      · cases hstep
        exact runCallback_inv h hready
      · cases hstep
  | fireTimer t =>
    simp only [driverStep] at hstep
    split at hstep
    · rename_i htimer
      cases hstep
      exact fireTimer_inv h htimer.2
    · cases hstep
  | endDrain limit =>
    simp only [driverStep] at hstep
    split at hstep
    · rename_i hdrain
      have hcount := h.targetCount_of_drain hdrain
      split at hstep
      · cases hstep
        apply h.counters _ _ _ _ (fun hne => absurd rfl hne)
        intro n hn
        simp [hcount] at hn
      · cases hstep
        -- main parks behind the tasks of the batch, and the batch begins to count
        have hrunner : s.runner = some 0 := h.batch.1 (by simp [hdrain])
        have hinv := h.counters s.runner none s.startCount
          (if 0 < limit.getD (q.tasks s.runnable).length then
            some (s.startCount + limit.getD (q.tasks s.runnable).length) else none)
          (fun hne => absurd rfl hne) (fun _ _ => ⟨rfl, hrunner, .inl h0⟩)
        exact parkCurrent_transfer_inv hinv hinv.batch false false
    · cases hstep
  | endBatch =>
    simp only [driverStep] at hstep
    split at hstep
    · rename_i hbatch
      cases hstep
      apply h.counters _ _ _ _ (fun hne => absurd hbatch.1 hne)
      intro n hn
      cases hn
    · cases hstep
  | _ => cases hstep

theorem step_inv {a : Act} (h : Inv q s) (hguard : Guard q s a)
    (hstep : step q s a = some s') : Inv q s' := by
  unfold step at hstep
  rw [if_neg (by simp [h.ok.assertions])] at hstep
  split at hstep
  · cases hstep
    exact eventSet_inv h _ false
  -- the five actions of the driver
  iterate 5
    split at hstep
    · rename_i h0
      exact driverStep_inv h h0 hstep
    · cases hstep
  · split at hstep
    · rename_i hlive
      exact liveStep_inv h hlive hguard hstep
    · rename_i hlive
      exact driverStep_inv h (by simpa using (not_or.1 hlive).1) hstep
  · split at hstep
    · rename_i hlive
      exact liveStep_inv h hlive hguard hstep
    · cases hstep

/-! ## Whole runs -/

/-- In a run whose steps all meet `Guard`, links, queues and waiter lists agree in every state. -/
theorem links_agree_of_guard (q : RunnableQueue ρ) (acts : List Act)
    (hguard : Along (step q) (Guard q) (init q) acts) :
    Always (step q) (LinkInvariant q) (init q) acts :=
  always_of_along (fun _ => Inv.linkInvariant) (fun _ _ _ => step_inv) acts _ Inv.init hguard

/-- Task 1 waits for an event and task 2 for task 1; the event is set from outside, the wake runs,
task 2 is thrown out of its wait by the driver and ends, and task 1 ends. -/
theorem links_agree_in_wake_and_throw :
    Played (step fifoRunnableQueue) (Always (step fifoRunnableQueue) (LinkInvariant fifoRunnableQueue))
      (init fifoRunnableQueue)
      [.spawn, .spawn, .startBatch, .endDrain none, .eventWait 0, .taskWait 1, .endBatch,
        .eventSetOutside 0, .startBatch, .runCallback, .throw 2, .exit .thrown, .endDrain none,
        .exit .returned] :=
  ⟨links_agree_of_guard fifoRunnableQueue _ (by decide), by decide⟩

/-- Without the condition it fails, also when no event is set from outside: task 1 waits for task 2,
and the exit of task 2 queues the wake; task 3 throws into task 1, whose link stays behind, and the
next wait of task 1 finds it. -/
theorem throw_before_wake_leaves_link :
    ¬ ∀ acts : List Act, (∀ e, Act.eventSetOutside e ∉ acts) →
      Always (step fifoRunnableQueue) (LinkInvariant fifoRunnableQueue) (init fifoRunnableQueue)
        acts := by
  intro h
  have hrun := h [.spawn, .spawn, .spawn, .startBatch, .endDrain none, .taskWait 2,
    .exit .returned, .throw 1, .eventWait 0] (by simp)
  have hlast := ((((((((hrun.next rfl).next rfl).next rfl).next rfl).next rfl).next rfl).next
    rfl).next rfl).next rfl
  exact absurd hlast.assertions (by decide)

/-! ## Queued wakes -/

/-- `t` is inside the wait call of `p` and has not been taken out of it. -/
def ParkedIn (s : State ρ) (p : Prim) (t : Nat) : Prop :=
  s.cont t = some p ∧ s.link t = some (.prim p) ∧ t ≠ s.current ∧ s.status t ≠ .finished

/-- The queued wake that runs next makes only tasks runnable that are parked in its event. -/
def WakeSafe (q : RunnableQueue ρ) (s : State ρ) (a : Act) : Prop :=
  a = .runCallback → ∀ w ∈ s.ready.head?, ∀ s', step q s a = some s' →
    ∀ t ∈ q.tasks s'.runnable, t ∉ q.tasks s.runnable → ParkedIn s w.1 t

theorem Inv.parkedIn (h : Inv q s) (ht : t ∈ named s.ready p) : ParkedIn s p t := by
  have hlink := h.ok.link_of_named ht
  refine ⟨h.ok.cont t p hlink, hlink, ?_, ?_⟩
  · intro hcur
    have hfree := h.free
    simp [← hcur, hlink] at hfree
  · intro hfinished
    have hnone := h.ok.link_finished hfinished
    simp [hlink] at hnone

theorem step_runCallback {ts : List Nat} {rest : List (Prim × List Nat)}
    (hready : s.ready = (p, ts) :: rest) (hstep : step q s .runCallback = some s') :
    s' = wake q { s with ready := rest } ts := by
  unfold step at hstep
  split at hstep
  · cases hstep
  · simp only [driverStep, hready] at hstep
    split at hstep
    · split at hstep
      · exact (Option.some.inj hstep).symm
      · cases hstep
    · cases hstep

theorem Inv.wakeSafe (h : Inv q s) (a : Act) : WakeSafe q s a := by
  rintro rfl ⟨p, ts⟩ hw s' hstep t ht hnot
  have hguard : Guard q s .runCallback := trivial
  have hinv : Inv q s' := step_inv h hguard hstep
  cases hready : s.ready with
  | nil => simp [hready] at hw
  | cons w rest =>
    have hwp : w = (p, ts) := by simpa [hready] using hw
    subst hwp
    have hs' := step_runCallback hready hstep
    have hnamed : Consistent q { { s with ready := rest } with ready := (p, ts) :: rest } := by
      rw [← hready]
      exact h.ok
    have hlink := (hinv.ok.mem_runnable t).2 ht
    rw [hs', (wake_ok p ts hnamed).2 t] at hlink
    by_cases hts : t ∈ ts
    · apply h.parkedIn
      simp [hready, named, hts]
    · rw [if_neg hts] at hlink
      exact absurd ((h.ok.mem_runnable t).1 hlink) hnot

/-- In a run whose steps all meet `Guard`, every queued wake makes only tasks runnable that are
still parked in its event. -/
theorem queued_wakes_safe_of_guard (q : RunnableQueue ρ) (acts : List Act)
    (hguard : Along (step q) (Guard q) (init q) acts) :
    Along (step q) (WakeSafe q) (init q) acts :=
  along_of_along (fun _ a h _ => h.wakeSafe a) (fun _ _ _ => step_inv) acts _ Inv.init hguard

theorem queued_wakes_safe_in_cancel_of_other :
    Played (step fifoRunnableQueue) (Along (step fifoRunnableQueue) (WakeSafe fifoRunnableQueue))
      (init fifoRunnableQueue)
      [.spawn, .spawn, .startBatch, .endDrain none, .eventWait 0, .eventWait 1, .endBatch,
        .eventSetOutside 0, .startBatch, .throw 2, .exit .thrown, .runCallback] :=
  ⟨queued_wakes_safe_of_guard fifoRunnableQueue _ (by decide), by decide⟩

/-- Without the condition it fails: the event is set from outside while task 1 waits for it, a
callback that runs before the wake cancels task 1, which ends, and the wake makes the finished task
runnable. -/
theorem queued_wake_of_cancelled_task :
    ¬ ∀ acts : List Act,
      Along (step fifoRunnableQueue) (WakeSafe fifoRunnableQueue) (init fifoRunnableQueue) acts := by
  intro h
  have hrun := h [.spawn, .startBatch, .endDrain none, .eventWait 0, .endBatch, .eventSetOutside 0,
    .startBatch, .throw 1, .exit .thrown, .runCallback]
  have hwake := ((((((((((hrun.next rfl).2.next rfl).2.next rfl).2.next rfl).2.next rfl).2.next
    rfl).2.next rfl).2.next rfl).2.next rfl).2.next rfl).1
  have hparked := hwake rfl _ rfl _ rfl 1 (by decide) (by decide)
  exact absurd hparked.2.2.2 (by decide)

end Pytealet.Scheduler.Links
