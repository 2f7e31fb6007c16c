import Pytealet.Lib.Placement
import Pytealet.Scheduler.Links

/-!
# LinkInvariant — where every task is

The invariant of `Links`: a task with the runnable link is in the runnable queue, and a task whose
link is a primitive is in the waiter list of that primitive or is named by a wake of it that is
still queued; each of them once.  The running task has no link.

It is kept by every action except four kinds of transfer that go past the queues: `Task.run` or
`Task.throw` into a task that is finished or that a queued wake names, the return of an uncaught
exception to a task that a queued wake names, `SystemExit` in a task while main is linked, and the
last exit while main is linked.
-/

namespace Pytealet.Scheduler.Links

open Lib Lib.Transition Function List

variable {ρ : Type*} {q : RunnableQueue ρ}

/-! ## Queued wakes -/

/-- The tasks that the queued wakes of `p` name. -/
def named : List (Prim × List Nat) → Prim → List Nat
  | [], _ => []
  | (p', ts) :: rest, p => if p' = p then ts ++ named rest p else named rest p

theorem named_append (ready : List (Prim × List Nat)) (p p' : Prim) (ts : List Nat) :
    named (ready ++ [(p', ts)]) p = named ready p ++ if p' = p then ts else [] := by
  induction ready with
  | nil =>
    by_cases hp : p' = p <;> simp [named, hp]
  | cons w ready ih =>
    by_cases hw : w.1 = p
    · simp [named, hw, ih]
    · simp [named, hw, ih]

variable {t : Nat}

theorem mem_named {ready : List (Prim × List Nat)} {p : Prim} :
    t ∈ named ready p ↔ ∃ ts, (p, ts) ∈ ready ∧ t ∈ ts := by
  induction ready with
  | nil => simp [named]
  | cons w ready ih =>
    rcases w with ⟨p', ts⟩
    by_cases hp : p' = p
    · subst hp
      simp [named, ih, or_and_right, exists_or]
    · simp [named, hp, Ne.symm hp, ih]

/-- No queued wake names `t`. -/
def Unnamed (s : State ρ) (t : Nat) : Prop :=
  ∀ w ∈ s.ready, t ∉ w.2

instance (s : State ρ) (t : Nat) : Decidable (Unnamed s t) :=
  inferInstanceAs (Decidable (∀ w ∈ s.ready, t ∉ w.2))

variable {s : State ρ}

theorem Unnamed.not_mem (h : Unnamed s t) (p : Prim) : t ∉ named s.ready p := by
  intro hmem
  rcases mem_named.1 hmem with ⟨ts, hw, ht⟩
  exact h (p, ts) hw ht

/-! ## The invariants -/

/-- Every link is the right one, every waiter is in one list and once, and the running task and the
finished ones are in none. -/
structure LinkInvariant (q : RunnableQueue ρ) (s : State ρ) : Prop where
  runnable : ∀ t, s.link t = some .runnable ↔ t ∈ q.tasks s.runnable
  waiters : ∀ p, (s.waiters p).Nodup ∧ ∀ t ∈ s.waiters p, s.link t = some (.prim p)
  apart : ∀ p p' t, t ∈ s.waiters p → t ∈ s.waiters p' → p = p'
  current : s.current ∉ q.tasks s.runnable ∧ ∀ p, s.current ∉ s.waiters p
  finished : ∀ t, s.status t = .finished → t ∉ q.tasks s.runnable ∧ ∀ p, t ∉ s.waiters p
  assertions : s.fault = false

/-- The tasks that should have the link `l`. -/
def place (q : RunnableQueue ρ) (s : State ρ) : Link → List Nat
  | .runnable => q.tasks s.runnable
  | .prim p => s.waiters p ++ named s.ready p

@[simp] theorem place_setLink (q : RunnableQueue ρ) (s : State ρ) (t : Nat) (l : Option Link) :
    place q (s.setLink t l) = place q s := by
  funext l'
  cases l' <;> rfl

theorem place_setWaiters_of_ne {l : Link} {p : Prim} (hl : l ≠ .prim p)
    (ts : List Nat) : place q (s.setWaiters p ts) l = place q s l := by
  cases l with
  | runnable => rfl
  | prim p' =>
    have hp' : p' ≠ p := fun hp' => hl (by rw [hp'])
    simp [place, State.setWaiters, hp']

theorem place_setWaiters_self (s : State ρ) (p : Prim) (ts : List Nat) :
    place q (s.setWaiters p ts) (.prim p) = ts ++ named s.ready p := by
  simp [place, State.setWaiters]

/-- The part of the invariant that does not depend on who is running. -/
structure Consistent (q : RunnableQueue ρ) (s : State ρ) : Prop where
  placed : Placed s.link (place q s)
  linked : ∀ t, s.link t ≠ none → s.status t = .primed ∨ s.status t = .alive
  cont : ∀ t p, s.link t = some (.prim p) → s.cont t = some p
  sleeping : ∀ t, s.sleeping t = true → s.link t = none ∧ s.status t = .alive
  unborn : ∀ t, s.next ≤ t → s.status t = .unborn
  main : s.status 0 = .alive
  assertions : s.fault = false

/-- A drain is part of a batch.  While a batch counts its transfers, `main` says that the main
tealet waits in the runnable queue for the end of the batch. -/
def Batch (s : State ρ) (main : Prop) : Prop :=
  (s.drain ≠ none → s.runner = some 0) ∧
    ∀ n, s.targetCount = some n → s.drain = none ∧ s.runner = some 0 ∧ main

theorem Batch.mono {s s' : State ρ} {P P' : Prop} (h : Batch s P) (hd : s'.drain = s.drain)
    (hr : s'.runner = s.runner) (hc : s'.targetCount = s.targetCount) (hP : P → P') :
    Batch s' P' := by
  unfold Batch
  rw [hd, hr, hc]
  refine ⟨h.1, ?_⟩
  intro n hn
  rcases h.2 n hn with ⟨hdrain, hrunner, hp⟩
  exact ⟨hdrain, hrunner, hP hp⟩

/-- The running task is nowhere else. -/
structure Inv (q : RunnableQueue ρ) (s : State ρ) : Prop where
  ok : Consistent q s
  free : s.link s.current = none
  awake : s.sleeping s.current = false
  idle : s.cont s.current = none
  alive : s.status s.current = .alive
  batch : Batch s (s.current = 0 ∨ s.link 0 = some .runnable)

theorem Consistent.mem_runnable (h : Consistent q s) (t : Nat) :
    s.link t = some .runnable ↔ t ∈ q.tasks s.runnable :=
  h.placed.mem_iff t .runnable

theorem Consistent.link_of_waiter (h : Consistent q s) {p : Prim}
    (ht : t ∈ s.waiters p) : s.link t = some (.prim p) :=
  (h.placed.mem_iff t (.prim p)).2 (mem_append_left _ ht)

theorem Consistent.link_of_named (h : Consistent q s) {p : Prim}
    (ht : t ∈ named s.ready p) : s.link t = some (.prim p) :=
  (h.placed.mem_iff t (.prim p)).2 (mem_append_right _ ht)

theorem Consistent.not_waiter (h : Consistent q s) (ht : s.link t = none)
    (p : Prim) : t ∉ s.waiters p := by
  intro hmem
  have hlink := h.link_of_waiter hmem
  simp [ht] at hlink

theorem Consistent.link_finished (h : Consistent q s)
    (ht : s.status t = .finished) : s.link t = none := by
  by_contra hne
  rcases h.linked t hne with hs | hs <;> simp [ht] at hs

theorem Consistent.link_unborn (h : Consistent q s)
    (ht : s.status t = .unborn) : s.link t = none := by
  by_contra hne
  rcases h.linked t hne with hs | hs <;> simp [ht] at hs

theorem Inv.linkInvariant (h : Inv q s) : LinkInvariant q s := by
  have hout : ∀ t, s.link t = none → t ∉ q.tasks s.runnable ∧ ∀ p, t ∉ s.waiters p := by
    intro t ht
    exact ⟨h.ok.placed.not_mem ht .runnable, h.ok.not_waiter ht⟩
  refine ⟨h.ok.mem_runnable, ?_, ?_, hout _ h.free, ?_, h.ok.assertions⟩
  · intro p
    exact ⟨(h.ok.placed.nodup (.prim p)).of_append_left, fun t => h.ok.link_of_waiter⟩
  · intro p p' t hp hp'
    have hl : Link.prim p = Link.prim p' :=
      h.ok.placed.unique (mem_append_left _ hp) (mem_append_left _ hp')
    simpa using hl
  · intro t ht
    exact hout t (h.ok.link_finished ht)

theorem Inv.init : Inv q (init q) := by
  have hplaced : Placed (Links.init q).link (place q (Links.init q)) := by
    refine ⟨?_, ?_⟩
    · intro l
      cases l <;> simp [Links.init, place, named, q.tasks_empty]
    · intro t l
      cases l <;> simp [Links.init, place, named, q.tasks_empty]
  refine ⟨⟨hplaced, ?_, ?_, ?_, ?_, rfl, rfl⟩, rfl, rfl, rfl, rfl, ?_⟩
  · simp [Links.init]
  · simp [Links.init]
  · simp [Links.init]
  · intro t ht
    have h0 : t ≠ 0 := by
      intro h0
      simp [Links.init, h0] at ht
    simp [Links.init, h0]
  · simp [Batch, Links.init]

/-! ## What an operation leaves alone -/

/-- What the operations on links do not touch: they move tasks between the queues. -/
structure Outside where
  status : Nat → TaskState
  cont : Nat → Option Prim
  sleeping : Nat → Bool
  next : Nat
  current : Nat
  drain : Option Nat
  runner : Option Nat
  targetCount : Option Nat

def State.outside (s : State ρ) : Outside :=
  ⟨s.status, s.cont, s.sleeping, s.next, s.current, s.drain, s.runner, s.targetCount⟩

def Frame (s s' : State ρ) : Prop :=
  s'.outside = s.outside

namespace Frame

variable {s s₁ s₂ s₃ : State ρ}

theorem trans (h : Frame s₁ s₂) (h' : Frame s₂ s₃) : Frame s₁ s₃ :=
  Eq.trans h' h

theorem status (h : Frame s s₁) : s₁.status = s.status :=
  congrArg Outside.status h

theorem cont (h : Frame s s₁) : s₁.cont = s.cont :=
  congrArg Outside.cont h

theorem sleeping (h : Frame s s₁) : s₁.sleeping = s.sleeping :=
  congrArg Outside.sleeping h

theorem next (h : Frame s s₁) : s₁.next = s.next :=
  congrArg Outside.next h

theorem current (h : Frame s s₁) : s₁.current = s.current :=
  congrArg Outside.current h

theorem drain (h : Frame s s₁) : s₁.drain = s.drain :=
  congrArg Outside.drain h

theorem runner (h : Frame s s₁) : s₁.runner = s.runner :=
  congrArg Outside.runner h

theorem targetCount (h : Frame s s₁) : s₁.targetCount = s.targetCount :=
  congrArg Outside.targetCount h

end Frame

theorem enqueue_frame (s : State ρ) (t : Nat) (position : Option Int) :
    Frame s (enqueue q s t position) := by
  unfold enqueue
  split <;> exact rfl

theorem wake_frame (ts : List Nat) (s : State ρ) : Frame s (wake q s ts) := by
  induction ts generalizing s with
  | nil => exact rfl
  | cons t ts ih => exact (enqueue_frame s t none).trans (ih _)

theorem primUnlink_frame (s : State ρ) (p : Prim) (t : Nat) : Frame s (primUnlink s p t) := by
  unfold primUnlink
  split
  · exact rfl
  · split <;> exact rfl

theorem unlink_frame (s : State ρ) (t : Nat) : Frame s (unlink q s t) := by
  unfold unlink
  split
  · exact rfl
  · exact rfl
  · exact primUnlink_frame s _ t

theorem Inv.of_frame {s s' : State ρ} (h : Inv q s) (hF : Frame s s') (hok : Consistent q s')
    (hfree : s'.link s.current = none)
    (hmain : s.link 0 = some .runnable → s'.link 0 = some .runnable) : Inv q s' := by
  refine ⟨hok, ?_, ?_, ?_, ?_, ?_⟩
  · rw [hF.current]
    exact hfree
  · rw [hF.sleeping, hF.current]
    exact h.awake
  · rw [hF.cont, hF.current]
    exact h.idle
  · rw [hF.status, hF.current]
    exact h.alive
  · rw [hF.current]
    exact h.batch.mono hF.drain hF.runner hF.targetCount (Or.imp_right hmain)

/-! ## Moving one task

The three rules of `Placed`, for whole states. -/

section Moves

variable {s s' : State ρ}

theorem Consistent.congr (h : Consistent q s) (hF : Frame s s') (hf : s'.fault = s.fault)
    (hl : s'.link = s.link) (hp : ∀ l, (place q s' l).Perm (place q s l)) : Consistent q s' := by
  refine ⟨?_, ?_, ?_, ?_, ?_, ?_, ?_⟩
  · rw [hl]
    exact h.placed.perm hp
  · rw [hl, hF.status]
    exact h.linked
  · rw [hl, hF.cont]
    exact h.cont
  · rw [hF.sleeping, hl, hF.status]
    exact h.sleeping
  · rw [hF.next, hF.status]
    exact h.unborn
  · rw [hF.status]
    exact h.main
  · rw [hf]
    exact h.assertions

theorem Consistent.remove (h : Consistent q s) (t : Nat) (hF : Frame s s')
    (hf : s'.fault = s.fault) (hl : s'.link = update s.link t none)
    (hp : ∀ l, (place q s' l).Perm ((place q s l).erase t)) : Consistent q s' := by
  have hlink : ∀ u l, s'.link u = some l → s.link u = some l := by
    intro u l hu
    by_cases hut : u = t
    · simp [hl, hut] at hu
    · simpa [hl, hut] using hu
  refine ⟨?_, ?_, ?_, ?_, ?_, ?_, ?_⟩
  · rw [hl]
    exact h.placed.remove t hp
  · intro u hu
    rcases Option.ne_none_iff_exists'.1 hu with ⟨l, hul⟩
    rw [hF.status]
    exact h.linked u (by simp [hlink u l hul])
  · intro u p hu
    rw [hF.cont]
    exact h.cont u p (hlink u _ hu)
  · intro u hu
    rw [hF.sleeping] at hu
    rcases h.sleeping u hu with ⟨hnone, halive⟩
    rw [hF.status]
    refine ⟨?_, halive⟩
    by_cases hut : u = t
    · simp [hl, hut]
    · simpa [hl, hut] using hnone
  · rw [hF.next, hF.status]
    exact h.unborn
  · rw [hF.status]
    exact h.main
  · rw [hf]
    exact h.assertions

theorem Consistent.move (h : Consistent q s) (t : Nat) (l : Link) (hF : Frame s s')
    (hf : s'.fault = s.fault) (hl : s'.link = update s.link t (some l))
    (hp : (place q s' l).Perm (t :: (place q s l).erase t))
    (ho : ∀ l', l' ≠ l → (place q s' l').Perm ((place q s l').erase t))
    (hstatus : s.status t = .primed ∨ s.status t = .alive) (hawake : s.sleeping t = false)
    (hcont : ∀ p, l = .prim p → s.cont t = some p) : Consistent q s' := by
  refine ⟨?_, ?_, ?_, ?_, ?_, ?_, ?_⟩
  · rw [hl]
    exact h.placed.move t l hp ho
  · intro u hu
    rw [hF.status]
    by_cases hut : u = t
    · rw [hut]
      exact hstatus
    · apply h.linked u
      simpa [hl, hut] using hu
  · intro u p hu
    rw [hF.cont]
    by_cases hut : u = t
    · subst hut
      apply hcont p
      simpa [hl] using hu
    · apply h.cont u p
      simpa [hl, hut] using hu
  · intro u hu
    rw [hF.sleeping] at hu
    have hut : u ≠ t := by
      intro hut
      simp [hut, hawake] at hu
    rw [hF.status]
    simpa [hl, hut] using h.sleeping u hu
  · rw [hF.next, hF.status]
    exact h.unborn
  · rw [hF.status]
    exact h.main
  · rw [hf]
    exact h.assertions

end Moves

/-! ## Queue operations -/

section Operations

variable {s : State ρ}

theorem enqueue_ok (h : Consistent q s) (position : Option Int) (hlink : s.link t = none)
    (hstatus : s.status t = .primed ∨ s.status t = .alive) (hawake : s.sleeping t = false) :
    Consistent q (enqueue q s t position) ∧
      (enqueue q s t position).link = update s.link t (some .runnable) := by
  have hnot : t ∉ q.tasks s.runnable := h.placed.not_mem hlink .runnable
  have hF := enqueue_frame (q := q) s t position
  have heq : enqueue q s t position =
      { s.setLink t (some .runnable) with runnable := q.add s.runnable t position } :=
    if_neg hnot
  rw [heq] at hF ⊢
  refine ⟨?_, rfl⟩
  refine h.move t .runnable hF rfl rfl ?_ ?_ hstatus hawake ?_
  · have hp := q.add_perm s.runnable t position hnot
    rw [h.placed.erase_of_ne (by simp [hlink])]
    exact hp
  · intro l hl
    rw [h.placed.erase_of_ne (by simp [hlink])]
    cases l with
    | runnable => exact absurd rfl hl
    | prim p => exact List.Perm.refl _
  · intro p hp
    cases hp

theorem parkCurrent_eq (s : State ρ) (resumeNext : Bool) :
    ∃ position, parkCurrent q s resumeNext = enqueue q s s.current position := by
  unfold parkCurrent
  split
  · exact ⟨some 0, rfl⟩
  · exact ⟨none, rfl⟩

theorem unlink_ok (h : Consistent q s) (hnamed : ∀ p, t ∉ named s.ready p) :
    Consistent q (unlink q s t) ∧ (unlink q s t).link = update s.link t none := by
  have hF := unlink_frame (q := q) s t
  cases hlink : s.link t with
  | none =>
    have heq : unlink q s t = s := by simp [unlink, hlink]
    rw [heq]
    exact ⟨h, by rw [← hlink, update_eq_self]⟩
  | some l =>
    cases l with
    | runnable =>
      have heq : unlink q s t = { s.setLink t none with runnable := q.discard s.runnable t } := by
        simp [unlink, hlink]
      rw [heq] at hF ⊢
      refine ⟨?_, rfl⟩
      refine h.remove t hF rfl rfl ?_
      intro l
      cases l with
      | runnable => exact q.discard_perm s.runnable t
      | prim p =>
        rw [h.placed.erase_of_ne (by simp [hlink])]
        exact List.Perm.refl _
    | prim p =>
      -- it is in the list itself, since no queued wake names it
      have hmem : t ∈ s.waiters p := by
        have hplace := (h.placed.mem_iff t (.prim p)).1 hlink
        exact (mem_append.1 hplace).resolve_right (hnamed p)
      have heq : unlink q s t = (s.setWaiters p ((s.waiters p).erase t)).setLink t none := by
        cases p <;> simp [unlink, primUnlink, hlink, hmem]
      rw [heq] at hF ⊢
      refine ⟨?_, rfl⟩
      refine h.remove t hF rfl rfl ?_
      intro l
      by_cases hl : l = .prim p
      · subst hl
        rw [place_setLink, place_setWaiters_self]
        simp [place, erase_append_left _ hmem]
      · rw [place_setLink, place_setWaiters_of_ne hl,
          h.placed.erase_of_ne (by simp [hlink, Ne.symm hl])]

theorem primUnlink_of_link_none (h : Consistent q s) (ht : s.link t = none) (p : Prim) :
    primUnlink s p t = s := by
  have hnot := h.not_waiter ht p
  have hlink : update s.link t none = s.link := by
    rw [← ht, update_eq_self]
  cases p <;>
    simp [primUnlink, hnot, State.setLink, State.setWaiters, erase_of_not_mem hnot, hlink]

theorem wake_ok (p : Prim) (ts : List Nat) (h : Consistent q { s with ready := (p, ts) :: s.ready }) :
    Consistent q (wake q s ts) ∧
      ∀ u, (wake q s ts).link u = if u ∈ ts then some .runnable else s.link u := by
  induction ts generalizing s with
  | nil =>
    refine ⟨?_, by simp [wake]⟩
    refine h.congr rfl rfl rfl ?_
    intro l
    cases l with
    | runnable => exact List.Perm.refl _
    | prim p' =>
      by_cases hp : p = p' <;> simp [place, wake, named, hp]
  -- one turn of the loop: `t` goes from the wake to the runnable queue
  | cons t ts ih =>
    have hlink : s.link t = some (.prim p) := h.link_of_named (p := p) (by simp [named])
    -- so the assertion of `_make_runnable` holds
    have hnot : t ∉ q.tasks s.runnable := by
      intro hmem
      have hrun : s.link t = some .runnable := (h.mem_runnable t).2 hmem
      simp [hlink] at hrun
    have heq : makeRunnable q s t =
        { s.setLink t (some .runnable) with runnable := q.add s.runnable t none } :=
      if_neg hnot
    have hnext : Consistent q
        { makeRunnable q s t with ready := (p, ts) :: (makeRunnable q s t).ready } := by
      rw [heq]
      refine h.move t .runnable rfl rfl rfl ?_ ?_ ?_ ?_ ?_
      · rw [h.placed.erase_of_ne (by simp [hlink])]
        exact q.add_perm s.runnable t none hnot
      -- the place that it leaves, and all the others
      · intro l hl
        by_cases hlp : l = .prim p
        · subst hlp
          have hmid : (s.waiters p ++ t :: (ts ++ named s.ready p)).Perm
              (t :: (s.waiters p ++ (ts ++ named s.ready p))) := perm_middle
          have herase := hmid.erase t
          rw [erase_cons_head] at herase
          simpa [place, named, State.setLink] using herase.symm
        · rw [h.placed.erase_of_ne (by simp [hlink, Ne.symm hlp])]
          cases l with
          | runnable => exact absurd rfl hl
          | prim p' =>
            have hp' : p ≠ p' := fun hp' => hlp (by rw [hp'])
            apply List.Perm.of_eq
            simp [place, named, State.setLink, hp']
      · exact h.linked t (by simp [hlink])
      · by_contra hsleep
        have hnone := (h.sleeping t (by simpa using hsleep)).1
        simp [hlink] at hnone
      · intro p' hp'
        cases hp'
    rcases ih hnext with ⟨hok, hlinks⟩
    refine ⟨hok, ?_⟩
    intro u
    have hu := hlinks u
    rw [heq] at hu
    change (wake q (makeRunnable q s t) ts).link u = _
    rw [heq, hu]
    by_cases hts : u ∈ ts
    · simp [hts]
    · by_cases hut : u = t
      · simp [hut, State.setLink]
      · simp [hts, hut, State.setLink]

theorem wake_link_of_ne {p : Prim} {ts : List Nat} {u : Nat}
    (h : Consistent q { s with ready := (p, ts) :: s.ready }) (hu : s.link u ≠ some (.prim p)) :
    (wake q s ts).link u = s.link u := by
  have hnot : u ∉ ts := by
    intro hmem
    exact hu (h.link_of_named (p := p) (by simp [named, hmem]))
  rw [(wake_ok p ts h).2 u, if_neg hnot]

end Operations

/-! ## Transfers -/

section Transfers

variable {s : State ρ}

theorem switchTo_eq (hstatus : s.status t = .primed ∨ s.status t = .alive) : switchTo s t =
      { s with
        current := t
        cont := update s.cont t none
        sleeping := update s.sleeping t false
        status := update s.status t .alive } := by
  rcases hstatus with hs | hs <;> simp [switchTo, hs]

theorem switchTo_inv (h : Consistent q s) (hlink : s.link t = none)
    (hstatus : s.status t = .primed ∨ s.status t = .alive)
    (hbatch : Batch s (t = 0 ∨ s.link 0 = some .runnable)) : Inv q (switchTo s t) := by
  rw [switchTo_eq hstatus]
  refine ⟨⟨h.placed, ?_, ?_, ?_, ?_, ?_, h.assertions⟩, hlink, ?_, ?_, ?_, hbatch⟩
  · intro u hu
    by_cases hut : u = t
    · simp [hut]
    · simpa [hut] using h.linked u hu
  · intro u p hu
    have hut : u ≠ t := by
      intro hut
      simp [hut, hlink] at hu
    simpa [hut] using h.cont u p hu
  · intro u hu
    by_cases hut : u = t
    · simp [hut] at hu
    · simp only [update_of_ne hut] at hu ⊢
      exact h.sleeping u hu
  · intro u hu
    have hunborn := h.unborn u hu
    have hut : u ≠ t := by
      intro hut
      simp [← hut, hunborn] at hstatus
    simpa [hut] using hunborn
  · by_cases h0 : 0 = t
    · simp [h0]
    · simpa [h0] using h.main
  · simp
  · simp
  · simp

theorem throwInto_eq_switchTo (hstatus : s.status t = .primed ∨ s.status t = .alive)
    (h : Inv q (switchTo s t)) : throwInto s t = switchTo s t := by
  have hthrow : throwInto s t = unwind (switchTo s t) t (s.cont t) := by
    rcases hstatus with hs | hs <;> simp [throwInto, hs]
  rw [hthrow]
  cases s.cont t with
  | none => rfl
  | some p =>
    have hcur : (switchTo s t).current = t := by rw [switchTo_eq hstatus]
    apply primUnlink_of_link_none h.ok
    have hfree := h.free
    rwa [hcur] at hfree

theorem findTarget_ok (h : Consistent q s) (hbatch : Batch s (s.link 0 = some .runnable))
    {taskExit explicit : Bool} {s' : State ρ}
    (hmain : taskExit = true → q.tasks s.runnable = [] → s.link 0 = none)
    (hfind : findTarget q s taskExit explicit = some (t, s')) :
    Consistent q s' ∧ Frame s s' ∧ s'.link = update s.link t none ∧
      (s.status t = .primed ∨ s.status t = .alive) := by
  unfold findTarget at hfind
  by_cases hsteal : StealToRunner s explicit
  · -- the batch is over: main comes out of the runnable queue
    rcases id hsteal with ⟨-, -, n, hn, -⟩
    rcases hbatch.2 n hn with ⟨-, hrunner, hlink⟩
    have hnamed : ∀ p, 0 ∉ named s.ready p := by
      intro p hmem
      have hlink' := h.link_of_named hmem
      simp [hlink] at hlink'
    rcases unlink_ok h hnamed with ⟨hok, hl⟩
    have hl' : ((unlink q s 0).setLink 0 none).link = (unlink q s 0).link := by
      simp [State.setLink, hl]
    simp only [hsteal, if_true, hrunner, Option.getD_some, Option.some.injEq, Prod.mk.injEq] at hfind
    rcases hfind with ⟨rfl, rfl⟩
    refine ⟨?_, (unlink_frame s 0).trans rfl, hl'.trans hl,
      Or.inr h.main⟩
    exact hok.congr rfl rfl hl' fun l => by
      cases l <;> exact List.Perm.refl _
  · simp only [hsteal, if_false] at hfind
    cases hpop : q.popNext s.runnable with
    | some r =>
      rcases r with ⟨result, rest⟩
      simp only [hpop, Option.some.injEq, Prod.mk.injEq] at hfind
      rcases hfind with ⟨rfl, rfl⟩
      have hperm := q.popNext_perm _ _ _ hpop
      have hlink : s.link result = some .runnable :=
        (h.mem_runnable result).2 (hperm.mem_iff.1 (by simp))
      refine ⟨?_, rfl, rfl, h.linked result (by simp [hlink])⟩
      refine h.remove result rfl rfl rfl ?_
      intro l
      cases l with
      | runnable =>
        have herase := hperm.erase result
        rwa [erase_cons_head] at herase
      | prim p =>
        rw [h.placed.erase_of_ne (by simp [hlink])]
        exact List.Perm.refl _
    | none =>
      cases taskExit with
      | false => simp [hpop] at hfind
      | true =>
        -- the last exit: main is taken wherever it is, which is right only if that is nowhere
        simp only [hpop, if_true, Option.some.injEq, Prod.mk.injEq] at hfind
        rcases hfind with ⟨rfl, rfl⟩
        have hlink := hmain rfl (q.popNext_none _ hpop)
        refine ⟨?_, rfl, rfl, Or.inr h.main⟩
        refine h.congr rfl rfl ?_ ?_
        · change update s.link 0 none = s.link
          rw [← hlink, update_eq_self]
        · intro l
          cases l <;> exact List.Perm.refl _

theorem findTarget_switch_inv (h : Consistent q s) (hbatch : Batch s (s.link 0 = some .runnable))
    {taskExit explicit : Bool} {s' : State ρ}
    (hmain : taskExit = true → q.tasks s.runnable = [] → s.link 0 = none)
    (hfind : findTarget q s taskExit explicit = some (t, s')) : Inv q (switchTo s' t) := by
  rcases findTarget_ok h hbatch hmain hfind with ⟨hok, hF, hl, hstatus⟩
  apply switchTo_inv hok
  · simp [hl]
  · rwa [hF.status]
  · refine hbatch.mono hF.drain hF.runner hF.targetCount ?_
    intro hlink
    by_cases h0 : t = 0
    · exact Or.inl h0
    · right
      simpa [hl, Ne.symm h0] using hlink

theorem findTarget_none {explicit : Bool} (hfind : findTarget q s false explicit = none) :
    q.tasks s.runnable = [] := by
  unfold findTarget at hfind
  split at hfind
  · simp at hfind
  · cases hpop : q.popNext s.runnable with
    | some r => simp [hpop] at hfind
    | none => exact q.popNext_none _ hpop

theorem unwind_ok (h : Consistent q s) (hempty : q.tasks s.runnable = [])
    (hcont : ∀ p, s.cont s.current = some p → s.current ∈ s.waiters p) :
    Consistent q (unwind s s.current (s.cont s.current)) ∧
      Frame s (unwind s s.current (s.cont s.current)) ∧
      (unwind s s.current (s.cont s.current)).link s.current = none := by
  cases hc : s.cont s.current with
  -- a `yield_` or a sleep: the caller is in no waiter list
  | none =>
    refine ⟨h, rfl, ?_⟩
    change s.link s.current = none
    by_contra hne
    rcases Option.ne_none_iff_exists'.1 hne with ⟨l, hl⟩
    cases l with
    | runnable =>
      have hmem := (h.mem_runnable s.current).1 hl
      simp [hempty] at hmem
    | prim p =>
      have hc' := h.cont s.current p hl
      simp [hc] at hc'
  | some p =>
    have hmem := hcont p hc
    have hlink := h.link_of_waiter hmem
    -- it is in the waiter list, and no task is in two places
    have hnamed : ∀ p', s.current ∉ named s.ready p' := by
      intro p' hmem'
      have hlink' := h.link_of_named hmem'
      rw [hlink] at hlink'
      cases hlink'
      exact disjoint_of_nodup_append (h.placed.nodup (.prim p)) hmem hmem'
    have heq : unlink q s s.current = primUnlink s p s.current := by simp [unlink, hlink]
    rcases unlink_ok h hnamed with ⟨hok, hl⟩
    rw [heq] at hok hl
    refine ⟨hok, primUnlink_frame s p s.current, ?_⟩
    change (primUnlink s p s.current).link s.current = none
    simp [hl]

theorem leave_inv {s₁ : State ρ} (h : Consistent q s₁) (ht : s₁.current = t)
    (hlink : s₁.link t = none) (halive : s₁.status t = .alive) (hbatch : Batch s₁ False) :
    Inv q { s₁ with
      cont := update s₁.cont t none
      sleeping := update s₁.sleeping t false } := by
  subst ht
  -- as if the caller had been switched to
  have hsame := switchTo_inv h hlink (Or.inr halive) (hbatch.mono rfl rfl rfl False.elim)
  rw [switchTo_eq (Or.inr halive)] at hsame
  have hstatus : update s₁.status s₁.current .alive = s₁.status := by
    rw [← halive, update_eq_self]
  rwa [hstatus] at hsame

/-- The end of `_schedule`, for a caller that is in the runnable queue, in the list of the primitive
that it waits for, or asleep. -/
theorem transfer_inv (h : Consistent q s) (hbatch : Batch s (s.link 0 = some .runnable))
    (halive : s.status s.current = .alive)
    (hcont : ∀ p, s.cont s.current = some p → s.current ∈ s.waiters p) (explicit : Bool) :
    Inv q (transfer q s explicit) := by
  unfold transfer
  cases hfind : findTarget q s false explicit with
  | some r => exact findTarget_switch_inv h hbatch (by simp) hfind
  | none =>
    -- a `DeadlockError`: nothing is runnable, and the caller leaves its wait
    have hempty := findTarget_none hfind
    rcases unwind_ok h hempty hcont with ⟨hok, hF, hlink⟩
    have hbatch' : Batch (unwind s s.current (s.cont s.current)) False := by
      refine hbatch.mono hF.drain hF.runner hF.targetCount ?_
      intro hmain
      have hmem := (h.mem_runnable 0).1 hmain
      simp [hempty] at hmem
    have hinv := leave_inv hok hF.current hlink (by rw [hF.status, halive]) hbatch'
    rwa [hF.cont, hF.sleeping] at hinv

end Transfers

end Pytealet.Scheduler.Links
