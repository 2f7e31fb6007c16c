import Pytealet.Uring.Serve

/-!
# HandOff — the staged queue and the waiter role

Every CQE that was taken is in one place: on the staged queue, in the hands of a call, or processed
by one.  There is one waiter at most, nobody sleeps beside a staged CQE, and the last call to leave
leaves no CQE on the queue, unless several calls read the worker count on their way out before any
of them is counted off.
-/

namespace Pytealet.Uring.Serve

open Lib Lib.Transition Tally List Bool

/-! ## What a phase stands for -/

namespace Phase

/-- The call has the waiter role. -/
def waits : Phase → Nat
  | .waiter _ => 1
  | .work (.inline _) _ => 1
  | .release _ => 1
  | _ => 0

/-- The call is in the worker count. -/
def counted : Phase → Nat
  | .left _ => 0
  | _ => 1

/-- The CQEs in variables of the call. -/
def holding : Phase → List Nat
  | .work (.leftover rest _) (.package c) => c :: rest
  | .work (.leftover rest _) _ => rest
  | .work _ (.package c) => [c]
  | .waiter (.push _ c) => [c]
  | _ => []

/-- The call has yet to read the worker count, or will take the queue. -/
def inside : Phase → Bool
  | .work (.leftover _ _) _ => false
  | .leave _ => false
  | .left _ => false
  | _ => true

def hasLeft : Phase → Bool
  | .left _ => true
  | _ => false

end Phase

/-- How often a CQE was processed. -/
def Shared.processedCount (s : Shared) (k : Nat) : Nat :=
  (s.processed.map Prod.snd).count k

/-- In how many places a CQE is. -/
def Service.places (s : Service) (k : Nat) : Nat :=
  s.shared.queue.count k + tally (fun p => p.holding.count k) s.calls + s.shared.processedCount k

/-! ## One step of a call -/

/-- The push finds room, or memory for it. -/
def hasRoom (s : Shared) (e : Env) : Phase → Bool
  | .waiter (.push _ _) => s.queue.length < s.cap || e.ok
  | _ => true

/-- Only the submission queue differs. -/
def Published (s s' : Shared) : Prop :=
  ∃ sq waitable, s' = { s with sq := sq, sqWaitable := waitable }

theorem Published.refl (s : Shared) : Published s s :=
  ⟨s.sq, s.sqWaitable, rfl⟩

theorem flushPending_published (s : Shared) (submit : Option Nat) :
    Published s (s.flushPending submit).1 := by
  unfold Shared.flushPending
  split
  · exact ⟨s.sq, false, rfl⟩
  · split
    · exact .refl s
    · exact ⟨_, _, rfl⟩

theorem makeRoom_published (s : Shared) (full : Bool) (submit : Option Nat) :
    Published s (s.makeRoom full submit).1 := by
  unfold Shared.makeRoom
  split
  · exact flushPending_published s submit
  · exact .refl s

theorem fifoEnsure_eq_some {s s' : Shared} {memory : Bool} (h : s.fifoEnsure memory = some s') :
    ∃ cap, s' = { s with cap := cap } := by
  unfold Shared.fifoEnsure at h
  split at h
  · cases h
    exact ⟨s.cap, rfl⟩
  · split at h
    · cases h
      exact ⟨_, rfl⟩
    · cases h

def Stage.isPackage : Stage → Bool
  | .package _ => true
  | _ => false

/-- What follows the stages of a handler other than the first. -/
inductive Next (ctx : Ctx) : Phase → Prop where
  | work (stage : Stage) : stage.isPackage = false → Next ctx (.work ctx stage)
  | done (failed unpublished : Bool) : Next ctx (ctx.done failed unpublished)
  | failed (h : Harvest) : ctx = .inline h → Next ctx (.release true)

theorem handle_cases (s : Shared) (i : Nat) (ctx : Ctx) (e : Env) (stage : Stage) :
    (∃ c, stage = .package c ∧ handle s i ctx e stage =
      { phase := .work ctx (.callback false false)
        shared := { s with processed := s.processed ++ [(i, c)] } }) ∨
    stage.isPackage = false ∧ Published s (handle s i ctx e stage).shared ∧
      (handle s i ctx e stage).broadcast = false ∧ Next ctx (handle s i ctx e stage).phase := by
  cases stage with
  | package c => exact .inl ⟨c, rfl, rfl⟩
  | callback moved house =>
    refine .inr ⟨rfl, ?_⟩
    simp only [handle]
    split
    · have hroom := makeRoom_published s e.full e.submit
      split
      · rename_i s' heq
        rw [heq] at hroom
        rcases hroom with ⟨sq, flag, rfl⟩
        exact ⟨⟨_, _, rfl⟩, rfl, .work _ rfl⟩
      · rename_i s' heq
        rw [heq] at hroom
        exact ⟨hroom, rfl, .work _ rfl⟩
    · split
      · exact ⟨.refl s, rfl, .failed _ rfl⟩
      · exact ⟨.refl s, rfl, .work _ rfl⟩
  | publish moved house failed =>
    refine .inr ⟨rfl, ?_⟩
    simp only [handle]
    split
    · exact ⟨.refl s, rfl, .done failed false⟩
    · split
      · split
        · exact ⟨.refl s, rfl, .done failed false⟩
        · split <;> exact ⟨.refl s, rfl, .work _ rfl⟩
      · split
        · exact ⟨.refl s, rfl, .work _ rfl⟩
        · exact ⟨.refl s, rfl, .done failed false⟩
  | ask q again failed =>
    refine .inr ⟨rfl, ?_⟩
    cases q with
    | hasBlocked => exact ⟨.refl s, rfl, .work _ rfl⟩
    | isWaiting =>
      simp only [handle]
      split
      · exact ⟨.refl s, rfl, .done failed false⟩
      · exact ⟨.refl s, rfl, .work _ rfl⟩
    | waiterActive =>
      simp only [handle]
      split
      · exact ⟨.refl s, rfl, .done failed false⟩
      · split <;> exact ⟨.refl s, rfl, .work _ rfl⟩
  | flush failed => exact .inr ⟨rfl, flushPending_published s e.submit, rfl, .done failed _⟩

variable {p : Phase} {i : Nat}

theorem Next.same {ctx : Ctx} (h : Next ctx p) (stage : Stage) :
    p.waits = (Phase.work ctx stage).waits ∧ p.counted = 1 ∧ p.inside = (Phase.work ctx stage).inside ∧
      p ≠ .asleep := by
  cases h with
  | work stage' _ => cases ctx <;> exact ⟨rfl, rfl, rfl, by simp⟩
  | done failed unpublished =>
    cases ctx with
    | take =>
      simp only [Ctx.done]
      split <;> exact ⟨rfl, rfl, rfl, by simp⟩
    | inline h =>
      simp only [Ctx.done]
      split <;> exact ⟨rfl, rfl, rfl, by simp⟩
    | leftover rest already =>
      simp only [Ctx.done]
      cases rest <;> exact ⟨rfl, rfl, rfl, by simp [nextLeftover]⟩
  | failed h heq =>
    subst heq
    exact ⟨rfl, rfl, rfl, by simp⟩

theorem Next.holding {ctx : Ctx} (h : Next ctx p) {stage : Stage} (hstage : stage.isPackage = false) :
    p.holding = (Phase.work ctx stage).holding := by
  have hwork : ∀ stage' : Stage, stage'.isPackage = false →
      (Phase.work ctx stage').holding = (Phase.work ctx stage).holding := by
    intro stage' hstage'
    cases ctx <;> cases stage <;> cases stage' <;> simp_all [Stage.isPackage, Phase.holding]
  cases h with
  | work stage' hstage' => exact hwork stage' hstage'
  | done failed unpublished =>
    rw [← hwork (.flush true) rfl]
    cases ctx with
    | take =>
      simp only [Ctx.done]
      split <;> rfl
    | inline h =>
      simp only [Ctx.done]
      split <;> rfl
    | leftover rest already =>
      simp only [Ctx.done]
      cases rest <;> rfl
  | failed h heq =>
    subst heq
    exact hwork (.flush true) rfl

/-- What a step of a call in phase `p` does to the books. -/
structure Effect (s : Shared) (p : Phase) (t : Turn) : Prop where
  waits : t.shared.waiting.toNat + p.waits = s.waiting.toNat + t.phase.waits
  counted : t.shared.active + p.counted = s.active + t.phase.counted
  delivering : s.delivering = true → 0 < t.shared.active → t.shared.delivering = true
  awake : t.shared.queue ≠ [] → t.phase ≠ .asleep ∧ (s.queue ≠ [] ∨ t.broadcast = true)
  inside : t.shared.queue ≠ [] → p.inside = true → t.phase.inside = true ∨ ∃ failed, p = .check failed
  outside : p.inside = false → t.shared.queue = s.queue

theorem effect_handle (s : Shared) (i : Nat) (ctx : Ctx) (e : Env) (stage : Stage) :
    Effect s (.work ctx stage) (handle s i ctx e stage) := by
  have hcounted : (Phase.work ctx stage).counted = 1 := rfl
  rcases handle_cases s i ctx e stage with ⟨c, rfl, heq⟩ | ⟨-, ⟨sq, flag, hshared⟩, hbroadcast, hnext⟩
  · have hsame := (Next.work (.callback false false) rfl : Next ctx _).same (.package c)
    rw [heq]
    exact ⟨by rw [hsame.1], rfl, fun h _ => h, fun h => ⟨by simp, .inl h⟩,
      fun _ h => .inl (hsame.2.2.1.trans h), fun _ => rfl⟩
  · rcases hnext.same stage with ⟨hwaits, hcount, hinside, hasleep⟩
    refine ⟨?_, ?_, ?_, ?_, ?_, ?_⟩
    · rw [hshared, hwaits]
    · rw [hshared, hcount]
      rfl
    · rw [hshared]
      exact fun h _ => h
    · rw [hshared]
      exact fun h => ⟨hasleep, .inl h⟩
    · exact fun _ h => .inl (hinside.trans h)
    · intro _
      rw [hshared]

/-- The waiter keeps its role, and its pushes wake everybody. -/
structure Harvests (s : Shared) (t : Turn) : Prop where
  waits : t.phase.waits = 1
  counted : t.phase.counted = 1
  inside : t.phase.inside = true
  awake : t.phase ≠ .asleep
  waiting : t.shared.waiting = s.waiting
  active : t.shared.active = s.active
  delivering : t.shared.delivering = s.delivering
  queue : t.shared.queue = s.queue ∨ t.broadcast = true

theorem Harvests.of_same {s s' : Shared} (hp : p.waits = 1) (hi : p.inside = true)
    (hwaiting : s'.waiting = s.waiting) (hactive : s'.active = s.active)
    (hdelivering : s'.delivering = s.delivering) (hqueue : s'.queue = s.queue) :
    Harvests s { phase := p, shared := s' } := by
  refine ⟨hp, ?_, hi, ?_, hwaiting, hactive, hdelivering, .inl hqueue⟩
  · cases p <;> first | rfl | cases hp
  · rintro rfl
    cases hp

theorem harvests (s : Shared) (e : Env) (w : Wait) : Harvests s (harvest s e w) := by
  cases w with
  | top =>
    simp only [harvest]
    split <;> exact .of_same rfl rfl rfl rfl rfl rfl
  | flush =>
    simp only [harvest]
    split
    · rcases flushPending_published s e.submit with ⟨sq, flag, hshared⟩
      split
      · rename_i s' heq
        rw [heq] at hshared
        subst hshared
        exact .of_same rfl rfl rfl rfl rfl rfl
      · rename_i s' heq
        rw [heq] at hshared
        subst hshared
        exact .of_same rfl rfl rfl rfl rfl rfl
    · exact .of_same rfl rfl rfl rfl rfl rfl
  | reap =>
    simp only [harvest]
    split
    · exact .of_same rfl rfl rfl rfl rfl rfl
    · split <;> exact .of_same rfl rfl rfl rfl rfl rfl
  | count first => exact .of_same rfl rfl rfl rfl rfl rfl
  | loop h =>
    simp only [harvest]
    split
    · split
      · rename_i s' heq
        rcases fifoEnsure_eq_some heq with ⟨cap, rfl⟩
        exact .of_same rfl rfl rfl rfl rfl rfl
      · exact .of_same rfl rfl rfl rfl rfl rfl
    · exact .of_same rfl rfl rfl rfl rfl rfl
  | peek h =>
    simp only [harvest]
    split
    · unfold Harvest.done
      split
      · exact .of_same rfl rfl rfl rfl rfl rfl
      · split <;> exact .of_same rfl rfl rfl rfl rfl rfl
    · exact .of_same rfl rfl rfl rfl rfl rfl
    · split <;> exact .of_same rfl rfl rfl rfl rfl rfl
  | push h c =>
    simp only [harvest]
    split
    · rename_i s' heq
      rcases fifoEnsure_eq_some heq with ⟨cap, rfl⟩
      exact ⟨rfl, rfl, rfl, by simp, rfl, rfl, rfl, .inr rfl⟩
    · exact .of_same rfl rfl rfl rfl rfl rfl
  | stopCheck h => exact .of_same rfl rfl rfl rfl rfl rfl

theorem effect_harvest (s : Shared) (e : Env) (w : Wait) : Effect s (.waiter w) (harvest s e w) := by
  have h := harvests s e w
  refine ⟨?_, ?_, ?_, ?_, fun _ _ => .inl h.inside, by simp [Phase.inside]⟩
  · rw [h.waiting, h.waits]
    rfl
  · rw [h.active, h.counted]
    rfl
  · intro hdelivering _
    rw [h.delivering]
    exact hdelivering
  · intro hqueue
    refine ⟨h.awake, ?_⟩
    rcases h.queue with hsame | hbroadcast
    · rw [hsame] at hqueue
      exact .inl hqueue
    · exact .inr hbroadcast

theorem effect_advance {s : Shared} {e : Env} {t : Turn} (h : advance s i e p = some t)
    (hwaits : p.waits = 1 → s.waiting = true) (hcounted : p.counted = 1 → 0 < s.active) : Effect s p t := by
  cases p with
  | claim =>
    simp only [advance] at h
    split at h
    · rename_i c rest hqueue
      cases h
      exact ⟨rfl, rfl, fun h _ => h, fun _ => ⟨by simp, .inl (by simp [hqueue])⟩,
        fun _ _ => .inl rfl, by simp [Phase.inside]⟩
    · rename_i hqueue
      split at h
      · cases h
        exact ⟨rfl, rfl, fun h _ => h, fun h => ⟨by simp, .inl h⟩,
          fun _ _ => .inl rfl, by simp [Phase.inside]⟩
      · split at h
        · cases h
          exact ⟨rfl, rfl, fun h _ => h, fun h => absurd hqueue h,
            fun _ _ => .inl rfl, by simp [Phase.inside]⟩
        · rename_i hwaiting
          cases h
          refine ⟨?_, rfl, fun h _ => h, fun h => ⟨by simp, .inl h⟩,
            fun _ _ => .inl rfl, by simp [Phase.inside]⟩
          simp [Phase.waits, eq_false_iff.2 hwaiting]
  | asleep => cases h
  | work ctx stage =>
    cases h
    exact effect_handle s i ctx e stage
  | waiter w =>
    cases h
    exact effect_harvest s e w
  | release failed =>
    cases h
    have hwaiting : s.waiting = true := hwaits rfl
    cases failed <;>
      exact ⟨by simp [Phase.waits, hwaiting], rfl, fun h _ => h, fun h => ⟨by simp, .inl h⟩, fun _ _ => .inl rfl,
        by simp [Phase.inside]⟩
  | wake failed =>
    cases h
    exact ⟨rfl, rfl, fun h _ => h, fun h => ⟨by simp, .inl h⟩, fun _ _ => .inl rfl, by simp [Phase.inside]⟩
  | check failed =>
    simp only [advance] at h
    split at h <;> cases h <;>
      exact ⟨rfl, rfl, fun h _ => h, fun h => ⟨by simp, .inl h⟩, fun _ _ => .inr ⟨failed, rfl⟩,
        by simp [Phase.inside]⟩
  | takeAll failed =>
    cases h
    cases hq : s.queue <;>
      exact ⟨rfl, rfl, fun h _ => h, fun h => absurd rfl h, fun h => absurd rfl h, by simp [Phase.inside]⟩
  | leave failed =>
    cases h
    have hactive : 0 < s.active := hcounted rfl
    refine ⟨rfl, ?_, ?_, fun h => ⟨by simp, .inl h⟩, by simp [Phase.inside], fun _ => rfl⟩
    · simp only [Phase.counted]
      omega
    · intro hdelivering hpos
      simp only [hdelivering, Bool.true_and, decide_eq_true_eq]
      exact Nat.pos_iff_ne_zero.1 hpos
  | left failed => cases h

theorem counted_of_advance {s : Shared} {e : Env} {t : Turn}
    (h : advance s i e p = some t) : p.counted = 1 := by
  cases p <;> first | rfl | cases h

/-! ## One step of the service -/

/-- What the books read is the same. -/
structure SameBooks (s s' : Shared) : Prop where
  queue : s'.queue = s.queue
  waiting : s'.waiting = s.waiting
  active : s'.active = s.active
  delivering : s'.delivering = s.delivering
  taken : s'.taken = s.taken
  processed : s'.processed = s.processed

theorem Published.sameBooks {s s' : Shared} (h : Published s s') : SameBooks s s' := by
  rcases h with ⟨sq, flag, rfl⟩
  exact ⟨rfl, rfl, rfl, rfl, rfl, rfl⟩

/-- The calls, some of them woken. -/
def Woken (calls calls' : List Phase) : Prop :=
  calls' = calls ∨ calls' = calls.map Phase.woken

inductive Step (s : Service) : Act → Service → Prop where
  | join : Step s .join
      { s with
        calls := s.calls ++ [.claim]
        shared := { s.shared with active := s.shared.active + 1, delivering := true } }
  | go (i : Nat) (e : Env) (p : Phase) (t : Turn) (s' : Service) : s.calls[i]? = some p →
      advance s.shared i e p = some t → s'.shared = t.shared → s'.host = s.host →
      s'.calls = (if t.broadcast then (s.calls.set i t.phase).map Phase.woken else s.calls.set i t.phase) →
      Step s (.go i e) s'
  | spurious (i : Nat) : s.calls[i]? = some .asleep →
    Step s (.spurious i) { s with calls := s.calls.set i .claim }
  | aside (a : Act) (s' : Service) : Woken s.calls s'.calls → SameBooks s.shared s'.shared → Step s a s'

theorem hostStep_aside {s s' : Service} {submit : Option Nat} (h : hostStep s submit = some s') :
    s'.calls = s.calls ∧ SameBooks s.shared s'.shared := by
  unfold hostStep at h
  split at h
  · cases h
    exact ⟨rfl, rfl, rfl, rfl, rfl, rfl, rfl⟩
  · cases h
    exact ⟨rfl, rfl, rfl, rfl, rfl, rfl, rfl⟩
  · have hflush := flushPending_published s.shared submit
    split at h
    · rename_i shared heq
      rw [heq] at hflush
      cases h
      exact ⟨rfl, hflush.sameBooks⟩
    · rename_i shared heq
      rw [heq] at hflush
      cases h
      exact ⟨rfl, hflush.sameBooks⟩
  · cases h
    exact ⟨rfl, rfl, rfl, rfl, rfl, rfl, rfl⟩
  · cases h
    exact ⟨rfl, rfl, rfl, rfl, rfl, rfl, rfl⟩
  · cases h
    exact ⟨rfl, rfl, rfl, rfl, rfl, rfl, rfl⟩
  · cases h
    exact ⟨rfl, rfl, rfl, rfl, rfl, rfl, rfl⟩
  · cases h

theorem step_go {s s' : Service} {e : Env} (h : step s (.go i e) = some s') :
    ∃ p t, s.calls[i]? = some p ∧ advance s.shared i e p = some t ∧
      s'.shared = t.shared ∧ s'.host = s.host ∧
      s'.calls = if t.broadcast then (s.calls.set i t.phase).map Phase.woken else
        s.calls.set i t.phase := by
  simp only [step] at h
  split at h
  · cases h
  · rename_i p hp
    split at h
    · cases h
    · rename_i t ht
      cases hb : t.broadcast with
      | false =>
        simp only [hb, false_eq_true, if_false, Option.some.injEq] at h
        subst h
        exact ⟨p, t, hp, ht, rfl, rfl, by simp [hb]⟩
      | true =>
        simp only [hb, if_true, Option.some.injEq] at h
        subst h
        exact ⟨p, t, hp, ht, rfl, rfl, by simp [hb, Service.broadcast]⟩

theorem step_inv {s s' : Service} {a : Act} (h : step s a = some s') : Step s a s' := by
  cases a with
  | join =>
    cases h
    exact .join
  | go i e =>
    rcases step_go h with ⟨p, t, hp, ht, hshared, hhost, hcalls⟩
    exact .go i e p t _ hp ht hshared hhost hcalls
  | spurious i =>
    simp only [step] at h
    split at h
    · rename_i hi
      cases h
      exact .spurious i hi
    · cases h
  | stop =>
    cases h
    exact .aside _ _ (.inl rfl) ⟨rfl, rfl, rfl, rfl, rfl, rfl⟩
  | stopWake =>
    cases h
    exact .aside _ _ (.inr rfl) ⟨rfl, rfl, rfl, rfl, rfl, rfl⟩
  | reset =>
    simp only [step] at h
    split at h
    · cases h
    · cases h
      exact .aside _ _ (.inl rfl) ⟨rfl, rfl, rfl, rfl, rfl, rfl⟩
  | hostFill waitable =>
    simp only [step] at h
    split at h
    · cases h
      exact .aside _ _ (.inl rfl) ⟨rfl, rfl, rfl, rfl, rfl, rfl⟩
    · cases h
  | host submit =>
    rcases hostStep_aside h with ⟨hcalls, hbooks⟩
    exact .aside _ _ (.inl hcalls) hbooks
  | submit submit =>
    cases h
    exact .aside _ _ (.inl rfl) (flushPending_published s.shared submit).sameBooks

/-! ## The waiter role, the worker count and the sleepers -/

/-- The role and the count fit the calls, and nobody sleeps on a queue that is not empty. -/
structure Sound (s : Service) : Prop where
  waits : tally Phase.waits s.calls = s.shared.waiting.toNat
  counted : tally Phase.counted s.calls = s.shared.active
  delivering : 0 < s.shared.active → s.shared.delivering = true
  awake : s.shared.queue ≠ [] → .asleep ∉ s.calls

@[simp]
theorem Phase.waits_woken (p : Phase) : p.woken.waits = p.waits := by
  cases p <;> rfl

@[simp]
theorem Phase.counted_woken (p : Phase) : p.woken.counted = p.counted := by
  cases p <;> rfl

@[simp]
theorem Phase.holding_woken (p : Phase) : p.woken.holding = p.holding := by
  cases p <;> rfl

@[simp]
theorem Phase.inside_woken (p : Phase) : p.woken.inside = p.inside := by
  cases p <;> rfl

theorem asleep_not_mem_woken (calls : List Phase) : .asleep ∉ calls.map Phase.woken := by
  rw [mem_map]
  rintro ⟨p, -, hp⟩
  cases p <;> cases hp

theorem tally_broadcast {f : Phase → Nat} (hf : ∀ p, f p.woken = f p) (b : Bool) (calls : List Phase) :
    tally f (if b then calls.map Phase.woken else calls) = tally f calls := by
  cases b with
  | false => rfl
  | true => exact tally_map hf calls

theorem Woken.tally_eq {calls calls' : List Phase} (h : Woken calls calls') {f : Phase → Nat}
    (hf : ∀ p, f p.woken = f p) : tally f calls' = tally f calls := by
  rcases h with rfl | rfl
  · rfl
  · exact tally_map hf calls

namespace Sound

variable {s s' : Service}

theorem init (autoSubmit sqpoll : Bool) :
    Sound { shared := { autoSubmit := autoSubmit, sqpoll := sqpoll } } :=
  ⟨rfl, rfl, by simp, by simp⟩

theorem effect (h : Sound s) {e : Env} {t : Turn} (hp : s.calls[i]? = some p)
    (ht : advance s.shared i e p = some t) : Effect s.shared p t := by
  refine effect_advance ht ?_ ?_
  · intro hwaits
    have hle := le_tally (f := Phase.waits) hp
    rw [h.waits, hwaits] at hle
    cases hb : s.shared.waiting with
    | true => rfl
    | false =>
      rw [hb] at hle
      cases hle
  · intro hcounted
    have hle := le_tally (f := Phase.counted) hp
    rw [h.counted, hcounted] at hle
    exact hle

theorem step {a : Act} (h : Sound s) (hs : step s a = some s') : Sound s' := by
  cases step_inv hs with
  | join =>
    refine ⟨?_, ?_, fun _ => rfl, ?_⟩
    · simp [h.waits, Phase.waits]
    · simp [h.counted, Phase.counted]
    · intro hqueue hmem
      rcases mem_append.1 hmem with hmem | hmem
      · exact h.awake hqueue hmem
      · simp at hmem
  | go i e p t _ hp ht hshared _ hcalls =>
    have heffect := h.effect hp ht
    have hwaits := tally_set (f := Phase.waits) hp t.phase
    have hcounted := tally_set (f := Phase.counted) hp t.phase
    refine ⟨?_, ?_, ?_, ?_⟩
    · rw [hcalls, tally_broadcast Phase.waits_woken, hshared]
      have hbalance := heffect.waits
      rw [h.waits] at hwaits
      omega
    · rw [hcalls, tally_broadcast Phase.counted_woken, hshared]
      have hbalance := heffect.counted
      rw [h.counted] at hcounted
      omega
    · rw [hshared]
      intro hpos
      have hle := le_tally (f := Phase.counted) hp
      rw [h.counted, counted_of_advance ht] at hle
      exact heffect.delivering (h.delivering hle) hpos
    · rw [hshared, hcalls]
      intro hqueue
      rcases heffect.awake hqueue with ⟨hphase, hbefore | hbroadcast⟩
      · split
        · exact asleep_not_mem_woken _
        · intro hmem
          rcases mem_or_eq_of_mem_set hmem with hmem | heq
          · exact h.awake hbefore hmem
          · exact hphase heq.symm
      · rw [if_pos hbroadcast]
        exact asleep_not_mem_woken _
  | spurious i hi =>
    have hwaits := tally_set (f := Phase.waits) hi .claim
    have hcounted := tally_set (f := Phase.counted) hi .claim
    refine ⟨?_, ?_, h.delivering, ?_⟩
    · rw [h.waits] at hwaits
      exact hwaits
    · rw [h.counted] at hcounted
      exact Nat.add_right_cancel hcounted
    · intro hqueue hmem
      rcases mem_or_eq_of_mem_set hmem with hmem | heq
      · exact h.awake hqueue hmem
      · cases heq
  | aside _ _ hcalls hbooks =>
    refine ⟨?_, ?_, ?_, ?_⟩
    · rw [hcalls.tally_eq Phase.waits_woken, hbooks.waiting]
      exact h.waits
    · rw [hcalls.tally_eq Phase.counted_woken, hbooks.active]
      exact h.counted
    · rw [hbooks.active, hbooks.delivering]
      exact h.delivering
    · rw [hbooks.queue]
      intro hqueue
      rcases hcalls with heq | heq
      · rw [heq]
        exact h.awake hqueue
      · rw [heq]
        exact asleep_not_mem_woken _

end Sound

/-! ## Every CQE is in one place -/

/-- The places of a CQE that the step of one call can change. -/
def near (s : Shared) (p : Phase) (k : Nat) : Nat :=
  s.queue.count k + p.holding.count k + s.processedCount k

/-- No CQE is lost or doubled; a new one may be taken. -/
def Keeps (s : Shared) (p : Phase) (t : Turn) : Prop :=
  t.shared.taken = s.taken ∧ (∀ k, near t.shared t.phase k = near s p k) ∨
    t.shared.taken = s.taken + 1 ∧ ∀ k, near t.shared t.phase k = near s p k + if k = s.taken then 1 else 0

theorem keeps_handle (s : Shared) (i : Nat) (ctx : Ctx) (e : Env) (stage : Stage) :
    Keeps s (.work ctx stage) (handle s i ctx e stage) := by
  rcases handle_cases s i ctx e stage with ⟨c, rfl, heq⟩ | ⟨hstage, ⟨sq, flag, hshared⟩, -, hnext⟩
  · rw [heq]
    refine .inl ⟨rfl, fun k => ?_⟩
    cases ctx <;>
      simp only [near, Phase.holding, Shared.processedCount, map_append, map_cons, map_nil,
        count_append, count_cons, count_nil] <;>
      omega
  · refine .inl ⟨by rw [hshared], fun k => ?_⟩
    unfold near
    rw [hnext.holding hstage, hshared]
    rfl

theorem Keeps.of_same {s s' : Shared} {p p' : Phase} (hholding : p'.holding = p.holding)
    (hqueue : s'.queue = s.queue) (htaken : s'.taken = s.taken) (hprocessed : s'.processed = s.processed) :
    Keeps s p { phase := p', shared := s' } := by
  refine .inl ⟨htaken, fun k => ?_⟩
  simp only [near, hholding, hqueue, Shared.processedCount, hprocessed]

theorem keeps_harvest {s : Shared} {e : Env} {w : Wait} (hroom : hasRoom s e (.waiter w) = true) :
    Keeps s (.waiter w) (harvest s e w) := by
  cases w with
  | top =>
    simp only [harvest]
    split
    · exact .of_same rfl rfl rfl rfl
    · split <;> exact .of_same rfl rfl rfl rfl
  | flush =>
    simp only [harvest]
    split
    · rcases flushPending_published s e.submit with ⟨sq, flag, hshared⟩
      split
      · rename_i s' heq
        rw [heq] at hshared
        subst hshared
        exact .of_same rfl rfl rfl rfl
      · rename_i s' heq
        rw [heq] at hshared
        subst hshared
        exact .of_same rfl rfl rfl rfl
    · exact .of_same rfl rfl rfl rfl
  | reap =>
    simp only [harvest]
    split
    · exact .of_same rfl rfl rfl rfl
    · split <;> exact .of_same rfl rfl rfl rfl
  | count first => exact .of_same rfl rfl rfl rfl
  | loop h =>
    simp only [harvest]
    split
    · split
      · rename_i s' heq
        rcases fifoEnsure_eq_some heq with ⟨cap, rfl⟩
        exact .of_same rfl rfl rfl rfl
      · exact .of_same rfl rfl rfl rfl
    · exact .of_same rfl rfl rfl rfl
  | peek h =>
    simp only [harvest]
    split
    · unfold Harvest.done
      split
      · exact .of_same rfl rfl rfl rfl
      · split <;> exact .of_same rfl rfl rfl rfl
    · exact .of_same rfl rfl rfl rfl
    · -- the CQE is taken: it will be pushed, or the waiter handles it
      refine .inr ⟨rfl, fun k => ?_⟩
      have hnew : [s.taken].count k = if k = s.taken then 1 else 0 := by
        by_cases hk : k = s.taken
        · simp [hk]
        · simp [hk, Ne.symm hk]
      split <;> simp only [near, Phase.holding, Shared.processedCount, hnew, count_nil] <;> omega
  | push h c =>
    simp only [harvest]
    split
    · rename_i s' heq
      rcases fifoEnsure_eq_some heq with ⟨cap, rfl⟩
      refine .inl ⟨rfl, fun k => ?_⟩
      simp only [near, Phase.holding, Shared.processedCount, count_append, count_nil]
      omega
    · rename_i heq
      simp only [hasRoom, or_eq_true, decide_eq_true_eq] at hroom
      unfold Shared.fifoEnsure at heq
      split at heq
      · cases heq
      · rename_i hfull
        rw [if_pos (hroom.resolve_left hfull)] at heq
        cases heq
  | stopCheck h =>
    simp only [harvest]
    split <;> exact .of_same rfl rfl rfl rfl

theorem keeps_advance {s : Shared} {e : Env} {t : Turn} (h : advance s i e p = some t)
    (hroom : hasRoom s e p = true) : Keeps s p t := by
  cases p with
  | claim =>
    simp only [advance] at h
    split at h
    · rename_i c rest hqueue
      cases h
      refine .inl ⟨rfl, fun k => ?_⟩
      simp only [near, Phase.holding, hqueue, count_cons, count_nil]
      exact congrArg (· + _) (by omega)
    · split at h
      · cases h
        exact .inl ⟨rfl, fun _ => rfl⟩
      · split at h <;> cases h <;> exact .inl ⟨rfl, fun _ => rfl⟩
  | asleep => cases h
  | work ctx stage =>
    cases h
    exact keeps_handle s i ctx e stage
  | waiter w =>
    cases h
    exact keeps_harvest hroom
  | release failed =>
    cases h
    cases failed <;> exact .inl ⟨rfl, fun _ => rfl⟩
  | wake failed =>
    cases h
    exact .inl ⟨rfl, fun _ => rfl⟩
  | check failed =>
    simp only [advance] at h
    split at h <;> cases h <;> exact .inl ⟨rfl, fun _ => rfl⟩
  | takeAll failed =>
    cases h
    refine .inl ⟨rfl, fun k => ?_⟩
    cases hq : s.queue <;> simp [near, nextLeftover, Phase.holding, hq, Shared.processedCount]
  | leave failed =>
    cases h
    exact .inl ⟨rfl, fun _ => rfl⟩
  | left failed => cases h

/-! ## Runs -/

/-- The push finds room, and a call that reads the worker count beside staged CQEs is alone, or
another call has still to read it. -/
def sharedExit (s : Service) : Act → Bool
  | .go i e =>
    match s.calls[i]? with
    | some (.check _) => s.shared.active ≤ 1 || s.shared.queue = [] || (s.calls.eraseIdx i).any Phase.inside
    | some p => hasRoom s.shared e p
    | none => true
  | _ => true

/-- What the hand-off promises. -/
structure HandOff (s : Service) : Prop where
  /-- A CQE that was taken is in one place. -/
  once : ∀ k, s.places k = if k < s.shared.taken then 1 else 0
  /-- One call has the waiter role. -/
  waiter : tally Phase.waits s.calls ≤ 1
  awake : s.shared.queue ≠ [] → .asleep ∉ s.calls
  /-- The last call has left nothing, and each CQE was processed by one call. -/
  served : (∀ p ∈ s.calls, p.hasLeft = true) →
    s.shared.queue = [] ∧ ∀ k < s.shared.taken, s.shared.processedCount k = 1

/-- The books, with every CQE in one place, and somebody who will see to the queue. -/
structure Attended (s : Service) : Prop where
  sound : Sound s
  once : ∀ k, s.places k = if k < s.shared.taken then 1 else 0
  attended : s.shared.queue ≠ [] → ∃ (j : Nat) (p : Phase), s.calls[j]? = some p ∧ p.inside = true

namespace Attended

variable {s s' : Service}

theorem init (autoSubmit sqpoll : Bool) :
    Attended { shared := { autoSubmit := autoSubmit, sqpoll := sqpoll } } :=
  ⟨.init autoSubmit sqpoll, fun _ => rfl, by simp⟩

theorem handOff (h : Attended s) : HandOff s := by
  refine ⟨h.once, ?_, h.sound.awake, ?_⟩
  · rw [h.sound.waits]
    cases s.shared.waiting <;> decide
  · intro hleft
    have hempty : s.shared.queue = [] := by
      by_contra hqueue
      rcases h.attended hqueue with ⟨j, p, hp, hinside⟩
      have hp' := hleft p (mem_of_getElem? hp)
      cases p <;> simp_all [Phase.hasLeft, Phase.inside]
    refine ⟨hempty, fun k hk => ?_⟩
    have honce := h.once k
    have hnone : tally (fun p => p.holding.count k) s.calls = 0 := by
      refine sum_eq_zero fun n hn => ?_
      rcases mem_map.1 hn with ⟨p, hp, rfl⟩
      have hp' := hleft p hp
      cases p <;> first | rfl | cases hp'
    rw [if_pos hk, Service.places, hempty, hnone] at honce
    simpa using honce

theorem other {calls : List Phase} {i j : Nat} {p p' : Phase} (hne : j ≠ i) (hp : calls[j]? = some p)
    (hinside : p.inside = true) (b : Bool) :
    ∃ (j : Nat) (p : Phase), (if b then (calls.set i p').map Phase.woken else calls.set i p')[j]? = some p ∧
      p.inside = true := by
  have hset : (calls.set i p')[j]? = some p := by
    rw [List.getElem?_set_ne hne.symm]
    exact hp
  cases b with
  | false => exact ⟨j, p, hset, hinside⟩
  | true =>
    refine ⟨j, p.woken, ?_, by simpa using hinside⟩
    rw [if_pos rfl, List.getElem?_map, hset]
    rfl

theorem self {calls : List Phase} {p p' : Phase} (hp : calls[i]? = some p) (hinside : p'.inside = true)
    (b : Bool) :
    ∃ (j : Nat) (p : Phase), (if b then (calls.set i p').map Phase.woken else calls.set i p')[j]? = some p ∧
      p.inside = true := by
  have hlt : i < calls.length := (List.getElem?_eq_some_iff.1 hp).1
  have hset : (calls.set i p')[i]? = some p' := List.getElem?_set_self hlt
  cases b with
  | false => exact ⟨i, p', hset, hinside⟩
  | true =>
    refine ⟨i, p'.woken, ?_, by simpa using hinside⟩
    rw [if_pos rfl, List.getElem?_map, hset]
    rfl

theorem once_step {a : Act} (h : Attended s) (hc : sharedExit s a = true)
    (hs : step s a = some s') (k : Nat) :
    s'.places k = if k < s'.shared.taken then 1 else 0 := by
  have honce := h.once k
  have hwoken : ∀ p : Phase, p.woken.holding.count k = p.holding.count k := fun p => by simp
  unfold Service.places at honce ⊢
  cases step_inv hs with
  | join =>
    simpa [Phase.holding, Shared.processedCount] using honce
  | go i e p t _ hp ht hshared _ hcalls =>
    have hroom : hasRoom s.shared e p = true := by
      simp only [sharedExit, hp] at hc
      cases p <;> first | rfl | exact hc
    have hset := tally_set (f := fun p => p.holding.count k) hp t.phase
    rw [hcalls, tally_broadcast hwoken, hshared]
    rcases keeps_advance ht hroom with ⟨htaken, hnear⟩ | ⟨htaken, hnear⟩
    · have hk := hnear k
      unfold near at hk
      rw [htaken]
      omega
    · have hk := hnear k
      unfold near at hk
      rw [htaken]
      split at hk <;> split at honce <;> split <;> omega
  | spurious i hi =>
    have hset : tally (fun p => p.holding.count k) (s.calls.set i .claim) = _ :=
      Nat.add_right_cancel (tally_set (f := fun p => p.holding.count k) hi .claim)
    rw [← honce, ← hset]
  | aside _ _ hcalls hbooks =>
    rw [hcalls.tally_eq hwoken, hbooks.queue, hbooks.taken, Shared.processedCount, hbooks.processed]
    exact honce

theorem attended_step {a : Act} (h : Attended s) (hc : sharedExit s a = true) (hs : step s a = some s')
    (hqueue : s'.shared.queue ≠ []) : ∃ (j : Nat) (p : Phase), s'.calls[j]? = some p ∧ p.inside = true := by
  cases step_inv hs with
  | join => exact ⟨s.calls.length, .claim, by simp, rfl⟩
  | go i e p t _ hp ht hshared _ hcalls =>
    have heffect := h.sound.effect hp ht
    rw [hshared] at hqueue
    rw [hcalls]
    cases hinside : p.inside with
    | true =>
      rcases heffect.inside hqueue hinside with hphase | ⟨failed, rfl⟩
      · exact self hp hphase _
      · simp only [sharedExit, hp] at hc
        simp only [advance, Option.some.injEq] at ht
        subst ht
        simp only [or_eq_true, decide_eq_true_eq, any_eq_true] at hc
        rcases hc with (halone | hempty) | ⟨q, hmem, hother⟩
        · exact self hp (by simp [halone, Phase.inside]) _
        · exact absurd hempty hqueue
        · rcases mem_eraseIdx_iff_getElem?.1 hmem with ⟨j, hne, hq⟩
          exact other hne hq hother _
    | false =>
      rw [heffect.outside hinside] at hqueue
      rcases h.attended hqueue with ⟨j, q, hq, hother⟩
      have hne : j ≠ i := by
        rintro rfl
        rw [hp] at hq
        cases hq
        rw [hinside] at hother
        cases hother
      exact other hne hq hother _
  | spurious i hi => exact self hi rfl false
  | aside _ _ hcalls hbooks =>
    rw [hbooks.queue] at hqueue
    rcases h.attended hqueue with ⟨j, p, hp, hinside⟩
    rcases hcalls with heq | heq
    · rw [heq]
      exact ⟨j, p, hp, hinside⟩
    · rw [heq]
      exact ⟨j, p.woken, by rw [List.getElem?_map, hp]; rfl, by simpa using hinside⟩

/-- Who leaves with a queue behind it leaves somebody awake for it. -/
theorem step {a : Act} (h : Attended s) (hc : sharedExit s a = true) (hs : step s a = some s') :
    Attended s' :=
  ⟨h.sound.step hs, h.once_step hc hs, h.attended_step hc hs⟩

end Attended

/-- In a run in which every push finds room and no call leaves staged CQEs to calls that have
already read the worker count, the hand-off keeps its promise in every state. -/
theorem serve_hands_off (autoSubmit sqpoll : Bool) (as : List Act)
    (h : Along step (fun s a => sharedExit s a = true)
      { shared := { autoSubmit := autoSubmit, sqpoll := sqpoll } } as) :
    Always step HandOff { shared := { autoSubmit := autoSubmit, sqpoll := sqpoll } } as :=
  always_of_along (fun _ h => Attended.handOff h) (fun _ _ _ h hc hs => Attended.step h hc hs) as _
    (.init autoSubmit sqpoll) h

/-- Two workers: one waits in the kernel and stages three CQEs, and both of them take one. -/
def stagesThree : List Act :=
  [.join, .join, .go 0 {}, .go 1 {}, .go 0 {}, .go 0 {}, .go 0 { cqe := some true }, .go 0 {},
    .go 0 {}, .go 0 {}, .go 0 {}, .go 0 {}, .go 0 { cqe := some true }, .go 0 {},
    .go 0 {}, .go 0 { cqe := some true }, .go 0 {}, .go 0 {}, .go 0 {}, .go 0 {}, .go 0 {}, .go 1 {}]

/-- The callback of the CQE that call `i` has taken raises. -/
def callbackRaises (i : Nat) : List Act :=
  [.go i {}, .go i { result := .callbackFailed }, .go i {}]

/-- One leaves before the other: the second takes what is left. -/
def leavesInTurn : List Act :=
  stagesThree ++ callbackRaises 0 ++ [.go 0 {}, .go 0 {}, .go 0 {}] ++ callbackRaises 1 ++
    [.go 1 {}, .go 1 {}, .go 1 {}, .go 1 {}, .go 1 {}, .go 1 {}, .go 1 {}]

theorem serve_hands_off_leavesInTurn :
    (exec step {} leavesInTurn).map (fun s => (s.calls, s.shared.queue, s.shared.processed)) =
        some ([.left true, .left true], [], [(0, 0), (1, 1), (1, 2)]) ∧
      Along step (fun s a => sharedExit s a = true) {} leavesInTurn ∧ Always step HandOff {} leavesInTurn :=
  ⟨by decide, by decide, serve_hands_off true false leavesInTurn (by decide)⟩

/-- Both read the worker count before either is counted off. -/
def leavesTogether : List Act :=
  stagesThree ++ callbackRaises 0 ++ callbackRaises 1 ++ [.go 0 {}, .go 1 {}, .go 0 {},
    .go 1 {}, .go 0 {}, .go 1 {}]

/-- Nobody is left in the service, and a CQE is on its queue. -/
theorem serve_leaves_staged :
    (exec step {} leavesTogether).map (fun s => (s.calls, s.shared.queue, s.shared.active)) =
        some ([.left true, .left true], [2], 0) ∧ ¬ Always step HandOff {} leavesTogether := by
  refine ⟨by decide, fun h => ?_⟩
  have hdrained : Always step (fun s => s.calls.all Phase.hasLeft = true →
      s.shared.queue = []) {} leavesTogether :=
    h.mono fun s hs hleft => (hs.served (all_eq_true.1 hleft)).1
  revert hdrained
  decide

end Pytealet.Uring.Serve
