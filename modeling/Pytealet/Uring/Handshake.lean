import Pytealet.Uring.HandOff

/-!
# Handshake — who publishes an SQE that a handler has filled

A handler fills the SQE and then asks whether the host sleeps and whether somebody waits in the
kernel.  The host and the waiter announce themselves first and flush afterwards.  So a waitable SQE
in the queue is the business of a handler that has not yet decided, of a host that has still to
submit, or of the next waiter.
-/

namespace Pytealet.Uring.Serve

open Lib Lib.Transition Tally List Bool

/-- `io_uring_submit` takes the whole queue. -/
def takesWhole (s : Service) : Act → Bool
  | .go _ e => e.submit.any (s.shared.sq.length ≤ ·)
  | .host submit => submit.any (s.shared.sq.length ≤ ·)
  | .submit submit => submit.any (s.shared.sq.length ≤ ·)
  | _ => true

/-- The host sleeps, one worker is in the kernel wait, the others sleep on the condition variable,
and a waitable SQE is not published. -/
def Stranded (s : Service) : Prop :=
  s.host = .parked ∧ true ∈ s.shared.sq ∧
    ∃ i : Nat, s.calls[i]? = some (.waiter .reap) ∧
      ∀ (j : Nat) (p : Phase), j ≠ i → s.calls[j]? = some p → p = .asleep ∨ p.hasLeft = true

namespace Phase

/-- The handler has filled a waitable SQE and not decided who publishes it. -/
def obliged : Phase → Bool
  | .work _ (.callback moved _) => moved
  | .work _ (.publish moved _ _) => moved
  | .work _ (.ask _ _ _) => true
  | .work _ (.flush _) => true
  | _ => false

def reaping : Phase → Bool
  | .waiter .reap => true
  | _ => false

@[simp]
theorem obliged_woken (p : Phase) : p.woken.obliged = p.obliged := by
  cases p <;> rfl

@[simp]
theorem reaping_woken (p : Phase) : p.woken.reaping = p.reaping := by
  cases p <;> rfl

theorem waits_of_reaping {p : Phase} (h : p.reaping = true) : p.waits = 1 := by
  cases p with
  | waiter w => rfl
  | _ => cases h

end Phase

namespace Host

/-- The count of the idle park. -/
def depth : Host → Nat
  | .running => 0
  | .noted | .latched | .submitted | .returned | .raised => 1
  | .entered | .parked => 2

def willSubmit : Host → Bool
  | .running | .noted | .latched => true
  | _ => false

end Host

/-! ## The submission queue -/

/-- The ring is not polled, and flushes by itself. -/
def Plain (s : Shared) : Prop :=
  s.autoSubmit = true ∧ s.sqpoll = false

/-- A waitable SQE in the queue has set the flag. -/
def Flagged (s : Shared) : Prop :=
  true ∈ s.sq → s.sqWaitable = true

variable {s : Shared}

theorem flushPending_whole {submit : Option Nat} (hplain : s.sqpoll = false)
    (hwhole : submit.any (s.sq.length ≤ ·) = true) :
    s.flushPending submit = ({ s with sq := [], sqWaitable := false }, true) := by
  unfold Shared.flushPending
  split
  · rename_i hempty
    rw [← hempty.2]
  · cases submit with
    | none => cases hwhole
    | some n =>
      have hdrop : s.sq.drop n = [] := drop_eq_nil_of_le (by simpa using hwhole)
      simp [hplain, hdrop]

theorem makeRoom_whole (full : Bool) {submit : Option Nat} (hplain : s.sqpoll = false)
    (hwhole : submit.any (s.sq.length ≤ ·) = true) :
    s.makeRoom full submit = (s, true) ∨ s.makeRoom full submit =
      ({ s with sq := [], sqWaitable := false }, true) := by
  unfold Shared.makeRoom
  split
  · exact .inr (flushPending_whole hplain hwhole)
  · exact .inl rfl

theorem Flagged.fill (h : Flagged s) (waitable : Bool) : Flagged (s.fill waitable) := by
  intro hmem
  simp only [Shared.fill, mem_append, mem_singleton] at hmem
  rcases hmem with hmem | rfl
  · simp [Shared.fill, h hmem]
  · simp [Shared.fill]

theorem Flagged.nil (s : Shared) : Flagged { s with sq := [], sqWaitable := false } := by
  simp [Flagged]

/-! ## One step of a call -/

/-- Why a handler may leave its SQE to somebody else: the host is outside of its wait, there is no
waiter, or the handler is the waiter. -/
def Excused (s : Shared) (p : Phase) : Prop :=
  s.depth = 0 ∨ s.waiting = false ∨ p.waits = 1 ∧ p.reaping = false

/-- What a step does to the duty to publish. -/
structure Duty (s : Shared) (p : Phase) (t : Turn) : Prop where
  plain : Plain t.shared
  flagged : Flagged t.shared
  depth : t.shared.depth = s.depth
  /-- A waitable SQE in the queue is the business of this call, or it was there, and then the call
  does not go to the kernel wait, and does not drop its own duty without an excuse. -/
  owed : true ∈ t.shared.sq → t.phase.obliged = true ∨
    true ∈ s.sq ∧ (t.phase.reaping = true → p.reaping = true) ∧ (p.obliged = true → Excused s p)

theorem Ctx.done_idle (ctx : Ctx) (failed unpublished : Bool) :
    (ctx.done failed unpublished).obliged = false ∧ (ctx.done failed unpublished).reaping = false := by
  cases ctx with
  | take =>
    simp only [Ctx.done]
    split <;> exact ⟨rfl, rfl⟩
  | inline h =>
    simp only [Ctx.done]
    split <;> exact ⟨rfl, rfl⟩
  | leftover rest already =>
    simp only [Ctx.done]
    cases rest <;> exact ⟨rfl, rfl⟩

theorem Duty.done {p : Phase} (hplain : Plain s) (hflag : Flagged s) {ctx : Ctx}
    {failed unpublished : Bool} (h : p.obliged = true → Excused s p) :
    Duty s p { phase := ctx.done failed unpublished, shared := s } := by
  refine ⟨hplain, hflag, rfl, fun hmem => .inr ⟨hmem, ?_, h⟩⟩
  intro hreaping
  have hidle := (ctx.done_idle failed unpublished).2
  rw [hreaping] at hidle
  cases hidle

theorem Duty.keeps {p p' : Phase} (hplain : Plain s) (hflag : Flagged s)
    (hreaping : p'.reaping = false) (h : p.obliged = true → p'.obliged = true) :
    Duty s p { phase := p', shared := s } := by
  refine ⟨hplain, hflag, rfl, fun hmem => ?_⟩
  cases hobliged : p.obliged with
  | true => exact .inl (h hobliged)
  | false =>
    refine .inr ⟨hmem, ?_, by simp⟩
    intro h'
    have h'' : p'.reaping = true := h'
    rw [hreaping] at h''
    cases h''

theorem Duty.flushed {p p' : Phase} (hplain : Plain s) :
    Duty s p { phase := p', shared := { s with sq := [], sqWaitable := false } } :=
  ⟨hplain, .nil s, rfl, by simp⟩

theorem Duty.filled {ctx : Ctx} {moved house house' polled : Bool} (hplain : Plain s) (hflag : Flagged s)
    (waitable : Bool) :
    Duty s (.work ctx (.callback moved house))
      { phase := .work ctx (.callback (moved || waitable || polled) house'),
        shared := s.fill waitable } := by
  refine ⟨hplain, hflag.fill waitable, rfl, fun hmem => ?_⟩
  simp only [Shared.fill, mem_append, mem_singleton] at hmem
  rcases hmem with hmem | rfl
  · cases moved with
    | true => exact .inl rfl
    | false => exact .inr ⟨hmem, by simp [Phase.reaping], by simp [Phase.obliged]⟩
  · exact .inl (by simp [Phase.obliged])

theorem Duty.aside {s s' : Shared} {p p' : Phase} {b : Bool} (hplain : Plain s) (hflag : Flagged s)
    (hp : p.obliged = false) (hp' : p'.reaping = false) (hauto : s'.autoSubmit = s.autoSubmit)
    (hpoll : s'.sqpoll = s.sqpoll) (hsq : s'.sq = s.sq) (hwaitable : s'.sqWaitable = s.sqWaitable)
    (hdepth : s'.depth = s.depth) : Duty s p { phase := p', shared := s', broadcast := b } := by
  refine ⟨⟨hauto.trans hplain.1, hpoll.trans hplain.2⟩, ?_, hdepth, fun hmem => .inr ⟨hsq ▸ hmem, ?_, ?_⟩⟩
  · intro hmem
    have hmem' : true ∈ s.sq := hsq ▸ hmem
    exact hwaitable.trans (hflag hmem')
  · intro hreaping
    have hreaping' : p'.reaping = true := hreaping
    rw [hp'] at hreaping'
    cases hreaping'
  · simp [hp]

theorem duty_handle {i : Nat} {ctx : Ctx} {e : Env} {stage : Stage} (hplain : Plain s)
    (hflag : Flagged s) (hdelivering : s.delivering = true)
    (hwhole : e.submit.any (s.sq.length ≤ ·) = true) :
    Duty s (.work ctx stage) (handle s i ctx e stage) := by
  cases stage with
  | package c =>
    exact ⟨hplain, hflag, rfl, fun hmem => .inr
      ⟨hmem, by simp [handle, Phase.reaping], by simp [Phase.obliged]⟩⟩
  | callback moved house =>
    simp only [handle]
    split
    · rename_i waitable housekeeping _
      rcases makeRoom_whole e.full hplain.2 hwhole with hroom | hroom
      · rw [hroom]
        exact .filled hplain hflag waitable
      · rw [hroom]
        refine ⟨hplain, (Flagged.nil s).fill waitable, rfl, fun hmem => .inl ?_⟩
        have hwaitable : waitable = true := by simpa [Shared.fill] using hmem
        simp [Phase.obliged, hwaitable]
    · split
      · exact ⟨hplain, hflag, rfl, fun hmem =>
          .inr ⟨hmem, by simp [Phase.reaping], fun _ => .inr (.inr ⟨rfl, rfl⟩)⟩⟩
      · exact .keeps hplain hflag rfl id
  | publish moved house failed =>
    simp only [handle, hdelivering, hplain.1, hplain.2, true_eq_false, false_eq_true, if_false, if_true]
    split
    · rename_i hmoved
      exact .done hplain hflag (by simp [Phase.obliged, hmoved])
    · exact .keeps hplain hflag rfl fun _ => rfl
  | ask q again failed =>
    cases q with
    | hasBlocked => exact .keeps hplain hflag rfl fun _ => rfl
    | isWaiting =>
      simp only [handle]
      split
      · rename_i hdepth
        exact .done hplain hflag fun _ => .inl hdepth
      · exact .keeps hplain hflag rfl fun _ => rfl
    | waiterActive =>
      simp only [handle]
      split
      · rename_i hwaiting
        exact .done hplain hflag fun _ => .inr (.inl hwaiting)
      · split <;> exact .keeps hplain hflag rfl fun _ => rfl
  | flush failed =>
    simp only [handle, flushPending_whole hplain.2 hwhole]
    exact .flushed hplain

theorem duty_harvest {e : Env} {w : Wait} (hplain : Plain s) (hflag : Flagged s)
    (hwhole : e.submit.any (s.sq.length ≤ ·) = true) : Duty s (.waiter w) (harvest s e w) := by
  have hkeeps : ∀ {p : Phase}, p.reaping = false → Duty s (.waiter w) { phase := p, shared := s } :=
    fun hp => .aside hplain hflag rfl hp rfl rfl rfl rfl rfl
  have hother : ∀ {p : Phase} {s' : Shared} {b : Bool}, p.reaping = false → s'.autoSubmit = s.autoSubmit →
      s'.sqpoll = s.sqpoll → s'.sq = s.sq → s'.sqWaitable = s.sqWaitable → s'.depth = s.depth →
      Duty s (.waiter w) { phase := p, shared := s', broadcast := b } := .aside hplain hflag rfl
  cases w with
  | top =>
    simp only [harvest, hplain.1]
    split <;> exact hkeeps rfl
  | flush =>
    simp only [harvest, hplain.2, Bool.false_or]
    split
    · rw [flushPending_whole hplain.2 hwhole]
      exact .flushed hplain
    · rename_i hwaitable
      exact ⟨hplain, hflag, rfl, fun hmem => absurd (hflag hmem) hwaitable⟩
  | reap =>
    simp only [harvest]
    split
    · exact hkeeps rfl
    · split <;> exact hkeeps rfl
  | count first => exact hkeeps rfl
  | loop h =>
    simp only [harvest]
    split
    · split
      · rename_i s' heq
        rcases fifoEnsure_eq_some heq with ⟨cap, rfl⟩
        exact hother rfl rfl rfl rfl rfl rfl
      · exact hkeeps rfl
    · exact hkeeps rfl
  | peek h =>
    simp only [harvest]
    split
    · refine hkeeps ?_
      unfold Harvest.done
      split
      · rfl
      · split <;> rfl
    · exact hkeeps rfl
    · split <;> exact hother rfl rfl rfl rfl rfl rfl
  | push h c =>
    simp only [harvest]
    split
    · rename_i s' heq
      rcases fifoEnsure_eq_some heq with ⟨cap, rfl⟩
      exact hother rfl rfl rfl rfl rfl rfl
    · exact hkeeps rfl
  | stopCheck h =>
    simp only [harvest]
    split <;> exact hkeeps rfl

theorem duty_advance {i : Nat} {e : Env} {p : Phase} {t : Turn} (h : advance s i e p = some t)
    (hplain : Plain s) (hflag : Flagged s) (hdelivering : s.delivering = true)
    (hwhole : e.submit.any (s.sq.length ≤ ·) = true) : Duty s p t := by
  -- a step that is neither a handler's nor the waiter's leaves the queue alone, and such a call has
  -- no duty
  have hother : ∀ {p' : Phase} {s' : Shared} {b : Bool}, p.obliged = false → p'.reaping = false →
      s'.autoSubmit = s.autoSubmit → s'.sqpoll = s.sqpoll → s'.sq = s.sq → s'.sqWaitable = s.sqWaitable →
      s'.depth = s.depth → Duty s p { phase := p', shared := s', broadcast := b } := .aside hplain hflag
  cases p with
  | claim =>
    simp only [advance] at h
    split at h
    · cases h
      exact hother rfl rfl rfl rfl rfl rfl rfl
    · split at h
      · cases h
        exact hother rfl rfl rfl rfl rfl rfl rfl
      · split at h <;> cases h <;> exact hother rfl rfl rfl rfl rfl rfl rfl
  | asleep => cases h
  | work ctx stage =>
    cases h
    exact duty_handle hplain hflag hdelivering hwhole
  | waiter w =>
    cases h
    exact duty_harvest hplain hflag hwhole
  | release failed =>
    cases h
    cases failed <;> exact hother rfl rfl rfl rfl rfl rfl rfl
  | wake failed =>
    cases h
    exact hother rfl rfl rfl rfl rfl rfl rfl
  | check failed =>
    simp only [advance] at h
    split at h <;> cases h <;> exact hother rfl rfl rfl rfl rfl rfl rfl
  | takeAll failed =>
    cases h
    cases hq : s.queue <;> exact hother rfl rfl rfl rfl rfl rfl rfl
  | leave failed =>
    cases h
    exact hother rfl rfl rfl rfl rfl rfl rfl
  | left failed => cases h

/-! ## Runs -/

/-- The handshake: a waitable SQE in the queue is somebody's business, or nobody waits in the
kernel. -/
structure Handshake (s : Service) : Prop where
  sound : Sound s
  plain : Plain s.shared
  flagged : Flagged s.shared
  depth : s.shared.depth = s.host.depth
  owed : true ∈ s.shared.sq →
    (∃ p ∈ s.calls, p.obliged = true) ∨ s.host.willSubmit = true ∨ ∀ p ∈ s.calls, p.reaping = false

namespace Handshake

variable {s s' : Service}

theorem init : Handshake {} :=
  ⟨.init true false, ⟨rfl, rfl⟩, by simp [Flagged], rfl, by simp⟩

theorem reaping_false (h : Handshake s) (hwaiting : s.shared.waiting = false)
    {p : Phase} (hp : p ∈ s.calls) :
    p.reaping = false := by
  rcases List.getElem?_of_mem hp with ⟨j, hj⟩
  have hle := le_tally (f := Phase.waits) hj
  rw [h.sound.waits, hwaiting] at hle
  by_contra hreaping
  rw [Phase.waits_of_reaping (eq_true_of_not_eq_false hreaping)] at hle
  cases hle

theorem other_reaping_false (h : Handshake s) {i j : Nat} {p q : Phase} (hp : s.calls[i]? = some p)
    (hwaits : p.waits = 1) (hne : j ≠ i) (hq : s.calls[j]? = some q) : q.reaping = false := by
  have hset := tally_set (f := Phase.waits) hp .claim
  have hle : q.waits ≤ tally Phase.waits (s.calls.set i .claim) :=
    le_tally (k := j) (by rwa [List.getElem?_set_ne hne.symm])
  have hone : s.shared.waiting.toNat ≤ 1 := toNat_le s.shared.waiting
  rw [h.sound.waits, hwaits] at hset
  by_contra hreaping
  rw [Phase.waits_of_reaping (eq_true_of_not_eq_false hreaping)] at hle
  have hclaim : Phase.claim.waits = 0 := rfl
  omega

theorem running_of_depth (h : Handshake s) (hdepth : s.shared.depth = 0) : s.host.willSubmit = true := by
  rw [h.depth] at hdepth
  cases hhost : s.host <;> simp_all [Host.depth, Host.willSubmit]

/-- An obliged call that steps away from its duty leaves it to somebody, or nobody waits. -/
theorem excused (h : Handshake s) {i : Nat} {p p' : Phase} (hp : s.calls[i]? = some p)
    (he : Excused s.shared p)
    (hreaping : p'.reaping = true → p.reaping = true) :
    s.host.willSubmit = true ∨ ∀ q ∈ s.calls.set i p', q.reaping = false := by
  have hself : p.reaping = false → p'.reaping = false := by
    intro hfalse
    by_contra htrue
    rw [hreaping (eq_true_of_not_eq_false htrue)] at hfalse
    cases hfalse
  rcases he with hdepth | hwaiting | ⟨hwaits, hfalse⟩
  · exact .inl (h.running_of_depth hdepth)
  · refine .inr fun q hq => ?_
    rcases mem_or_eq_of_mem_set hq with hq | rfl
    · exact h.reaping_false hwaiting hq
    · exact hself (h.reaping_false hwaiting (mem_of_getElem? hp))
  · refine .inr fun q hq => ?_
    rcases List.getElem?_of_mem hq with ⟨j, hj⟩
    by_cases hne : j = i
    · subst hne
      rw [List.getElem?_set_self (List.getElem?_eq_some_iff.1 hp).1] at hj
      cases hj
      exact hself hfalse
    · rw [List.getElem?_set_ne (Ne.symm hne)] at hj
      exact h.other_reaping_false hp hwaits hne hj

theorem owed_broadcast {calls : List Phase} {b : Bool} {host : Host}
    (h : (∃ p ∈ calls, p.obliged = true) ∨ host.willSubmit = true ∨ ∀ p ∈ calls, p.reaping = false) :
    (∃ p ∈ (if b then calls.map Phase.woken else calls), p.obliged = true) ∨ host.willSubmit = true ∨
      ∀ p ∈ (if b then calls.map Phase.woken else calls), p.reaping = false := by
  cases b with
  | false => exact h
  | true =>
    rcases h with ⟨p, hp, hobliged⟩ | hsubmit | hnone
    · exact .inl ⟨p.woken, mem_map_of_mem hp, by simpa using hobliged⟩
    · exact .inr (.inl hsubmit)
    · refine .inr (.inr fun q hq => ?_)
      rcases mem_map.1 hq with ⟨p, hp, rfl⟩
      rw [Phase.reaping_woken]
      exact hnone p hp

theorem owed_go (h : Handshake s) {i : Nat} {p : Phase} {t : Turn} (hp : s.calls[i]? = some p)
    (hduty : Duty s.shared p t) (hmem : true ∈ t.shared.sq) :
    (∃ q ∈ s.calls.set i t.phase, q.obliged = true) ∨ s.host.willSubmit = true ∨
      ∀ q ∈ s.calls.set i t.phase, q.reaping = false := by
  have hlt : i < s.calls.length := (List.getElem?_eq_some_iff.1 hp).1
  rcases hduty.owed hmem with hobliged | ⟨hbefore, hreaping, hexcused⟩
  · exact .inl ⟨t.phase, mem_set hlt t.phase, hobliged⟩
  · rcases h.owed hbefore with ⟨q, hq, hobliged⟩ | hsubmit | hnone
    · rcases List.getElem?_of_mem hq with ⟨j, hj⟩
      by_cases hne : j = i
      · subst hne
        rw [hp] at hj
        cases hj
        exact .inr (h.excused hp (hexcused hobliged) hreaping)
      · have hset : (s.calls.set i t.phase)[j]? = some q := by rwa [List.getElem?_set_ne (Ne.symm hne)]
        exact .inl ⟨q, mem_of_getElem? hset, hobliged⟩
    · exact .inr (.inl hsubmit)
    · refine .inr (.inr fun q hq => ?_)
      rcases mem_or_eq_of_mem_set hq with hq | rfl
      · exact hnone q hq
      · have hfalse := hnone p (mem_of_getElem? hp)
        by_contra htrue
        rw [hreaping (eq_true_of_not_eq_false htrue)] at hfalse
        cases hfalse

theorem owed_same (h : Handshake s) (hsq : s'.shared.sq = s.shared.sq) (hhost : s'.host = s.host)
    (hcalls : ∃ b : Bool, s'.calls = if b then s.calls.map Phase.woken else s.calls)
    (hmem : true ∈ s'.shared.sq) :
    (∃ p ∈ s'.calls, p.obliged = true) ∨ s'.host.willSubmit = true ∨ ∀ p ∈ s'.calls, p.reaping = false := by
  rcases hcalls with ⟨b, hcalls⟩
  rw [hsq] at hmem
  rw [hcalls, hhost]
  exact owed_broadcast (h.owed hmem)

theorem host (h : Handshake s) {submit : Option Nat} (hwhole : submit.any (s.shared.sq.length ≤ ·) = true)
    (hs : hostStep s submit = some s') (hsound : Sound s') : Handshake s' := by
  have hdepth := h.depth
  -- a step that leaves the queue to the calls, and is not one of the host's that have a submit
  -- ahead
  have hlater : s.host.willSubmit = false → s'.shared.sq = s.shared.sq →
      s'.calls = s.calls → true ∈ s'.shared.sq →
      (∃ p ∈ s'.calls, p.obliged = true) ∨ s'.host.willSubmit = true ∨
        ∀ p ∈ s'.calls, p.reaping = false := by
    intro hsubmit hsq hcalls hmem
    rw [hsq] at hmem
    rw [hcalls]
    rcases h.owed hmem with hobliged | hwill | hnone
    · exact .inl hobliged
    · rw [hsubmit] at hwill
      cases hwill
    · exact .inr (.inr hnone)
  unfold hostStep at hs
  cases hhost : s.host with
  | running =>
    rw [hhost] at hs hdepth
    cases hs
    exact ⟨hsound, h.plain, h.flagged, congrArg (· + 1) hdepth, fun _ => .inr (.inl rfl)⟩
  | noted =>
    rw [hhost] at hs hdepth
    cases hs
    exact ⟨hsound, h.plain, h.flagged, hdepth, fun _ => .inr (.inl rfl)⟩
  | latched =>
    simp only [hhost, flushPending_whole h.plain.2 hwhole, Option.some.injEq] at hs
    rw [hhost] at hdepth
    subst hs
    exact ⟨hsound, h.plain, .nil s.shared, hdepth, by simp⟩
  | submitted =>
    have howed := hlater (by rw [hhost]; rfl)
    rw [hhost] at hs hdepth
    cases hs
    exact ⟨hsound, h.plain, h.flagged, congrArg (· + 1) hdepth, howed rfl rfl⟩
  | entered =>
    have howed := hlater (by rw [hhost]; rfl)
    rw [hhost] at hs hdepth
    cases hs
    exact ⟨hsound, h.plain, h.flagged, hdepth, howed rfl rfl⟩
  | parked =>
    have howed := hlater (by rw [hhost]; rfl)
    rw [hhost] at hs hdepth
    cases hs
    exact ⟨hsound, h.plain, h.flagged, congrArg (· - 1) hdepth, howed rfl rfl⟩
  | returned =>
    rw [hhost] at hs hdepth
    cases hs
    exact ⟨hsound, h.plain, h.flagged, congrArg (· - 1) hdepth, fun _ => .inr (.inl rfl)⟩
  | raised =>
    rw [hhost] at hs
    cases hs

theorem step {a : Act} (h : Handshake s) (hc : takesWhole s a = true) (hs : step s a = some s') :
    Handshake s' := by
  have hsound := h.sound.step hs
  cases a with
  | join =>
    cases hs
    refine ⟨hsound, h.plain, h.flagged, h.depth, fun hmem => ?_⟩
    rcases h.owed hmem with ⟨p, hp, hobliged⟩ | hsubmit | hnone
    · exact .inl ⟨p, mem_append_left _ hp, hobliged⟩
    · exact .inr (.inl hsubmit)
    · refine .inr (.inr fun q hq => ?_)
      rcases mem_append.1 hq with hq | hq
      · exact hnone q hq
      · rw [mem_singleton.1 hq]
        rfl
  | go i e =>
    rcases step_go hs with ⟨p, t, hp, ht, hshared, hhost, hcalls⟩
    have hcounted := le_tally (f := Phase.counted) hp
    rw [h.sound.counted, counted_of_advance ht] at hcounted
    have hduty := duty_advance ht h.plain h.flagged (h.sound.delivering hcounted) hc
    refine ⟨hsound, ?_, ?_, ?_, fun hmem => ?_⟩
    · rw [hshared]
      exact hduty.plain
    · rw [hshared]
      exact hduty.flagged
    · rw [hshared, hhost, hduty.depth]
      exact h.depth
    · rw [hshared] at hmem
      rw [hcalls, hhost]
      exact owed_broadcast (h.owed_go hp hduty hmem)
  | spurious i =>
    simp only [Serve.step] at hs
    split at hs
    · rename_i hi
      cases hs
      have hduty : Duty s.shared .asleep { phase := .claim, shared := s.shared } :=
        .keeps h.plain h.flagged rfl id
      exact ⟨hsound, h.plain, h.flagged, h.depth, h.owed_go hi hduty⟩
    · cases hs
  | stop =>
    cases hs
    exact ⟨hsound, h.plain, h.flagged, h.depth, h.owed_same rfl rfl ⟨false, rfl⟩⟩
  | stopWake =>
    cases hs
    exact ⟨hsound, h.plain, h.flagged, h.depth, h.owed_same rfl rfl ⟨true, rfl⟩⟩
  | reset =>
    simp only [Serve.step] at hs
    split at hs
    · cases hs
    · cases hs
      exact ⟨hsound, h.plain, h.flagged, h.depth, h.owed_same rfl rfl ⟨false, rfl⟩⟩
  | hostFill waitable =>
    simp only [Serve.step] at hs
    split at hs
    · rename_i hrunning
      cases hs
      refine ⟨hsound, h.plain, h.flagged.fill waitable, h.depth, fun _ => .inr (.inl ?_)⟩
      simp only [hrunning, Host.willSubmit]
    · cases hs
  | host submit => exact h.host hc hs hsound
  | submit submit =>
    simp only [Serve.step, flushPending_whole h.plain.2 hc, Option.some.injEq] at hs
    subst hs
    exact ⟨hsound, h.plain, .nil s.shared, h.depth, by simp⟩

theorem not_stranded (h : Handshake s) : ¬ Stranded s := by
  rintro ⟨hparked, hmem, i, hi, hothers⟩
  rcases h.owed hmem with ⟨p, hp, hobliged⟩ | hsubmit | hnone
  · rcases List.getElem?_of_mem hp with ⟨j, hj⟩
    by_cases hne : j = i
    · subst hne
      rw [hi] at hj
      cases hj
      cases hobliged
    · rcases hothers j p hne hj with rfl | hleft
      · cases hobliged
      · cases p <;> simp_all [Phase.hasLeft, Phase.obliged]
  · rw [hparked] at hsubmit
    cases hsubmit
  · have hfalse := hnone _ (mem_of_getElem? hi)
    cases hfalse

end Handshake

/-- On a ring that is not polled and flushes by itself, where `io_uring_submit` takes the whole
queue, no waitable SQE is stranded beside a host that sleeps and a worker that waits in the
kernel. -/
theorem no_stranded_submission (as : List Act) (h : Along step (fun s a => takesWhole s a = true) {} as) :
    Always step (fun s => ¬ Stranded s) {} as :=
  always_of_along (fun _ h => Handshake.not_stranded h)
    (fun _ _ _ h hc hs => Handshake.step h hc hs) as _ .init h

/-- Two workers: one stages a CQE and waits in the kernel again, the host goes to sleep, and the
handler of the other fills a waitable SQE, asks twice, and publishes it. -/
def publishesForWaiter : List Act :=
  [.join, .join, .go 0 {}, .go 1 {}, .go 0 {}, .go 0 {}, .go 0 { cqe := some true },
    -- the waiter stages the CQE and gives up the role
    .go 0 {}, .go 0 {}, .go 0 {}, .go 0 {}, .go 0 {}, .go 0 {}, .go 0 {},
    .go 1 {}, .go 0 {}, .go 0 {}, .go 0 {},
    .host (some 0), .host (some 0), .host (some 0), .host (some 0), .host (some 0),
    .go 1 {}, .go 1 { fill := some (true, false) },
    -- the first and the second decision, and the flush
    .go 1 { submit := some 1 }, .go 1 { submit := some 1 }, .go 1 { submit := some 1 },
      .go 1 { submit := some 1 },
    .go 1 { submit := some 1 }, .go 1 { submit := some 1 }, .go 1 { submit := some 1 },
    .go 1 { submit := some 1 },
    .go 1 { submit := some 1 }, .go 1 {}]

theorem no_stranded_submission_publishesForWaiter :
    (exec step {} (publishesForWaiter.take 26)).map (fun s => (s.host, s.calls[0]?, s.shared.sq)) =
        some (.parked, some (.waiter .reap), [true]) ∧
      (exec step {} publishesForWaiter).map (fun s => (s.host, s.calls, s.shared.sq)) =
        some (.parked, [.waiter .reap, .asleep], []) ∧
      Always step (fun s => ¬ Stranded s) {} publishesForWaiter :=
  ⟨by decide, by decide, no_stranded_submission publishesForWaiter (by decide)⟩

end Pytealet.Uring.Serve
