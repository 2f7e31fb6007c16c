import Pytealet.Lib.Register
import Pytealet.Tealet.Lineage

/-!
# PendingException — in which tealet a queued exception is raised

`set_pending_exception` and `throw` are called on a tealet, but the lineage has one pending token
only.  The exception that was queued last is raised where a tealet resumes next, whichever tealet
that is; a newer exception replaces it, whichever tealet that is queued for, and a transfer that
fails discards it.

The pending token with its record is a register, and the log is the history of its uses.  A token
that a tealet has in flight is never the pending one, so that an exception in flight can be dropped
without touching the one that is pending.
-/

namespace Pytealet.Tealet

open Lib Lib.Transition Lib.Register

variable {ε : Type*}

/-! ## The property -/

/-- The tokens of the exceptions that were queued. -/
def tokens (log : List (Event ε)) : List Nat :=
  log.filterMap fun
    | .queued token _ _ => some token
    | _ => none

/-- An exception is raised in no tealet but the one that it was queued for. -/
def OwnTarget (log : List (Event ε)) : Prop :=
  ∀ token target e k, .queued token target e ∈ log → .resumed k (some (token, e)) ∈ log → k = target

structure Delivered (log : List (Event ε)) : Prop where
  /-- Every exception that is queued has a token of its own. -/
  distinct : (tokens log).Nodup
  /-- What a tealet raises was queued before, and since then no other exception was queued, no
  tealet has resumed and no transfer has failed. -/
  raised : ∀ pre post k token e, log = pre ++ .resumed k (some (token, e)) :: post →
    ∃ target older mid, pre = older ++ .queued token target e :: mid ∧ ∀ x ∈ mid, ∃ j, x = .traced j
  /-- The tealet that resumes next raises it. -/
  next : ∀ pre post token target e k r,
    log = pre ++ .queued token target e :: .resumed k r :: post → r = some (token, e)
  /-- It is not raised again. -/
  once : ∀ pre mid post j k token e e',
    log ≠ pre ++ .resumed j (some (token, e)) :: (mid ++ .resumed k (some (token, e')) :: post)

/-! ## What a call does

The calls that queue an exception, and those after which a tealet runs on, told from the state before the call. -/

/-- Wrapper `k` has not run, and can be. -/
def State.startable (s : State ε) (k : Nat) : Bool :=
  match s.wrappers[k]? with
  | some w => w.status = .new || w.status = .stub
  | none => false

/-- An exception can be queued for wrapper `k`, with this fallback. -/
def State.accepts (s : State ε) (k : Nat) (fallback : Option Nat) : Bool :=
  (s.switchable k || s.startable k) && (fallback = some k || fallback.all s.switchable)

/-- What the call queues, and for which tealet. -/
def Act.queues (s : State ε) : Act ε → Option (Nat × ε)
  | .setPending k e fallback => if s.accepts k fallback then some (k, e) else none
  | .throw k e fallback panic _ =>
    if s.accepts k fallback && (s.switchable k || !panic) then some (k, e) else none
  | _ => none

/-- The transfer of control that the call tries.  An exit that cannot lead to its target leads to
the main tealet. -/
def Act.transfers (s : State ε) : Act ε → Option Transfer
  | .switch k _ x => if s.switchable k then some x else none
  | .run k callable x => if s.startable k && (callable || s.pending.isSome) then some x else none
  | .throw k _ fallback panic x =>
    if s.accepts k fallback && (s.switchable k || !panic) then some x else none
  | .exit _ x => if s.current = 0 then none else some (if x = .fails then .succeeds else x)
  | _ => none

/-- How a transfer ends: tealet `k` runs on, and looks for an exception; or it has failed.  A panic
is seen before the trace hook. -/
def Ended (k : Nat) : Transfer → Event ε → Prop
  | .succeeds, .resumed j _ => j = k
  | .hookRaises, .traced j => j = k
  | .hookRaises, .resumed j _ => j = k
  | .fails, .failed => True
  | _, _ => False

/-- The log tells what the call has queued, and how its transfer has ended. -/
structure Told (s : State ε) (a : Act ε) (s' : State ε) : Prop where
  queued : ∀ k e, a.queues s = some (k, e) → ∃ token mid, s'.log = s.log ++ .queued token k e :: mid
  ended : ∀ x, a.transfers s = some x → ∃ mid y, s'.log = s.log ++ (mid ++ [y]) ∧ Ended s'.current x y ∧
    ∀ z ∈ mid, ∃ token k e, z = .queued token k e

/-! ## The log as a history -/

/-- What an event does to the pending exception. -/
def Event.use : Event ε → Use (Nat × Nat × ε)
  | .queued token target e => .put (token, target, e)
  | .resumed _ _ => .clear
  | .traced _ => .keep
  | .failed => .clear

/-- The exception that the next tealet raises, with its token and its target. -/
def outstanding (log : List (Event ε)) : Option (Nat × Nat × ε) :=
  content (log.map Event.use)

def answer (log : List (Event ε)) : Option (Nat × ε) :=
  (outstanding log).map fun x => (x.1, x.2.2)

structure Law (log : List (Event ε)) : Prop where
  distinct : (tokens log).Nodup
  answers : ∀ pre post k r, log = pre ++ .resumed k r :: post → r = answer pre

section Log

variable {log pre mid post : List (Event ε)} {x : Event ε} {token : Nat} {e : ε}

theorem tokens_append (log log' : List (Event ε)) : tokens (log ++ log') = tokens log ++ tokens log' := by
  simp [tokens]

theorem puts_map_use (log : List (Event ε)) :
    (puts (log.map Event.use)).map (fun x => x.1) = tokens log := by
  rw [puts, List.filterMap_map, List.map_filterMap]
  refine List.filterMap_congr ?_
  intro x _
  cases x with
  | queued token target e => rfl
  | resumed k r => rfl
  | traced k => rfl
  | failed => rfl

theorem outstanding_concat (log : List (Event ε)) (x : Event ε) :
    outstanding (log ++ [x]) = after (outstanding log) x.use := by
  simp [outstanding]

theorem answer_eq_some (h : answer log = some (token, e)) :
    ∃ target, outstanding log = some (token, target, e) := by
  rcases Option.map_eq_some_iff.1 h with ⟨⟨t, target, e'⟩, hout, heq⟩
  cases heq
  exact ⟨target, hout⟩

theorem outstanding_eq_some {target : Nat} (h : outstanding log = some (token, target, e)) :
    ∃ older mid, log = older ++ .queued token target e :: mid ∧ ∀ x ∈ mid, ∃ j, x = .traced j := by
  rcases content_eq_some h with ⟨pre, mid, hlog, hmid⟩
  rcases List.map_eq_append_iff.1 hlog with ⟨older, rest, rfl, rfl, hrest⟩
  rcases List.map_eq_cons_iff.1 hrest with ⟨x, later, rfl, hx, rfl⟩
  refine ⟨older, later, ?_, ?_⟩
  · cases x with
    | queued t target' e' =>
      cases hx
      rfl
    | _ => cases hx
  · intro y hy
    have hkeep := hmid y.use (List.mem_map_of_mem hy)
    cases y with
    | traced j => exact ⟨j, rfl⟩
    | _ => cases hkeep

theorem Law.nil : Law ([] : List (Event ε)) where
  distinct := List.nodup_nil
  answers := by
    intro pre post k r h
    simp at h

theorem Law.concat (h : Law log) (hx : ∀ k r, x = .resumed k r → r = answer log)
    (hfresh : ∀ t ∈ tokens [x], t ∉ tokens log) : Law (log ++ [x]) where
  distinct := by
    have hone : (tokens [x]).Nodup := by
      cases x with
      | queued token target e => exact List.nodup_singleton token
      | _ => exact List.nodup_nil
    rw [tokens_append]
    refine List.nodup_append.2 ⟨h.distinct, hone, ?_⟩
    rintro t ht t' ht' rfl
    exact hfresh t ht' ht
  answers := by
    intro pre post k r hlog
    -- an older event is judged by the same prefix as before
    rcases concat_eq_append_cons hlog with ⟨rfl, hxr⟩ | ⟨post', hlog'⟩
    · exact hx k r hxr
    · exact h.answers pre post' k r hlog'

theorem Law.delivered (h : Law log) : Delivered log where
  distinct := h.distinct
  raised := by
    intro pre post k token e hlog
    rcases answer_eq_some (h.answers pre post k _ hlog).symm with ⟨target, hout⟩
    exact ⟨target, outstanding_eq_some hout⟩
  next := by
    intro pre post token target e k r hlog
    have hr := h.answers (pre ++ [.queued token target e]) post k r (by simpa using hlog)
    rw [answer, outstanding_concat] at hr
    exact hr
  once := by
    intro pre mid post j k token e e' hlog
    have hfirst := h.answers pre _ j _ hlog
    have hsecond := h.answers (pre ++ .resumed j (some (token, e)) :: mid) post k (some (token, e'))
      (by simpa using hlog)
    rcases answer_eq_some hfirst.symm with ⟨target, hout⟩
    rcases answer_eq_some hsecond.symm with ⟨target', hout'⟩
    -- the token would have been queued before the first and again after it
    have hdistinct : (tokens (pre ++ .resumed j (some (token, e)) :: mid)).Nodup := by
      have hall := h.distinct
      rw [hlog, ← List.cons_append, ← List.append_assoc, tokens_append] at hall
      exact (List.nodup_append.1 hall).1
    rw [← puts_map_use, List.map_append, List.map_cons] at hdistinct
    rw [outstanding, List.map_append, List.map_cons] at hout'
    -- the first tealet has taken the exception out of the register
    exact content_ne_of_clear hdistinct hout hout' rfl

end Log

/-! ## The registry -/

/-- The exception that is pending, with its token. -/
def State.due (s : State ε) : Option (Nat × ε) :=
  s.pendingRecord.map fun r => (r.1, r.2.exc)

/-- The token that wrapper `k` has in flight. -/
def State.inflightOf (s : State ε) (k : Nat) : Option Nat :=
  (s.wrappers[k]?).bind fun w => w.inflight

structure Tracked (s : State ε) : Prop where
  due : s.due = answer s.log
  apart : ∀ (k t : Nat), s.inflightOf k = some t → s.pending ≠ some t
  inflight : ∀ (k t : Nat), s.inflightOf k = some t → t ≤ s.nextToken
  pending : ∀ t : Nat, s.pending = some t → t ≤ s.nextToken
  queued : ∀ t ∈ tokens s.log, t ≤ s.nextToken
  law : Law s.log

theorem Tracked.init : Tracked (Tealet.init : State ε) where
  due := rfl
  apart := fun _ _ _ h => nomatch h
  inflight := by
    intro k t h
    cases k with
    | zero => cases h
    | succ k => cases h
  pending := fun _ h => nomatch h
  queued := fun _ h => absurd h List.not_mem_nil
  law := .nil

section Rules

variable {s s' : State ε} {k : Nat}

theorem lookup_filter_ne {α : Type*} {t t' : Nat} (records : List (Nat × α)) (hne : t ≠ t') :
    (records.filter fun r => r.1 != t').lookup t = records.lookup t := by
  induction records with
  | nil => rfl
  | cons r records ih =>
    rcases r with ⟨u, a⟩
    by_cases hu : u = t'
    · subst hu
      have htu : (t == u) = false := by simpa using hne
      simp [List.lookup_cons, htu, ih]
    · simp [List.lookup_cons, hu, ih]

@[simp]
theorem registryPop_wrappers (s : State ε) (token : Option Nat) :
    (s.registryPop token).wrappers = s.wrappers := by
  cases token <;> rfl

@[simp]
theorem registryPop_pending (s : State ε) (token : Option Nat) :
    (s.registryPop token).pending = s.pending := by
  cases token <;> rfl

@[simp]
theorem registryPop_nextToken (s : State ε) (token : Option Nat) :
    (s.registryPop token).nextToken = s.nextToken := by
  cases token <;> rfl

@[simp]
theorem registryPop_log (s : State ε) (token : Option Nat) : (s.registryPop token).log = s.log := by
  cases token <;> rfl

theorem registryPop_due {token : Option Nat} (hne : ∀ t, token = some t → s.pending ≠ some t) :
    (s.registryPop token).due = s.due := by
  cases token with
  | none => rfl
  | some t' =>
    unfold State.due State.pendingRecord
    rw [registryPop_pending]
    cases hp : s.pending with
    | none => rfl
    | some t =>
      -- the record of the pending token is not the one that is popped
      have htt : t ≠ t' := by
        rintro rfl
        exact hne t rfl hp
      simp only [State.registryPop, lookup_filter_ne s.records htt]

theorem inflightOf_update {f : Wrapper ε → Wrapper ε} {j t : Nat}
    (h : (s.update k f).inflightOf j = some t) :
    ∃ w, s.wrappers[j]? = some w ∧ (w.inflight = some t ∨ (f w).inflight = some t) := by
  rw [State.inflightOf, update_getElem?] at h
  rcases Option.bind_eq_some_iff.1 h with ⟨w', hw', hin⟩
  rcases Option.map_eq_some_iff.1 hw' with ⟨w, hw, rfl⟩
  refine ⟨w, hw, ?_⟩
  split at hin
  · exact .inr hin
  · exact .inl hin

/-- The states have the same pending exception, and nothing else has come to be in flight. -/
structure SameQueue (s s' : State ε) : Prop where
  pending : s'.pending = s.pending
  due : s'.due = s.due
  nextToken : s'.nextToken = s.nextToken
  log : s'.log = s.log
  inflight : ∀ (k t : Nat), s'.inflightOf k = some t → s.inflightOf k = some t

theorem SameQueue.refl (s : State ε) : SameQueue s s :=
  ⟨rfl, rfl, rfl, rfl, fun _ _ h => h⟩

theorem SameQueue.trans {s₁ s₂ s₃ : State ε} (h : SameQueue s₁ s₂) (h' : SameQueue s₂ s₃) :
    SameQueue s₁ s₃ :=
  ⟨h'.pending.trans h.pending, h'.due.trans h.due, h'.nextToken.trans h.nextToken,
    h'.log.trans h.log, fun k t hk => h.inflight k t (h'.inflight k t hk)⟩

theorem Tracked.congr (h : Tracked s) (hs : SameQueue s s') : Tracked s' where
  due := by
    rw [hs.due, hs.log]
    exact h.due
  apart := by
    intro k t hk
    rw [hs.pending]
    exact h.apart k t (hs.inflight k t hk)
  inflight := by
    intro k t hk
    rw [hs.nextToken]
    exact h.inflight k t (hs.inflight k t hk)
  pending := by
    rw [hs.pending, hs.nextToken]
    exact h.pending
  queued := by
    rw [hs.log, hs.nextToken]
    exact h.queued
  law := hs.log.symm ▸ h.law

theorem sameQueue_update (s : State ε) (k : Nat) {f : Wrapper ε → Wrapper ε}
    (hf : ∀ w t, (f w).inflight = some t → w.inflight = some t) : SameQueue s (s.update k f) := by
  refine ⟨rfl, rfl, rfl, rfl, ?_⟩
  intro j t hj
  rcases inflightOf_update hj with ⟨w, hw, hin⟩
  exact Option.bind_eq_some_iff.2 ⟨w, hw, hin.elim id (hf w t)⟩

theorem sameQueue_popInflight (hapart : ∀ t, s.inflightOf k = some t → s.pending ≠ some t) :
    SameQueue s (s.popInflight k) := by
  unfold State.popInflight
  split
  · rename_i w hw
    have hpop : SameQueue s (s.registryPop w.inflight) := by
      refine ⟨registryPop_pending s _, registryPop_due ?_, registryPop_nextToken s _,
        registryPop_log s _, ?_⟩
      · intro t ht
        exact hapart t (by simpa [State.inflightOf, hw] using ht)
      · intro j t hj
        rw [State.inflightOf, registryPop_wrappers] at hj
        exact hj
    exact hpop.trans (sameQueue_update _ k fun _ _ h => nomatch h)
  · exact .refl s

/-! ## Exceptions that are queued, and tealets that resume -/

theorem popPending_inflightOf (s : State ε) (k : Nat) : s.popPending.inflightOf k = s.inflightOf k := by
  simp [State.popPending, State.inflightOf]

theorem sameQueue_popPending_popInflight (s : State ε) (k : Nat) :
    SameQueue s.popPending (s.popPending.popInflight k) :=
  sameQueue_popInflight fun _ _ h => nomatch h

theorem Tracked.queue (h : Tracked s) (k : Nat) (e : ε) (fallback : Option Nat) :
    Tracked (s.queue k e fallback) := by
  have hpop := sameQueue_popPending_popInflight s k
  have htoken : (s.popPending.popInflight k).nextToken = s.nextToken := by
    rw [hpop.nextToken]
    simp [State.popPending]
  have hlog : (s.popPending.popInflight k).log = s.log := by
    rw [hpop.log]
    simp [State.popPending]
  have hinflight : ∀ (j t : Nat), (s.queue k e fallback).inflightOf j = some t → t ≤ s.nextToken := by
    intro j t hj
    have hj' := hpop.inflight j t hj
    rw [popPending_inflightOf] at hj'
    exact h.inflight j t hj'
  have hnext : (s.queue k e fallback).nextToken = s.nextToken + 1 := congrArg Nat.succ htoken
  have hpending : (s.queue k e fallback).pending = some (s.nextToken + 1) :=
    congrArg (fun t => some (t + 1)) htoken
  have hgrown : (s.queue k e fallback).log = s.log ++ [.queued (s.nextToken + 1) k e] := by
    simp [State.queue, State.note, State.registrySet, htoken, hlog]
  refine ⟨?_, ?_, ?_, ?_, ?_, ?_⟩
  · rw [hgrown, answer, outstanding_concat]
    simp [State.due, State.pendingRecord, State.queue, State.note, State.registrySet, htoken, Event.use,
      after]
  · -- the new token is larger than every token in flight
    intro j t hj heq
    rw [hpending] at heq
    cases heq
    exact absurd (hinflight j _ hj) (Nat.not_succ_le_self _)
  · intro j t hj
    rw [hnext]
    exact Nat.le_succ_of_le (hinflight j t hj)
  · intro t ht
    rw [hpending] at ht
    cases ht
    exact Nat.le_of_eq hnext.symm
  · intro t ht
    rw [hgrown, tokens_append] at ht
    rw [hnext]
    rcases List.mem_append.1 ht with ht | ht
    · exact Nat.le_succ_of_le (h.queued t ht)
    · exact Nat.le_of_eq (List.mem_singleton.1 ht)
  · rw [hgrown]
    refine h.law.concat (fun _ _ hx => by cases hx) ?_
    intro t ht hold
    have heq := List.mem_singleton.1 ht
    subst heq
    exact absurd (h.queued _ hold) (Nat.not_succ_le_self _)

theorem Tracked.clear (h : Tracked s) {x : Event ε} (hx : x = .failed ∨ ∃ j, x = .resumed j s.due)
    (hlog : s'.log = s.log ++ [x]) (hpending : s'.pending = none) (hnext : s'.nextToken = s.nextToken)
    (hin : ∀ (j t : Nat), s'.inflightOf j = some t → s.inflightOf j = some t ∨ s.pending = some t) :
    Tracked s' := by
  have hnone : tokens [x] = [] := by
    rcases hx with rfl | ⟨j, rfl⟩
    · rfl
    · rfl
  refine ⟨?_, ?_, ?_, ?_, ?_, ?_⟩
  · have hout : outstanding (s.log ++ [x]) = none := by
      rw [outstanding_concat]
      rcases hx with rfl | ⟨j, rfl⟩
      · rfl
      · rfl
    rw [hlog, answer, hout]
    simp [State.due, State.pendingRecord, hpending]
  · intro j t _
    simp [hpending]
  · intro j t hj
    rw [hnext]
    rcases hin j t hj with hj | hj
    · exact h.inflight j t hj
    · exact h.pending t hj
  · intro t ht
    rw [hpending] at ht
    cases ht
  · rw [hlog, tokens_append, hnone, List.append_nil, hnext]
    exact h.queued
  · rw [hlog]
    refine h.law.concat ?_ ?_
    · intro k r hr
      rcases hx with rfl | ⟨j, rfl⟩
      · cases hr
      · cases hr
        exact h.due
    · intro t ht
      rw [hnone] at ht
      cases ht

theorem Tracked.popPending (h : Tracked s) {x : Event ε} (hx : x = .failed ∨ ∃ j, x = .resumed j s.due) :
    Tracked (s.popPending.note x) := by
  refine h.clear hx ?_ rfl ?_ ?_
  · simp [State.note, State.popPending]
  · simp [State.note, State.popPending]
  · intro j t hj
    rw [← popPending_inflightOf]
    exact .inl hj

theorem Tracked.takePending (h : Tracked s) : Tracked s.takePending :=
  h.popPending (.inr ⟨s.current, rfl⟩)

theorem keepInflight_inflightOf (token : Nat) (r : Record ε) {j t : Nat}
    (h : (s.popPending.keepInflight token r).inflightOf j = some t) :
    s.inflightOf j = some t ∨ t = token := by
  rw [← popPending_inflightOf]
  unfold State.keepInflight at h
  split at h
  · -- only the current tealet is given a token
    rcases inflightOf_update h with ⟨w, hw, hin | hin⟩
    · refine .inl ((sameQueue_popPending_popInflight s s.popPending.current).inflight j t ?_)
      exact Option.bind_eq_some_iff.2 ⟨w, hw, hin⟩
    · exact .inr (Option.some.inj hin).symm
  · exact .inl h

theorem keepInflight_queue (s : State ε) (token : Nat) (r : Record ε) :
    (s.popPending.keepInflight token r).pending = none ∧
      (s.popPending.keepInflight token r).nextToken = s.nextToken ∧
        (s.popPending.keepInflight token r).log = s.log := by
  have hpop := sameQueue_popPending_popInflight s s.popPending.current
  have hnext : s.popPending.nextToken = s.nextToken := by simp [State.popPending]
  have hlog : s.popPending.log = s.log := by simp [State.popPending]
  unfold State.keepInflight
  split
  · exact ⟨hpop.pending, hpop.nextToken.trans hnext, hpop.log.trans hlog⟩
  · exact ⟨rfl, hnext, hlog⟩

theorem pendingRecord_pending {token : Nat} {r : Record ε} (h : s.pendingRecord = some (token, r)) :
    s.pending = some token := by
  unfold State.pendingRecord at h
  split at h
  · rename_i t ht
    rcases Option.map_eq_some_iff.1 h with ⟨r', -, heq⟩
    cases heq
    exact ht
  · cases h

theorem Tracked.maybeRaisePending (h : Tracked s) : Tracked s.maybeRaisePending := by
  unfold State.maybeRaisePending
  split
  · rename_i token r hr
    rcases keepInflight_queue s token r with ⟨hpending, hnext, hlog⟩
    refine h.clear (.inr ⟨s.current, rfl⟩) ?_ hpending hnext ?_
    · simp [State.note, State.due, hr, hlog]
    · -- what is in flight now was so before, or was pending
      intro j t hj
      rcases keepInflight_inflightOf token r hj with hj | rfl
      · exact .inl hj
      · exact .inr (pendingRecord_pending hr)
  · rename_i hr
    have hdue : s.due = none := by simp [State.due, hr]
    exact h.popPending (.inr ⟨s.current, by rw [hdue]⟩)

theorem Tracked.traced (h : Tracked s) (k : Nat) : Tracked (s.note (.traced k)) where
  due := by
    show s.due = answer (s.log ++ [.traced k])
    rw [answer, outstanding_concat]
    exact h.due
  apart := h.apart
  inflight := h.inflight
  pending := h.pending
  queued := by
    show ∀ t ∈ tokens (s.log ++ [.traced k]), t ≤ s.nextToken
    rw [tokens_append]
    simpa [tokens] using h.queued
  law := h.law.concat (fun _ _ hx => nomatch hx) (fun _ ht => absurd ht List.not_mem_nil)

theorem Tracked.resume (h : Tracked s) (x : Transfer) : Tracked (s.resume x) := by
  cases x with
  | hookRaises => exact h.traced s.current
  | fails => exact h.maybeRaisePending
  | succeeds => exact h.maybeRaisePending

/-! ## Transfers -/

theorem sameQueue_restore (s : State ε) (k : Nat) : SameQueue s (s.restore k) := by
  unfold State.restore
  split
  · have hupdate := sameQueue_update s k
      (f := fun w => { w with tstate := { w.tstate with hasState := false } }) fun _ _ h => h
    exact hupdate.trans ⟨rfl, rfl, rfl, rfl, fun _ _ h => h⟩
  · exact .refl s

theorem sameQueue_save (s : State ε) : SameQueue s s.save :=
  sameQueue_update s s.current fun _ _ h => h

theorem sameQueue_setStatus (s : State ε) (k : Nat) (status : Status) :
    SameQueue s (s.setStatus k status) :=
  sameQueue_update s k fun _ _ h => h

theorem sameQueue_enter (s : State ε) (k : Nat) : SameQueue s ((s.restore k).setStatus k .run) :=
  (sameQueue_restore s k).trans (sameQueue_setStatus _ k .run)

theorem sameQueue_finish (s : State ε) : SameQueue s s.finish := by
  have hthread : SameQueue s { s with tstate := .setup } := ⟨rfl, rfl, rfl, rfl, fun _ _ h => h⟩
  exact (hthread.trans (sameQueue_save _)).trans (sameQueue_update _ _ fun _ _ h => h)

theorem Tracked.transferFails (h : Tracked s) : Tracked s.transferFails := by
  have hback := h.congr ((sameQueue_save s).trans (sameQueue_restore s.save s.current))
  exact hback.popPending (.inl rfl)

theorem Tracked.transfer (h : Tracked s) (k : Nat) : Tracked (s.transfer k) :=
  h.congr ((sameQueue_save s).trans (sameQueue_enter s.save k))

theorem Tracked.switch (h : Tracked s) (k : Nat) (panic : Bool) (x : Transfer) :
    Tracked (s.switch k panic x) := by
  unfold State.switch
  split
  · split
    · split
      · exact h.transferFails
      · split
        · exact (h.transfer k).takePending
        · exact (h.transfer k).resume x
    · exact h
  · exact h

theorem Tracked.run (h : Tracked s) (k : Nat) (callable : Bool) (x : Transfer) :
    Tracked (s.run k callable x) := by
  unfold State.run
  split
  · split
    · split
      · exact h.transferFails
      · split
        · exact (h.transfer k).resume x
        · have hstart : SameQueue s.save ({ s.save with current := k, tstate := .setup } : State ε) :=
            ⟨rfl, rfl, rfl, rfl, fun _ _ h => h⟩
          have hrun := ((sameQueue_save s).trans hstart).trans (sameQueue_setStatus _ k .run)
          exact (h.congr hrun).resume x
    · exact h
  · exact h

theorem Tracked.setPendingInner (h : Tracked s) {e : ε} {fallback : Option Nat}
    (hs : s.setPendingInner k e fallback = some s') : Tracked s' := by
  rcases setPendingInner_eq_some hs with ⟨fallback', rfl⟩
  exact h.queue k e fallback'

theorem Tracked.throw (h : Tracked s) (k : Nat) (e : ε) (fallback : Option Nat) (panic : Bool)
    (x : Transfer) : Tracked (s.throw k e fallback panic x) := by
  unfold State.throw
  split
  · split
    · rename_i s₁ hs₁
      exact (h.setPendingInner hs₁).switch k panic x
    · exact h
  · split
    · exact h
    · split
      · rename_i s₁ hs₁
        exact (h.setPendingInner hs₁).run k false x
      · exact h

/-! ## The end of a tealet -/

theorem Tracked.popInflight (h : Tracked s) (k : Nat) : Tracked (s.popInflight k) :=
  h.congr (sameQueue_popInflight (h.apart k))

theorem Tracked.resolveTarget (h : Tracked s) {w : Worker ε} {excTarget : Option Nat} :
    Tracked ((s.resolveTarget w excTarget).getD (0, s)).2 := by
  cases hr : s.resolveTarget w excTarget with
  | none => exact h
  | some r =>
    cases w with
    | returned target =>
      rcases Option.map_eq_some_iff.1 hr with ⟨k, -, rfl⟩
      exact h
    | raised e links =>
      unfold State.resolveTarget at hr
      dsimp only at hr
      split at hr
      · split at hr
        · -- `SystemExit` and `KeyboardInterrupt` are queued for the main tealet
          rename_i k s₁ _ hs₁
          cases hr
          exact h.setPendingInner hs₁
        · cases hr
      · rcases Option.map_eq_some_iff.1 hr with ⟨k, -, rfl⟩
        exact h

theorem Tracked.applyResolveTarget [DecidableEq ε] (h : Tracked s) (hook : Hook ε) :
    Tracked (s.applyResolveTarget hook).2 := by
  cases hook with
  | default w =>
    cases w with
    | returned target => exact h.resolveTarget
    | raised e links => exact (h.popInflight s.current).resolveTarget
  | override target => exact h

theorem Tracked.exitTo (h : Tracked s) (k : Nat) (x : Transfer) : Tracked (s.exitTo k x) := by
  have hleave := fun j => h.congr ((sameQueue_finish s).trans (sameQueue_enter s.finish j))
  unfold State.exitTo
  split
  · exact (hleave 0).takePending
  · exact (hleave k).resume x

/-! ## Runs -/

theorem sameQueue_append (s : State ε) {w : Wrapper ε} (hw : w.inflight = none) :
    SameQueue s { s with wrappers := s.wrappers ++ [w] } := by
  refine ⟨rfl, rfl, rfl, rfl, ?_⟩
  intro k t hk
  rcases Option.bind_eq_some_iff.1 hk with ⟨w', hw', hin⟩
  by_cases hlt : k < s.wrappers.length
  · rw [List.getElem?_append_left hlt] at hw'
    exact Option.bind_eq_some_iff.2 ⟨w', hw', hin⟩
  · rw [List.getElem?_append_right (Nat.le_of_not_lt hlt)] at hw'
    have heq := List.mem_singleton.1 (List.mem_of_getElem? hw')
    rw [heq, hw] at hin
    cases hin

theorem sameQueue_handle (s : State ε) (e : Option ε) : SameQueue s (s.handle e) := by
  unfold State.handle
  split
  · exact ⟨rfl, rfl, rfl, rfl, fun _ _ h => h⟩
  · exact sameQueue_update s _ fun _ _ h => h
  · exact ⟨rfl, rfl, rfl, rfl, fun _ _ h => h⟩

theorem Tracked.step [DecidableEq ε] {a : Act ε} (h : Tracked s) (hs : Tealet.step s a = some s') :
    Tracked s' := by
  cases step_move hs with
  | stays => exact h
  | adds => exact h.congr (sameQueue_append s rfl)
  | spawns _ status _ _ => exact h.congr (sameQueue_update s _ fun _ _ h => h)
  | duplicates _ _ => exact h.congr (sameQueue_append s rfl)
  | setsStub _ _ _ _ =>
    -- the new stub has nothing in flight
    exact h.congr (sameQueue_update s _ fun _ _ h => nomatch h)
  | primes _ _ _ => exact h.congr (sameQueue_setStatus s _ .primed)
  | queues _ k e fallback => exact h.queue k e fallback
  | switches _ k panic x => exact h.switch k panic x
  | runs _ k callable x => exact h.run k callable x
  | throws _ k e fallback panic x => exact h.throw k e fallback panic x
  | unwinds => exact h.popInflight s.current
  | exits _ hook x _ => exact (h.applyResolveTarget hook).exitTo _ x
  | pushes => exact h.congr ⟨rfl, rfl, rfl, rfl, fun _ _ h => h⟩
  | pops _ _ _ => exact h.congr ⟨rfl, rfl, rfl, rfl, fun _ _ h => h⟩
  | handles _ e => exact h.congr (sameQueue_handle s e)

end Rules

/-! ## What the log tells -/

section Told

variable {s s' : State ε} {k : Nat}

/-- A transfer has appended what it ended with. -/
def Appends (s : State ε) (x : Transfer) (s' : State ε) : Prop :=
  ∃ y, s'.log = s.log ++ [y] ∧ Ended s'.current x y

theorem Appends.congr {s₁ : State ε} {x : Transfer} (h : Appends s₁ x s') (hlog : s₁.log = s.log) :
    Appends s x s' := by
  rcases h with ⟨y, hy, hended⟩
  exact ⟨y, hlog ▸ hy, hended⟩

theorem appends_popPending (s : State ε) {x : Transfer} {y : Event ε} (hy : Ended s.current x y) :
    Appends s x (s.popPending.note y) :=
  ⟨y, congrArg (fun l => l ++ [y]) (registryPop_log s s.pending),
    (sameThread_popPending s).current.symm ▸ hy⟩

theorem appends_maybeRaisePending (s : State ε) {x : Transfer}
    (hx : ∀ r : Option (Nat × ε), Ended s.current x (.resumed s.current r)) :
      Appends s x s.maybeRaisePending := by
  have hcurrent := (sameThread_maybeRaisePending s).current
  unfold Appends
  rw [hcurrent]
  unfold State.maybeRaisePending
  split
  · rename_i token r hr
    exact ⟨_, congrArg (fun l => l ++ [_]) (keepInflight_queue s token r).2.2, hx _⟩
  · exact ⟨_, congrArg (fun l => l ++ [_]) (registryPop_log s s.pending), hx none⟩

theorem appends_resume (s : State ε) {x : Transfer} (hx : x ≠ .fails) : Appends s x (s.resume x) := by
  cases x with
  | fails => exact absurd rfl hx
  | succeeds => exact appends_maybeRaisePending s fun _ => rfl
  | hookRaises => exact ⟨_, rfl, rfl⟩

theorem appends_takePending (s : State ε) {x : Transfer} (hx : x ≠ .fails) : Appends s x s.takePending := by
  refine appends_popPending s ?_
  cases x with
  | fails => exact absurd rfl hx
  | succeeds => rfl
  | hookRaises => rfl

theorem log_transfer (s : State ε) (k : Nat) : (s.transfer k).log = s.log :=
  ((sameQueue_save s).trans (sameQueue_enter s.save k)).log

theorem appends_transferFails (s : State ε) : Appends s .fails s.transferFails :=
  (appends_popPending (x := .fails) (y := .failed) _ trivial).congr
    ((sameQueue_save s).trans (sameQueue_restore s.save s.current)).log

theorem appends_switch (hk : s.switchable k = true) (panic : Bool) (x : Transfer) :
    Appends s x (s.switch k panic x) := by
  rcases switchable_iff.1 hk with ⟨w, hw, hswitchable⟩
  unfold State.switch
  rw [hw]
  dsimp only
  rw [if_pos hswitchable]
  split
  · rename_i hfails
    exact hfails ▸ appends_transferFails s
  · rename_i hx
    split
    · exact (appends_takePending _ hx).congr (log_transfer s k)
    · exact (appends_resume _ hx).congr (log_transfer s k)

theorem startable_iff : s.startable k = true ↔
    ∃ w, s.wrappers[k]? = some w ∧ (w.status = .new || w.status = .stub) = true := by
  unfold State.startable
  cases s.wrappers[k]? with
  | none => simp
  | some w => simp

theorem appends_run (hk : s.startable k = true) {callable : Bool}
    (hp : (callable || s.pending.isSome) = true)
    (x : Transfer) : Appends s x (s.run k callable x) := by
  rcases startable_iff.1 hk with ⟨w, hw, hstatus⟩
  unfold State.run
  rw [hw]
  dsimp only
  rw [if_pos (Bool.and_eq_true_iff.2 ⟨hstatus, hp⟩)]
  split
  · rename_i hfails
    exact hfails ▸ appends_transferFails s
  · rename_i hx
    split
    · exact (appends_resume _ hx).congr (log_transfer s k)
    · exact (appends_resume _ hx).congr rfl

theorem log_queue (s : State ε) (k : Nat) (e : ε) (fallback : Option Nat) :
    ∃ token, (s.queue k e fallback).log = s.log ++ [.queued token k e] :=
  ⟨_, congrArg (fun l => l ++ [_])
    ((sameQueue_popPending_popInflight s k).log.trans (registryPop_log s s.pending))⟩

theorem setPendingInner_of_accepts {fallback : Option Nat} (h : s.accepts k fallback = true) (e : ε) :
    ∃ fallback', s.setPendingInner k e fallback = some (s.queue k e fallback') := by
  rw [State.accepts, Bool.and_eq_true, Bool.or_eq_true, switchable_iff, startable_iff] at h
  have hw : ∃ w, s.wrappers[k]? = some w ∧
      (w.status.switchable || w.status = .new || w.status = .stub) = true := by
    rcases h.1 with ⟨w, hw, hstatus⟩ | ⟨w, hw, hstatus⟩
    · exact ⟨w, hw, by simp [hstatus]⟩
    · exact ⟨w, hw, by rw [Bool.or_assoc, hstatus, Bool.or_true]⟩
  rcases hw with ⟨w, hw, hstatus⟩
  unfold State.setPendingInner
  rw [hw]
  dsimp only
  rw [if_pos hstatus]
  split
  · exact ⟨none, rfl⟩
  · rename_i hne
    have hall : fallback.all s.switchable = true := by simpa [hne] using h.2
    exact ⟨fallback, if_pos hall⟩

theorem SameThread.can (h : SameThread s s') (k : Nat) :
    (s.switchable k = true → s'.switchable k = true) ∧ (s.startable k = true → s'.startable k = true) := by
  constructor
  · intro hk
    rcases switchable_iff.1 hk with ⟨w, hw, hstatus⟩
    rcases h.symm.wrapper hw with ⟨w', hw', heq, -⟩
    exact switchable_iff.2 ⟨w', hw', heq ▸ hstatus⟩
  · intro hk
    rcases startable_iff.1 hk with ⟨w, hw, hstatus⟩
    rcases h.symm.wrapper hw with ⟨w', hw', heq, -⟩
    exact startable_iff.2 ⟨w', hw', heq ▸ hstatus⟩

theorem told_throw {e : ε} {fallback : Option Nat} {panic : Bool}
    (h : (s.accepts k fallback && (s.switchable k || !panic)) = true) (x : Transfer) :
    ∃ token y, (s.throw k e fallback panic x).log = s.log ++ [.queued token k e, y] ∧
      Ended (s.throw k e fallback panic x).current x y := by
  rcases Bool.and_eq_true_iff.1 h with ⟨haccepts, hcan⟩
  rcases setPendingInner_of_accepts haccepts e with ⟨fallback', hset⟩
  rcases log_queue s k e fallback' with ⟨token, hlog⟩
  have hqueue := (sameThread_queue s k e fallback').can k
  have happends : Appends (s.queue k e fallback') x (s.throw k e fallback panic x) := by
    unfold State.throw
    rw [hset]
    by_cases hk : s.switchable k = true
    · rw [if_pos hk]
      exact appends_switch (hqueue.1 hk) panic x
    · have hpanic : panic = false := by simpa [hk] using hcan
      have hstart : s.startable k = true := by
        have hor := (Bool.and_eq_true_iff.1 haccepts).1
        simpa [hk] using hor
      rw [if_neg hk, hpanic, if_neg Bool.false_ne_true]
      exact appends_run (hqueue.2 hstart) rfl x
  rcases happends with ⟨y, hy, hended⟩
  refine ⟨token, y, ?_, hended⟩
  rw [hy, hlog, List.append_assoc]
  rfl

/-- An exit may queue `SystemExit` or `KeyboardInterrupt` for the main tealet. -/
theorem log_applyResolveTarget [DecidableEq ε] (s : State ε) (hook : Hook ε) :
    ∃ mid, (s.applyResolveTarget hook).2.log = s.log ++ mid ∧
      ∀ z ∈ mid, ∃ token k e, z = .queued token k e := by
  have hnone : ∀ {s' : State ε}, s'.log = s.log →
      ∃ mid, s'.log = s.log ++ mid ∧ ∀ z ∈ mid, ∃ token k e, z = .queued token k e := fun hlog =>
    ⟨[], hlog.trans (List.append_nil _).symm, fun z hz => absurd hz List.not_mem_nil⟩
  cases hook with
  | override target => exact hnone rfl
  | default w =>
    cases w with
    | returned target =>
      unfold State.applyResolveTarget State.resolveTarget
      dsimp only
      cases s.exitTarget target <;> exact hnone rfl
    | raised e links =>
      have hpop : (s.popInflight s.current).log = s.log := by
        unfold State.popInflight
        split
        · exact registryPop_log s _
        · rfl
      unfold State.applyResolveTarget State.resolveTarget State.takeRedirectTarget
      dsimp only
      split
      · split
        · rename_i j s₁ _ hs₁
          rcases setPendingInner_eq_some hs₁ with ⟨fallback', rfl⟩
          rcases log_queue (s.popInflight s.current) 0 e fallback' with ⟨token, hlog⟩
          exact ⟨[.queued token 0 e], hlog.trans (congrArg (fun l => l ++ [_]) hpop), fun z hz =>
            ⟨token, 0, e, List.mem_singleton.1 hz⟩⟩
        · exact hnone hpop
      · cases (s.popInflight s.current).exitTarget _ <;> exact hnone hpop

theorem appends_exitTo (s : State ε) (k : Nat) (x : Transfer) :
    Appends s (if x = .fails then .succeeds else x) (s.exitTo k x) := by
  have hlog := fun j => ((sameQueue_finish s).trans (sameQueue_enter s.finish j)).log
  unfold State.exitTo
  by_cases hx : x = .fails
  · rw [if_pos hx, if_pos hx]
    exact (appends_takePending _ (fun h => by cases h)).congr (hlog 0)
  · rw [if_neg hx, if_neg hx]
    exact (appends_resume _ hx).congr (hlog k)

theorem Appends.ended {x x' : Transfer} (h : Appends s x s') (hx : some x = some x') :
    ∃ mid y, s'.log = s.log ++ (mid ++ [y]) ∧ Ended s'.current x' y ∧
      ∀ z ∈ mid, ∃ token k e, z = .queued token k e := by
  cases hx
  rcases h with ⟨y, hy, hended⟩
  exact ⟨[], y, hy, hended, fun z hz => absurd hz List.not_mem_nil⟩

/-- Each step tells what it has queued, and each transfer how it has ended. -/
theorem step_told [DecidableEq ε] {a : Act ε} (hs : Tealet.step s a = some s') : Told s a s' := by
  cases a with
  | setPending k e fallback =>
    cases hs
    refine ⟨fun j e' hq => ?_, nofun⟩
    rcases Option.ite_none_right_eq_some.1 hq with ⟨haccepts, heq⟩
    cases heq
    rcases setPendingInner_of_accepts haccepts e with ⟨fallback', hset⟩
    rcases log_queue s k e fallback' with ⟨token, hlog⟩
    exact ⟨token, [], by rw [hset]; exact hlog⟩
  | switch k panic x =>
    cases hs
    refine ⟨nofun, fun x' hx => ?_⟩
    rcases Option.ite_none_right_eq_some.1 hx with ⟨hk, hx'⟩
    exact (appends_switch hk panic x).ended hx'
  | run k callable x =>
    cases hs
    refine ⟨nofun, fun x' hx => ?_⟩
    rcases Option.ite_none_right_eq_some.1 hx with ⟨hk, hx'⟩
    rcases Bool.and_eq_true_iff.1 hk with ⟨hstart, hp⟩
    exact (appends_run hstart hp x).ended hx'
  | throw k e fallback panic x =>
    cases hs
    refine ⟨fun j e' hq => ?_, fun x' hx => ?_⟩
    · rcases Option.ite_none_right_eq_some.1 hq with ⟨hok, heq⟩
      cases heq
      rcases told_throw hok x with ⟨token, y, hlog, -⟩
      exact ⟨token, [y], hlog⟩
    · rcases Option.ite_none_right_eq_some.1 hx with ⟨hok, heq⟩
      cases heq
      rcases told_throw (e := e) hok x with ⟨token, y, hlog, hended⟩
      exact ⟨[.queued token k e], y, hlog, hended, fun z hz => ⟨token, k, e, List.mem_singleton.1 hz⟩⟩
  | exit hook x =>
    unfold Tealet.step at hs
    rcases Option.ite_none_left_eq_some.1 hs with ⟨hmain, heq⟩
    cases heq
    refine ⟨nofun, fun x' hx => ?_⟩
    rcases Option.ite_none_left_eq_some.1 hx with ⟨-, hx'⟩
    cases hx'
    rcases log_applyResolveTarget s hook with ⟨mid, hmid, hqueued⟩
    rcases appends_exitTo (s.applyResolveTarget hook).2 (s.applyResolveTarget hook).1 x with ⟨y, hy, hended⟩
    exact ⟨mid, y, by rw [hy, hmid, List.append_assoc], hended, hqueued⟩
  | _ => exact ⟨nofun, nofun⟩

end Told

/-- In every run, an exception that is queued is raised once, where a tealet resumes next, unless a
newer one has replaced it or a transfer has failed.  Each call that queues an exception does so, and
each transfer that does not fail ends with a tealet that looks for one. -/
theorem pending_exception_delivered [DecidableEq ε] (acts : List (Act ε)) :
    Always step (fun s => Delivered s.log) (init : State ε) acts ∧
      ∀ (s s' : State ε) (a : Act ε), step s a = some s' → Told s a s' :=
  ⟨always_of_invariant (fun _ h => h.law.delivered) (fun _ _ _ h hs => h.step hs) acts init Tracked.init,
    fun _ _ _ hs => step_told hs⟩

/-- The exception is raised in the tealet that it was queued for, which runs next. -/
theorem pending_exception_delivered_next : ∃ s s' : State Nat,
    exec step init [.create, .setPending 1 7 none] = some s ∧ step s (.run 1 true .succeeds) = some s' ∧
      s'.log = [.queued 1 1 7, .resumed 1 (some (1, 7))] ∧ Delivered s'.log ∧
        Told s (.run 1 true .succeeds) s' := by
  have hall := pending_exception_delivered (ε := Nat) [.create, .setPending 1 7 none, .run 1 true .succeeds]
  exact ⟨_, _, rfl, rfl, rfl, hall.1.exec rfl, hall.2 _ _ _ rfl⟩

/-- An exception is queued for one tealet, and another one runs first: it is raised there. -/
theorem raised_in_another_tealet :
    ¬ Always step (fun s => OwnTarget s.log) (init : State Nat)
        [.create, .create, .setPending 1 7 none, .run 2 true .succeeds] := by
  intro h
  have hlog := h.mono fun s (hs : OwnTarget s.log) => hs 1 1 7 2
  revert hlog
  decide

end Pytealet.Tealet
