import Pytealet.Selector.Streams

/-!
# Uring.PollMany — `poll_many` without multishot poll

Where the kernel has no multishot poll, `UringProactor.poll_many` prepares one poll after the other:
the handler of a leg's completion delivers, and then prepares the next leg.  The holder's
`completion` links to the leg in flight; `stop_poll` replaces it by `_URING_ABANDONED_LEG`, which
tells the handler to prepare no further leg, and delivers the end itself.

The handler runs on a service thread and `stop_poll` on any other, or in the stream's callback.
They meet under `_multi_leg_lock`; what the handler delivers, and its updates of `_next_index`, are
outside of it.  A stream is modelled with everything that is done for it, one access to the holder a
step; a callback that calls `stop_poll` is a handler that does not go on meanwhile.
-/

namespace Pytealet
namespace Uring
namespace PollMany

open Lib Lib.Transition
open Selector (Delivery)

/-- `holder.completion`. -/
inductive Link
  | none
  | armed
  | abandoned
deriving DecidableEq, Repr

/-- The leg of the stream.  Only `poll_many` and the handler of the leg before prepare a leg, so
there is one at most. -/
inductive Leg
  | none
  | inFlight
  /-- its handler has read `_next_index` -/
  | read (ok : Bool) (index : Nat)
  /-- the handler has found that the leg is not abandoned -/
  | chosen (index : Nat)
  /-- the callback runs -/
  | emitting (index : Nat)
  /-- the handler is going to take the lock -/
  | deciding (ok : Bool) (index : Nat)
  /-- `prepare_poll` has raised -/
  | unlinking
  /-- the handler is going to deliver an error, at the index it has read or at `_next_index` -/
  | failing (index : Option Nat)
deriving DecidableEq, Repr

structure State where
  submitted : Bool := false
  /-- a leg has been prepared and is not linked yet; `_multi_leg_lock` is held -/
  arming : Bool := false
  link : Link := .none
  leg : Leg := .none
  nextIndex : Nat := 0
  /-- stops that have claimed the leg and have not read `_next_index` yet -/
  claims : Nat := 0
  /-- stops that are going to deliver the end, with the index they have read -/
  ends : List Nat := []
  deliveries : List Delivery := []
deriving DecidableEq, Repr

def State.deliver (s : State) (d : Delivery) : State :=
  { s with deliveries := s.deliveries ++ [d] }

inductive Action
  /-- `poll_many` prepares the first leg -/
  | submit
  /-- `holder.completion = …`, and the lock is released -/
  | link
  /-- the completion of the leg, with `res ≥ 0` or not -/
  | complete (ok : Bool)
  | test
  | emit
  /-- the callback returns -/
  | back
  /-- the callback raises, and nothing handles it -/
  | throw
  /-- the handler's locked section; `prepared` says whether `prepare_poll` returns -/
  | decide (prepared : Bool)
  | unlink
  | fail
  /-- the locked section of `stop_poll` -/
  | stop
  | readIndex
  /-- `_finish_with_terminal_delivery` of one of the stops -/
  | finish (i : Nat)
deriving DecidableEq, Repr

def step (s : State) : Action → Option State
  | .submit =>
    if s.submitted then none else some { s with submitted := true, leg := .inFlight, arming := true }
  | .link => if s.arming then some { s with link := .armed, arming := false } else none
  | .complete ok =>
    match s.leg with
    | .inFlight => some { s with leg := .read ok s.nextIndex }
    | _ => none
  | .test =>
    match s.leg with
    | .read ok i => some { s with leg := if ok && s.link ≠ .abandoned then .chosen i else .deciding ok i }
    | _ => none
  | .emit =>
    match s.leg with
    | .chosen i => some ({ s with leg := .emitting i }.deliver ⟨i, true⟩)
    | _ => none
  | .back =>
    match s.leg with
    | .emitting i => some { s with nextIndex := i + 1, leg := .deciding true i }
    | _ => none
  | .throw =>
    match s.leg with
    | .emitting _ => some { s with leg := .none }
    | _ => none
  | .decide prepared =>
    match s.leg with
    | .deciding ok i =>
      if s.arming then none
      else if s.link = .abandoned then some { s with link := .none, leg := .none }
      else if !ok then some { s with leg := .failing (some i) }
      else if prepared then some { s with leg := .inFlight, arming := true }
      else some { s with leg := .unlinking }
    | _ => none
  | .unlink =>
    match s.leg with
    | .unlinking => some { s with link := .none, leg := .failing none }
    | _ => none
  | .fail =>
    match s.leg with
    | .failing i => some ({ s with leg := .none }.deliver ⟨i.getD s.nextIndex, false⟩)
    | _ => none
  | .stop =>
    if s.arming then none
    else if s.link = .armed then some { s with link := .abandoned, claims := s.claims + 1 }
    else some s
  | .readIndex =>
    match s.claims with
    | 0 => none
    | n + 1 => some { s with claims := n, ends := s.ends ++ [s.nextIndex] }
  | .finish i =>
    match s.ends[i]? with
    | none => none
    | some index => some ({ s with ends := s.ends.eraseIdx i }.deliver ⟨index, false⟩)

def init : State := {}

/-! ## Where a stream stands -/

abbrev Going (next : Nat) (ds : List Delivery) : Prop :=
  Ordinal.Going Delivery.index Delivery.more 0 next ds

abbrev Over (ds : List Delivery) : Prop :=
  Ordinal.Over Delivery.index Delivery.more 0 ds

namespace Leg

/-- The leg goes on with the stream, unless it is abandoned. -/
def live : Leg → Bool
  | .inFlight | .read _ _ | .chosen _ | .emitting _ | .deciding _ _ => true
  | _ => false

/-- The handler is bound to deliver at the index it has read, or delivers there. -/
def delivering : Leg → Bool
  | .chosen _ | .emitting _ => true
  | _ => false

/-- What has been delivered by the handlers up to this one. -/
def Progress (next : Nat) (ds : List Delivery) : Leg → Prop
  | .emitting i => i = next ∧ Going (next + 1) ds
  | .read _ i | .chosen i | .failing (some i) => i = next ∧ Going next ds
  | .deciding ok i => (ok = false → i = next) ∧ Going next ds
  | _ => Going next ds

theorem Progress.going {leg : Leg} {next : Nat} {ds : List Delivery} (hp : leg.Progress next ds)
    (hquiet : leg.delivering = false) : Going next ds := by
  cases leg with
  | emitting i => cases hquiet
  | failing i =>
    cases i with
    | none => exact hp
    | some i => exact hp.2
  | read ok i | chosen i | deciding ok i => exact hp.2
  | _ => exact hp

end Leg

namespace State

/-- The handlers go on with the stream. -/
structure Goes (s : State) : Prop where
  claims : s.claims = 0
  ends : s.ends = []
  link : s.link ≠ .abandoned
  leg : s.leg ≠ .none
  arming : s.arming = true → s.leg.live = true
  progress : s.leg.Progress s.nextIndex s.deliveries

/-- A leg that is not going to be followed by another. -/
structure Last (s : State) : Prop where
  arming : s.arming = false
  leg : s.leg.live = true ∧ s.link = .abandoned ∨ s.leg = .none

/-- A stop is going to deliver the end. -/
structure Stopped (s : State) : Prop extends s.Last where
  owed : s.claims = 1 ∧ s.ends = [] ∧ s.leg.Progress s.nextIndex s.deliveries ∨
    s.claims = 0 ∧ s.ends = [s.nextIndex] ∧ s.leg.delivering = false ∧
      s.leg.Progress s.nextIndex s.deliveries

/-- The end has been delivered. -/
structure Ended (s : State) : Prop extends s.Last where
  claims : s.claims = 0
  ends : s.ends = []
  quiet : s.leg.delivering = false
  closed : Over s.deliveries

inductive Phase (s : State) : Prop
  | fresh : s = init → Phase s
  | goes : s.submitted = true → s.Goes → Phase s
  | stopped : s.submitted = true → s.Stopped → Phase s
  | ended : s.submitted = true → s.Ended → Phase s

/-- No stop comes after the handler has found that the leg ends the stream; the end is not delivered
while the handler delivers; and the callback does not raise. -/
def Undisturbed (s : State) : Action → Prop
  | .stop => s.link = .armed → s.leg.live = true
  | .readIndex => s.leg.delivering = false
  | .throw => False
  | _ => True

instance (s : State) (a : Action) : Decidable (s.Undisturbed a) := by
  unfold Undisturbed
  split <;> infer_instance

namespace Phase

variable {s s' : State} {a : Action}

theorem goes_step (hsub : s.submitted = true) (hg : s.Goes) (hok : s.Undisturbed a)
    (hs : step s a = some s') : s'.Phase := by
  have hprogress := hg.progress
  cases a with
  | submit => simp [step, hsub] at hs
  | link =>
    simp only [step] at hs
    split at hs
    · rename_i harming
      cases hs
      exact .goes hsub ⟨hg.claims, hg.ends, nofun, hg.leg, nofun, hprogress⟩
    · cases hs
  | complete ok =>
    simp only [step] at hs
    split at hs
    · rename_i hleg
      cases hs
      rw [hleg] at hprogress
      exact .goes hsub ⟨hg.claims, hg.ends, hg.link, nofun, fun _ => rfl, rfl, hprogress⟩
    · cases hs
  | test =>
    simp only [step] at hs
    split at hs
    · rename_i ok i hleg
      cases hs
      rw [hleg] at hprogress
      rcases hprogress with ⟨rfl, hgoing⟩
      split
      · exact .goes hsub ⟨hg.claims, hg.ends, hg.link, nofun, fun _ => rfl, rfl, hgoing⟩
      · exact .goes hsub ⟨hg.claims, hg.ends, hg.link, nofun, fun _ => rfl, fun _ => rfl, hgoing⟩
    · cases hs
  | emit =>
    simp only [step] at hs
    split at hs
    · rename_i i hleg
      cases hs
      rw [hleg] at hprogress
      rcases hprogress with ⟨rfl, hgoing⟩
      have hpush : Going (s.nextIndex + 1) (s.deliveries ++ [⟨s.nextIndex, true⟩]) := hgoing.push rfl rfl
      exact .goes hsub ⟨hg.claims, hg.ends, hg.link, nofun, fun _ => rfl, rfl, hpush⟩
    · cases hs
  | back =>
    simp only [step] at hs
    split at hs
    · rename_i i hleg
      cases hs
      rw [hleg] at hprogress
      rcases hprogress with ⟨rfl, hgoing⟩
      exact .goes hsub ⟨hg.claims, hg.ends, hg.link, nofun, fun _ => rfl, nofun, hgoing⟩
    · cases hs
  | throw => exact hok.elim
  | decide prepared =>
    simp only [step] at hs
    split at hs
    · rename_i ok i hleg
      rw [hleg] at hprogress
      rcases hprogress with ⟨hindex, hgoing⟩
      split_ifs at hs with harming hlink hok hprepared
      · cases hs
        exact absurd hlink hg.link
      · cases hs
        have hi : i = s.nextIndex := hindex (by simpa using hok)
        exact .goes hsub ⟨hg.claims, hg.ends, hg.link, nofun, fun ha => absurd ha harming, hi, hgoing⟩
      · cases hs
        exact .goes hsub ⟨hg.claims, hg.ends, hg.link, nofun, fun _ => rfl, hgoing⟩
      · cases hs
        exact .goes hsub ⟨hg.claims, hg.ends, hg.link, nofun, fun ha => absurd ha harming, hgoing⟩
    · cases hs
  | unlink =>
    simp only [step] at hs
    split at hs
    · rename_i hleg
      cases hs
      rw [hleg] at hprogress
      have harming : s.arming = true → Leg.live (.failing none) = true := fun ha => by
        have hlive := hg.arming ha
        rw [hleg] at hlive
        cases hlive
      exact .goes hsub ⟨hg.claims, hg.ends, nofun, nofun, harming, hprogress⟩
    · cases hs
  | fail =>
    simp only [step] at hs
    split at hs
    · rename_i i hleg
      cases hs
      rw [hleg] at hprogress
      have harming : s.arming = false := by
        cases ha : s.arming with
        | false => rfl
        | true =>
          have hlive := hg.arming ha
          rw [hleg] at hlive
          cases hlive
      refine .ended hsub ⟨⟨harming, .inr rfl⟩, hg.claims, hg.ends, rfl, ?_⟩
      cases i with
      | none => exact hprogress.close (d := ⟨s.nextIndex, false⟩) rfl rfl
      | some i => exact hprogress.2.close (d := ⟨i, false⟩) hprogress.1 rfl
    · cases hs
  | stop =>
    simp only [step] at hs
    split_ifs at hs with harming hlink
    · cases hs
      have hidle : s.arming = false := by simpa using harming
      exact .stopped hsub ⟨⟨hidle, .inl ⟨hok hlink, rfl⟩⟩, .inl ⟨by simp [hg.claims], hg.ends, hprogress⟩⟩
    · cases hs
      exact .goes hsub hg
  | readIndex => simp [step, hg.claims] at hs
  | finish i => simp [step, hg.ends] at hs

/-- What an abandoned leg still does: a delivery that was bound to happen, and no other. -/
structure Winds (s s' : State) : Prop where
  last : s'.Last
  submitted : s'.submitted = s.submitted
  claims : s'.claims = s.claims
  ends : s'.ends = s.ends
  progress : s.leg.Progress s.nextIndex s.deliveries → s'.leg.Progress s'.nextIndex s'.deliveries
  quiet : s.leg.delivering = false →
    s'.leg.delivering = false ∧ s'.nextIndex = s.nextIndex ∧ s'.deliveries = s.deliveries

theorem winds (hlast : s.Last) (hok : s.Undisturbed a) (hs : step s a = some s')
    (hsub : s.submitted = true) (hread : a ≠ .readIndex) (hfinish : ∀ i, a ≠ .finish i) : Winds s s' := by
  have hidle := hlast.arming
  have habandoned : s.leg.live = true → s.link = .abandoned := fun hlive =>
    hlast.leg.elim And.right fun hnone => by rw [hnone] at hlive; cases hlive
  have hnot : ∀ leg : Leg, s.leg = leg → leg.live = false → leg ≠ .none → False := by
    intro leg hleg hdead hsome
    rcases hlast.leg with ⟨hlive, -⟩ | hnone
    · rw [hleg, hdead] at hlive
      cases hlive
    · exact hsome (hleg.symm.trans hnone)
  cases a with
  | submit => simp [step, hsub] at hs
  | link => simp [step, hidle] at hs
  | complete ok =>
    simp only [step] at hs
    split at hs
    · rename_i hleg
      cases hs
      have hlink := habandoned (by rw [hleg]; rfl)
      refine ⟨⟨hidle, .inl ⟨rfl, hlink⟩⟩, rfl, rfl, rfl, fun hp => ?_, fun _ => ⟨rfl, rfl, rfl⟩⟩
      rw [hleg] at hp
      exact ⟨rfl, hp⟩
    · cases hs
  | test =>
    simp only [step] at hs
    split at hs
    · rename_i ok i hleg
      have hlink := habandoned (by rw [hleg]; rfl)
      simp only [hlink, ne_eq, not_true_eq_false, decide_false, Bool.and_false, Bool.false_eq_true,
        if_false, Option.some.injEq] at hs
      subst hs
      refine ⟨⟨hidle, .inl ⟨rfl, rfl⟩⟩, rfl, rfl, rfl, fun hp => ?_, fun _ => ⟨rfl, rfl, rfl⟩⟩
      rw [hleg] at hp
      exact ⟨fun _ => hp.1, hp.2⟩
    · cases hs
  | emit =>
    simp only [step] at hs
    split at hs
    · rename_i i hleg
      cases hs
      have hlink := habandoned (by rw [hleg]; rfl)
      refine ⟨⟨hidle, .inl ⟨rfl, hlink⟩⟩, rfl, rfl, rfl, fun hp => ?_, fun hquiet => ?_⟩
      · rw [hleg] at hp
        rcases hp with ⟨rfl, hgoing⟩
        have hpush : Going (s.nextIndex + 1) (s.deliveries ++ [⟨s.nextIndex, true⟩]) := hgoing.push rfl rfl
        exact ⟨rfl, hpush⟩
      · rw [hleg] at hquiet
        cases hquiet
    · cases hs
  | back =>
    simp only [step] at hs
    split at hs
    · rename_i i hleg
      cases hs
      have hlink := habandoned (by rw [hleg]; rfl)
      refine ⟨⟨hidle, .inl ⟨rfl, hlink⟩⟩, rfl, rfl, rfl, fun hp => ?_, fun hquiet => ?_⟩
      · rw [hleg] at hp
        rcases hp with ⟨rfl, hgoing⟩
        exact ⟨nofun, hgoing⟩
      · rw [hleg] at hquiet
        cases hquiet
    · cases hs
  | throw => exact hok.elim
  | decide prepared =>
    simp only [step] at hs
    split at hs
    · rename_i ok i hleg
      have hlink := habandoned (by rw [hleg]; rfl)
      simp only [hidle, hlink, Bool.false_eq_true, if_false, if_true, Option.some.injEq] at hs
      subst hs
      refine ⟨⟨rfl, .inr rfl⟩, rfl, rfl, rfl, fun hp => ?_, fun _ => ⟨rfl, rfl, rfl⟩⟩
      rw [hleg] at hp
      exact hp.2
    · cases hs
  | unlink =>
    simp only [step] at hs
    split at hs
    · rename_i hleg
      exact (hnot _ hleg rfl nofun).elim
    · cases hs
  | fail =>
    simp only [step] at hs
    split at hs
    · rename_i i hleg
      exact (hnot _ hleg rfl nofun).elim
    · cases hs
  | stop =>
    simp only [step] at hs
    rw [if_neg (by simp [hidle])] at hs
    split_ifs at hs with hlink
    · -- a stop would have to come before the leg has ended, and the leg is abandoned
      have hlive := hok hlink
      rw [habandoned hlive] at hlink
      cases hlink
    · cases hs
      exact ⟨hlast, rfl, rfl, rfl, id, fun hquiet => ⟨hquiet, rfl, rfl⟩⟩
  | readIndex => exact absurd rfl hread
  | finish i => exact absurd rfl (hfinish i)

theorem stopped_step (hsub : s.submitted = true) (hst : s.Stopped) (hok : s.Undisturbed a)
    (hs : step s a = some s') : s'.Phase := by
  cases a with
  | readIndex =>
    simp only [step] at hs
    split at hs
    · cases hs
    · rename_i n hclaims
      cases hs
      rcases hst.owed with ⟨hone, hends, hprogress⟩ | ⟨hzero, -⟩
      · have hn : n = 0 := by omega
        refine .stopped hsub ⟨⟨hst.arming, hst.leg⟩, .inr ⟨hn, ?_, hok, hprogress⟩⟩
        simp [hends]
      · omega
  | finish i =>
    simp only [step] at hs
    split at hs
    · cases hs
    · rename_i index hget
      cases hs
      rcases hst.owed with ⟨-, hends, -⟩ | ⟨hzero, hends, hquiet, hprogress⟩
      · simp [hends] at hget
      · rw [hends] at hget
        rcases List.getElem?_eq_some_iff.1 hget with ⟨hi, hindex⟩
        have hi0 : i = 0 := by simpa using hi
        subst hi0
        have heq : s.nextIndex = index := hindex
        subst heq
        refine .ended hsub ⟨⟨hst.arming, hst.leg⟩, hzero, ?_, hquiet, ?_⟩
        · change s.ends.eraseIdx 0 = []
          rw [hends]
          rfl
        · exact (hprogress.going hquiet).close (d := ⟨s.nextIndex, false⟩) rfl rfl
  | _ =>
    have hw := winds hst.toLast hok hs hsub (by rintro ⟨⟩) (by rintro _ ⟨⟩)
    refine .stopped (hw.submitted.trans hsub) ⟨hw.last, ?_⟩
    rcases hst.owed with ⟨hone, hends, hprogress⟩ | ⟨hzero, hends, hquiet, hprogress⟩
    · exact .inl ⟨hw.claims.trans hone, hw.ends.trans hends, hw.progress hprogress⟩
    · rcases hw.quiet hquiet with ⟨hquiet', hnext, -⟩
      refine .inr ⟨hw.claims.trans hzero, ?_, hquiet', hw.progress hprogress⟩
      rw [hw.ends, hends, hnext]

theorem ended_step (hsub : s.submitted = true) (he : s.Ended) (hok : s.Undisturbed a)
    (hs : step s a = some s') : s'.Phase := by
  cases a with
  | readIndex => simp [step, he.claims] at hs
  | finish i => simp [step, he.ends] at hs
  | _ =>
    have hw := winds he.toLast hok hs hsub nofun nofun
    rcases hw.quiet he.quiet with ⟨hquiet, -, hds⟩
    refine .ended (hw.submitted.trans hsub) ⟨hw.last, hw.claims.trans he.claims, hw.ends.trans he.ends,
      hquiet, ?_⟩
    rw [hds]
    exact he.closed

theorem fresh_step (hs : step init a = some s') : s'.Phase := by
  cases a with
  | submit =>
    cases hs
    exact .goes rfl ⟨rfl, rfl, nofun, nofun, fun _ => rfl, Ordinal.Going.nil⟩
  | stop =>
    cases hs
    exact .fresh rfl
  | _ => cases hs

theorem step (hp : s.Phase) (hok : s.Undisturbed a) (hs : step s a = some s') : s'.Phase := by
  cases hp with
  | fresh heq =>
    subst heq
    exact fresh_step hs
  | goes hsub hg => exact goes_step hsub hg hok hs
  | stopped hsub hst => exact stopped_step hsub hst hok hs
  | ended hsub he => exact ended_step hsub he hok hs

end Phase

/-- The stream numbers its deliveries from zero without a gap, and ends once. -/
structure Ordinals (s : State) : Prop where
  consecutive : s.deliveries.map Delivery.index = List.range' 0 s.deliveries.length
  distinct : (s.deliveries.map Delivery.index).Nodup
  terminalLast : ∀ d ∈ s.deliveries.dropLast, d.more = true
  /-- with no leg left and no stop in progress, the stream has been ended -/
  ended : s.submitted = true → s.leg = .none → s.claims = 0 → s.ends = [] →
    ∃ d, s.deliveries.getLast? = some d ∧ d.more = false

theorem Ordinals.of_going {s : State} {next : Nat} (hg : Going next s.deliveries)
    (hnot : s.submitted = true → s.leg = .none → s.claims = 0 → s.ends = [] → False) : s.Ordinals :=
  ⟨hg.consecutive, hg.consecutive.nodup, hg.before, fun h₁ h₂ h₃ h₄ => (hnot h₁ h₂ h₃ h₄).elim⟩

theorem Ordinals.of_progress {s : State} (hp : s.leg.Progress s.nextIndex s.deliveries)
    (hnot : s.submitted = true → s.leg = .none → s.claims = 0 → s.ends = [] → False) : s.Ordinals := by
  cases hd : s.leg.delivering with
  | false => exact .of_going (hp.going hd) hnot
  | true =>
    cases hleg : s.leg with
    | chosen i | emitting i =>
      rw [hleg] at hp
      exact .of_going hp.2 hnot
    | _ =>
      rw [hleg] at hd
      cases hd

theorem Phase.ordinals {s : State} (hp : s.Phase) : s.Ordinals := by
  cases hp with
  | fresh heq =>
    subst heq
    exact .of_going Ordinal.Going.nil nofun
  | goes hsub hg => exact .of_progress hg.progress fun _ hnone _ _ => hg.leg hnone
  | stopped hsub hst =>
    rcases hst.owed with ⟨hone, -, hprogress⟩ | ⟨-, hends, -, hprogress⟩
    · exact .of_progress hprogress fun _ _ hzero _ => by omega
    · refine .of_progress hprogress fun _ _ _ hnil => ?_
      rw [hends] at hnil
      cases hnil
  | ended hsub he =>
    exact ⟨he.closed.consecutive, he.closed.consecutive.nodup, he.closed.before,
      fun _ _ _ _ => he.closed.last⟩

end State
end PollMany
end Uring

/-! ## Runs of both proactors -/

open Lib.Transition

theorem stream_ordinals (as : List Selector.Action) (bs : List Uring.PollMany.Action) :
    (Along Selector.step Selector.State.Undisturbed Selector.init as →
      Always Selector.step Selector.State.Ordinals Selector.init as) ∧
    (Along Uring.PollMany.step Uring.PollMany.State.Undisturbed Uring.PollMany.init bs →
      Always Uring.PollMany.step Uring.PollMany.State.Ordinals Uring.PollMany.init bs) := by
  constructor
  · intro hok
    exact always_of_along (I := Selector.State.StreamInv) (fun _ hI => hI.ordinals)
      (fun _ _ _ hI hok hs => hI.step hok hs) as Selector.init Selector.State.StreamInv.init hok
  · intro hok
    exact always_of_along (I := Uring.PollMany.State.Phase) (fun _ hp => hp.ordinals)
      (fun _ _ _ hp hok hs => hp.step hok hs) bs Uring.PollMany.init (.fresh rfl) hok

section Runs

open Selector Uring.PollMany

/-- A stream on descriptor 4 delivers once, and is stopped from its callback if `reentrant`,
otherwise after its step. -/
def selectorStop (reentrant : Bool) : List Selector.Action :=
  let h : Handle := ⟨0, .pollMany 4 ⟨true, false⟩⟩
  .submit h.op ⟨[], .finished⟩ false ::
    if reentrant then [.stop h, .go {} false, .go {} false, .go {} false]
    else [.back, .go {} false, .go {} false, .stop h, .go {} false, .go {} false, .loose 0 {}]

def emulatedStop (reentrant : Bool) : List Uring.PollMany.Action :=
  [.submit, .link, .complete true, .test, .emit] ++
    if reentrant then [.stop, .readIndex, .finish 0] else
      [.back, .stop, .readIndex, .finish 0, .decide true]

theorem stream_ordinals_stopped :
    Played Selector.step (Always Selector.step Selector.State.Ordinals) Selector.init (selectorStop false) ∧
      Played Uring.PollMany.step (Always Uring.PollMany.step Uring.PollMany.State.Ordinals)
        Uring.PollMany.init
        (emulatedStop false) :=
  have h := stream_ordinals (selectorStop false) (emulatedStop false)
  ⟨⟨h.1 (by decide), by decide⟩, h.2 (by decide), by decide⟩

/-- A callback that stops its own stream gets the end at the index it is being given. -/
theorem stop_in_callback_repeats_index :
    (∃ s, exec Selector.step Selector.init (selectorStop true) = some s ∧ ¬ s.Ordinals) ∧
      ∃ s, exec Uring.PollMany.step Uring.PollMany.init (emulatedStop true) = some s ∧ ¬ s.Ordinals := by
  refine ⟨⟨_, rfl, fun hord => ?_⟩, ⟨_, rfl, fun hord => ?_⟩⟩
  · have hnodup := hord.distinct ⟨0, .pollMany 4 ⟨true, false⟩⟩ rfl
    revert hnodup
    decide
  · have hnodup := hord.distinct
    revert hnodup
    decide

end Runs

end Pytealet
