import Pytealet.Io.ChainCancel

/-!
# ChainRuns — what an `IOWaitChain` promises over a whole run

The ownership of the resources and the bookkeeping of a cancel hold together over every run in which
a leg is started, and a completion stored, only while no leg is open.
-/

namespace Pytealet.Io.WaitChain

open Lib Lib.Transition

namespace State

variable {s s' : State}

theorem Linear.unsettled {a : Action} (hlinear : s.Linear a) : s.Unsettled a := by
  cases a with
  | check i => exact hlinear
  | _ => trivial

namespace Closing

theorem step {a : Action} (hC : s.Closing) (hok : s.Linear a) (hs : step s a = some s') : s'.Closing := by
  cases Move.of_step hs with
  | begin hlegs => exact hC.begin hlegs _
  | bind hl hbound => exact hC.bind hl hbound
  | succeed hl => exact hC.complete hl rfl (.inr rfl) _
  | fail hl => exact hC.complete hl rfl (.inl rfl) s.tokens
  | follow ht hframe => exact hC.follow ht hframe hok _
  | check ht hframe => exact (hC.plainTask ht (by simp [hframe, Frame.leg?]) _).ledger _ s.disposed
  | @settle i t ht hframe =>
    refine (hC.store hok (hC.ne_nil_of_task ht)).plainTask (t := t) ?_ (by simp [hframe, Frame.leg?]) _
    rw [tasks_store]
    exact ht
  | submit ht hframe hl hphase => exact hC.submit ht hframe hl hphase
  | overtaken ht hframe hl hclosed => exact hC.submitted ht hframe hl (.inl ⟨hclosed, rfl⟩)
  | submitted ht hframe hl hopen => exact hC.submitted ht hframe hl (.inr ⟨hopen, rfl⟩)
  | submitRaises ht hframe hl => exact hC.submitRaises ht hframe hl
  | cancel ht hframe hl => exact hC.cancel ht hframe hl _
  | drop ht hframe hl => exact hC.cleanup ht (.inr hframe) hl _
  | finish ht hframe => exact hC.finish ht hframe hok _
  | back ht hframe => exact (hC.erase ht (by simp [hframe, Frame.leg?])).ledger s.cleaned _
  | raise ht hframe => exact (hC.plainTask ht (by simp [hframe, Frame.leg?]) _).ledger s.cleaned _
  | cleanup ht hframe hl => exact hC.cleanup ht (.inl hframe) hl _
  | @err i t ht hframe =>
    rw [← tasks_store s .error]
    refine (hC.store hok (hC.ne_nil_of_task ht)).erase (t := t) ?_ (by simp [hframe, Frame.leg?])
    rw [tasks_store]
    exact ht
  | park hbound hwaiter => exact hC.waiting hbound (by simp [hwaiter]) (by simp) (by simp)
  | answered hwaiter hstored => exact hC.release (.inr hstored) (by simp [hwaiter])
  | wake hwaiter hstored =>
    have hbound := hC.bound_of_waiter (by simp [hwaiter])
    refine (hC.release (.inr hstored) (by simp [hwaiter])).waiting hbound ?_ (by simp) (by simp)
    change ∀ l, s.waiter ≠ _ ∧ s.waiter ≠ _
    simp [hwaiter]
  | interrupt hwaiter =>
    exact hC.waiting (hC.bound_of_waiter (by simp [hwaiter])) (by simp [hwaiter]) (by simp) (by simp)
  | close hwaiter hnone => exact hC.close hnone hwaiter
  | closeStored hwaiter hstored =>
    exact hC.waiting (hC.bound_of_waiter (by simp [hwaiter])) (by simp [hwaiter]) (by simp) fun _ =>
      .inr hstored
  | takeNone hwaiter =>
    have hover := hC.ends (.inl ⟨none, hwaiter⟩)
    exact hC.waiting (hC.bound_of_waiter (by simp [hwaiter])) (by simp [hwaiter]) (by simp) fun _ => hover
  | take hwaiter hl => exact hC.take hwaiter hl
  | cancelTail hwaiter hl => exact hC.cancelTail hwaiter hl
  | leave hwaiter =>
    have hover := hC.ends (.inr (.inr (.inl hwaiter)))
    have hbound := hC.bound_of_waiter (by simp [hwaiter])
    have hidle : ({ s.release with waiter := .idle } : State).Closing := by
      refine (hC.release hover (by simp [hwaiter])).waiting hbound ?_ (by simp) (by simp)
      change ∀ l, s.waiter ≠ _ ∧ s.waiter ≠ _
      simp [hwaiter]
    exact hidle.interrupted rfl hover rfl hbound

theorem init : init.Closing where
  stored := rfl
  leg := by simp [WaitChain.init]
  tracked := fun _ _ => rfl
  start := fun _ => ⟨rfl, rfl, rfl⟩
  unbound := fun _ => ⟨rfl, rfl, rfl⟩
  taking := nofun
  ends := by simp [WaitChain.init]
  released := nofun

end Closing

/-- What the chain promises. -/
structure Sound (s : State) : Prop where
  /-- one completion at most -/
  stored : s.stored ≤ 1
  /-- after an interrupted `wait`, what is in flight has been cancelled, or `follow` is going to -/
  cancelled : s.interrupted = true → ∀ l leg, s.legs[l]? = some leg → leg.phase.armed = true →
    leg.cancelled = true ∨ s.closed = true ∧ (s.doing (.submitting l) ∨ s.doing (.cancelling l))
  /-- every resource is with one hook, one leg or the result, or has been dropped once -/
  one : ∀ x, x < s.tokens → s.holders x = 1
  /-- a leg that is over has handed on what it owned, or its `on_cleanup` is about to drop it -/
  ended : ∀ l leg, s.legs[l]? = some leg → leg.phase = .completed ∨ leg.phase = .failed →
    leg.owned = [] ∨ s.doing (.failing l) ∨ s.doing (.dropping l)

theorem Closing.cancelled {l : Nat} {leg : Leg} (hC : s.Closing) (hint : s.interrupted = true)
    (hl : s.legs[l]? = some leg) (harmed : leg.phase.armed = true) :
    leg.cancelled = true ∨ s.closed = true ∧ (s.doing (.submitting l) ∨ s.doing (.cancelling l)) := by
  have hL := hC.leg l leg hl
  cases hcancelled : leg.cancelled with
  | true => exact .inl rfl
  | false =>
    have hopen : leg.isOpen = true := by simp [Leg.isOpen, harmed, hcancelled]
    have hnone := hL.unsettled hopen
    have hclosed : s.closed = true := by
      simpa [hnone] using hC.ends (.inr (.inr (.inr hint)))
    rcases hC.released hint with ⟨-, hnot, hnot'⟩
    rcases hL.closing hopen hclosed with h | h | h | ⟨h, -⟩ | h
    · simp [h, Phase.armed] at harmed
    · exact .inr ⟨hclosed, .inl h⟩
    · exact .inr ⟨hclosed, .inr h⟩
    · exact absurd h (hnot l)
    · exact absurd h (hnot' l)

theorem Closing.sound (hC : s.Closing) (hA : s.Accounted) : s.Sound where
  stored := by
    rw [hC.stored]
    split_ifs <;> simp
  cancelled := fun hint _ _ hl harmed => hC.cancelled hint hl harmed
  one := fun x hx => (hA.one x).trans (if_pos hx)
  ended := fun l leg hl hphase => (hC.leg l leg hl).ended hphase

end State

/-! ## Runs -/

theorem wait_chain_ownership (as : List Action) (hlinear : Along step State.Linear init as) :
    Always step State.Sound init as :=
  always_of_along (I := fun s : State => s.Closing ∧ s.Accounted) (fun _ hI => hI.1.sound hI.2)
    (fun _ _ _ hI hok hs => ⟨hI.1.step hok hs, hI.2.step hok.unsettled hs⟩) as init
    ⟨State.Closing.init, State.Accounted.init⟩ hlinear

/-- The `wait` is interrupted while the hook of the first leg is inside `follow`: the second leg is
submitted all the same, with the resource of the first, and cancelled by `follow`. -/
def interruptedFollow : List Action :=
  [.begin 0, .bind, .wait, .succeed 0 1 1, .follow 0 1, .interrupt, .close, .submit 0,
    .submitted 0, .take, .leave,
    .cancel 0, .back 0, .fail 1 1, .cleanup 0, .err 0]

theorem wait_chain_ownership_interruptedFollow :
    Played step (Always step State.Sound) init interruptedFollow :=
  ⟨wait_chain_ownership interruptedFollow (by decide), by decide⟩

/-- The hook of the first leg starts the second and then raises, so an error is stored; the second
leg completes, and its `follow` is refused. -/
def raiseAfterFollow : List Action :=
  [.begin 0, .bind, .succeed 0 1 1, .follow 0 1, .submit 0, .submitted 0, .raise 0, .err 0, .succeed 1 1 0,
    .follow 0 1, .check 0, .settle 0, .back 0]

/-- Nobody has the resource of the first leg any more, and no `on_cleanup` has dropped it. -/
theorem refused_follow_loses_resource :
    ∃ s, exec step init raiseAfterFollow = some s ∧ s.tasks = [] ∧ ¬ s.Sound := by
  refine ⟨_, rfl, rfl, fun hsound => ?_⟩
  have hone := hsound.one 0 (by decide)
  revert hone
  decide

end Pytealet.Io.WaitChain
