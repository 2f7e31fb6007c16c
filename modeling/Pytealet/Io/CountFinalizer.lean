import Pytealet.Lib.Transition
import Mathlib.Data.Finset.Interval
import Mathlib.Data.Int.Interval
import Mathlib.Data.List.Perm.Basic

/-!
# CountFinalizer — the end of a stream whose deliveries are not put in order

`CountFinalizer.deliver` calls back at once, in whatever order the deliveries come, and counts the
callbacks that have ended.  The delivery without `more` tells how many there will be.  The callbacks
may raise, and may deliver again; a step is what happens between two points where a callback gets or
gives control.

`arrived`, `observed` and `finishes` are kept for the statements only; the first two are written by
the step, which hands a delivery over and sees the callbacks end.
-/

namespace Pytealet.Io.CountFinalizer

open Lib Lib.Transition List

variable {α : Type*}

/-- `MultishotDelivery`; the value and the exception are not read. -/
structure Delivery (α : Type*) where
  index : Int
  more : Bool
  fields : α
  deriving DecidableEq, Repr

/-- A call of a callback that has not ended. -/
inductive Frame (α : Type*)
  | callback (d : Delivery α)
  | finish
  deriving DecidableEq, Repr

structure Finalizer (α : Type*) where
  start : Int
  /-- `_finish` is given. -/
  hasFinish : Bool
  deliveredCount : Nat := 0
  maxCount : Option Int := none
  finalDelivery : Option (Delivery α) := none
  /-- the innermost first -/
  frames : List (Frame α) := []
  arrived : List (Delivery α) := []
  /-- the deliveries whose callback has ended -/
  observed : List (Delivery α) := []
  /-- what `_finish` has been called with -/
  finishes : List (Delivery α) := []

namespace Finalizer

/-- `deliver`, to the callback; an index below the first one is an `AssertionError`. -/
def deliver (s : Finalizer α) (d : Delivery α) : Finalizer α :=
  if d.index < s.start then s
  else
    let s := { s with frames := .callback d :: s.frames }
    if d.more then s else { s with maxCount := some (d.index - s.start + 1), finalDelivery := some d }

/-- The `finally` of `deliver`, whether or not the callback has raised. -/
def observe (s : Finalizer α) (outer : List (Frame α)) : Finalizer α :=
  let s := { s with deliveredCount := s.deliveredCount + 1, frames := outer }
  if s.maxCount = some (s.deliveredCount : Int) then
    match s.finalDelivery with
    | none => s
    | some final =>
      if s.hasFinish then { s with frames := .finish :: outer, finishes := s.finishes ++ [final] }
      else { s with finalDelivery := none }
  else s

end Finalizer

inductive Action (α : Type*)
  | deliver (d : Delivery α)
  /-- the innermost call of a callback returns, or raises -/
  | ends (raised : Bool)
  deriving DecidableEq, Repr

def step (s : Finalizer α) : Action α → Option (Finalizer α)
  | .deliver d => some ({ s with arrived := s.arrived ++ [d] }.deliver d)
  | .ends raised =>
    match s.frames with
    | [] => none
    | .callback d :: outer => some ({ s with observed := s.observed ++ [d] }.observe outer)
    | .finish :: outer =>
      some { s with frames := outer, finalDelivery := if raised then s.finalDelivery else none }

theorem step_ends {s s' : Finalizer α} {raised : Bool} (hs : step s (.ends raised) = some s') :
    (∃ d outer, s.frames = .callback d :: outer ∧
      s' = { s with observed := s.observed ++ [d] }.observe outer) ∨
      ∃ outer, s.frames = .finish :: outer ∧
        s' = { s with frames := outer, finalDelivery := if raised then s.finalDelivery else none } := by
  unfold step at hs
  cases hframes : s.frames with
  | nil => simp [hframes] at hs
  | cons frame outer =>
    cases frame with
    | callback d =>
      simp only [hframes, Option.some.injEq] at hs
      exact Or.inl ⟨d, outer, rfl, hs.symm⟩
    | finish =>
      simp only [hframes, Option.some.injEq] at hs
      exact Or.inr ⟨outer, rfl, hs.symm⟩

/-! ## The specification -/

/-- What is delivered in a run. -/
def Action.delivered : Action α → List (Delivery α)
  | .deliver d => [d]
  | .ends _ => []

/-- The deliveries of a stream that ends at `terminal`: their indices are different, and the one
without `more` is the last one. -/
def Regular (terminal : Int) (s : Finalizer α) : Action α → Prop
  | .deliver d => s.start ≤ d.index ∧ d.index ≤ terminal ∧ (d.more = false ↔ d.index = terminal) ∧
      d.index ∉ s.arrived.map Delivery.index
  | .ends _ => True

instance (terminal : Int) (s : Finalizer α) (a : Action α) : Decidable (Regular terminal s a) := by
  unfold Regular
  split <;> infer_instance

/-- Every index up to the terminal one has been observed. -/
def Complete (terminal : Int) (s : Finalizer α) : Prop :=
  ∀ i, s.start ≤ i → i ≤ terminal → i ∈ s.observed.map Delivery.index

structure Finishes (terminal : Int) (s : Finalizer α) : Prop where
  /-- A delivery whose callback is over has been observed, once. -/
  observed : s.frames = [] → s.observed.Perm s.arrived
  once : Complete terminal s → ∃ d ∈ s.arrived, d.index = terminal ∧ s.finishes = [d]
  notBefore : ¬ Complete terminal s → s.finishes = []

/-! ## The invariant -/

def Frame.delivery : Frame α → List (Delivery α)
  | .callback d => [d]
  | .finish => []

/-- The deliveries whose callback has not ended. -/
def Finalizer.running (s : Finalizer α) : List (Delivery α) :=
  s.frames.flatMap Frame.delivery

/-- The count is of what was observed, and `finish` waits for all up to the terminal index. -/
structure Inv (terminal : Int) (s : Finalizer α) : Prop where
  given : s.hasFinish = true
  ledger : s.arrived.Perm (s.observed ++ s.running)
  distinct : (s.arrived.map Delivery.index).Nodup
  within : ∀ d ∈ s.arrived, s.start ≤ d.index ∧ d.index ≤ terminal
  count : s.deliveredCount = s.observed.length
  max : terminal ∈ s.arrived.map Delivery.index → s.maxCount = some (terminal - s.start + 1)
  unknown : terminal ∉ s.arrived.map Delivery.index → s.maxCount = none
  final : ∀ d ∈ s.arrived, d.index = terminal → ¬ Complete terminal s → s.finalDelivery = some d
  finishing : .finish ∈ s.frames → Complete terminal s
  once : Complete terminal s → ∃ d ∈ s.arrived, d.index = terminal ∧ s.finishes = [d]
  notBefore : ¬ Complete terminal s → s.finishes = []

namespace Inv

variable {terminal : Int} {s : Finalizer α}

theorem init {start : Int} (hle : start ≤ terminal) :
    Inv terminal ({ start := start, hasFinish := true } : Finalizer α) := by
  have hnot : ¬ Complete terminal ({ start := start, hasFinish := true } : Finalizer α) := fun hcomplete =>
    absurd (hcomplete start le_rfl hle) not_mem_nil
  exact ⟨rfl, .refl _, nodup_nil, fun _ hd => absurd hd not_mem_nil, rfl,
    fun hin => absurd hin not_mem_nil, fun _ => rfl, fun _ hd => absurd hd not_mem_nil,
    fun hin => absurd hin not_mem_nil, fun hcomplete => absurd hcomplete hnot, fun _ => rfl⟩

theorem finishes (h : Inv terminal s) : Finishes terminal s where
  observed := by
    intro hrest
    have hledger := h.ledger
    unfold Finalizer.running at hledger
    rw [hrest, flatMap_nil, append_nil] at hledger
    exact hledger.symm
  once := h.once
  notBefore := h.notBefore

end Inv

theorem complete_iff_length {start terminal : Int} (hle : start ≤ terminal)
    {l : List Int} (hnodup : l.Nodup)
    (hwithin : ∀ i ∈ l, start ≤ i ∧ i ≤ terminal) :
    (∀ i, start ≤ i → i ≤ terminal → i ∈ l) ↔ terminal - start + 1 = (l.length : Int) := by
  have hsub : l.toFinset ⊆ Finset.Icc start terminal := fun i hi =>
    Finset.mem_Icc.2 (hwithin i (mem_toFinset.1 hi))
  have hcard : l.toFinset.card = l.length := toFinset_card_of_nodup hnodup
  have hIcc : ((Finset.Icc start terminal).card : Int) = terminal - start + 1 := by
    rw [Int.card_Icc]
    omega
  constructor
  · intro hall
    have heq : l.toFinset = Finset.Icc start terminal := by
      apply Finset.Subset.antisymm hsub
      intro i hi
      exact mem_toFinset.2 (hall i (Finset.mem_Icc.1 hi).1 (Finset.mem_Icc.1 hi).2)
    rw [← hIcc, ← heq, hcard]
  · intro hlength i hlow hhigh
    have heq : l.toFinset = Finset.Icc start terminal := by
      apply Finset.eq_of_subset_of_card_le hsub
      rw [hcard]
      omega
    exact mem_toFinset.1 (heq ▸ Finset.mem_Icc.2 ⟨hlow, hhigh⟩)

namespace Inv

variable {terminal : Int} {s : Finalizer α}

theorem deliver (h : Inv terminal s) {d : Delivery α} (hr : Regular terminal s (.deliver d)) :
    Inv terminal ({ s with arrived := s.arrived ++ [d] }.deliver d) := by
  rcases hr with ⟨hlow, hhigh, hmore, hnew⟩
  have hledger : (s.arrived ++ [d]).Perm (s.observed ++ (d :: s.running)) :=
    (perm_append_singleton d s.arrived).trans ((h.ledger.cons d).trans perm_middle.symm)
  have hdistinct : ((s.arrived ++ [d]).map Delivery.index).Nodup := by
    rw [map_append, nodup_append_comm]
    exact nodup_cons.2 ⟨hnew, h.distinct⟩
  have hwithin : ∀ e ∈ s.arrived ++ [d], s.start ≤ e.index ∧ e.index ≤ terminal := by
    intro e he
    rcases mem_append.1 he with he | he
    · exact h.within e he
    · rw [mem_singleton.1 he]
      exact ⟨hlow, hhigh⟩
  have hfinishing : .finish ∈ Frame.callback d :: s.frames → Complete terminal s := by
    intro hin
    rcases mem_cons.1 hin with hin | hin
    · cases hin
    · exact h.finishing hin
  have honce : Complete terminal s → ∃ e ∈ s.arrived ++ [d], e.index = terminal ∧ s.finishes = [e] := by
    intro hcomplete
    rcases h.once hcomplete with ⟨e, he, hrest⟩
    exact ⟨e, mem_append_left _ he, hrest⟩
  unfold Finalizer.deliver
  rw [if_neg (not_lt.2 hlow)]
  dsimp only
  by_cases hlast : d.index = terminal
  · -- the last delivery tells how many there are
    rw [if_neg (by simp [hmore.2 hlast])]
    refine ⟨h.given, hledger, hdistinct, hwithin, h.count, fun _ => ?_, fun hout => ?_,
      fun e he heq _ => ?_, hfinishing,
      honce, h.notBefore⟩
    · rw [hlast]
    · refine absurd ?_ hout
      rw [← hlast]
      exact mem_map_of_mem (mem_append_right _ (mem_singleton.2 rfl))
    · rcases mem_append.1 he with he | he
      · rw [hlast, ← heq] at hnew
        exact absurd (mem_map_of_mem he) hnew
      · rw [mem_singleton.1 he]
  · have hmore' : d.more = true := by
      cases hd : d.more with
      | false => exact absurd (hmore.1 hd) hlast
      | true => rfl
    have hmem : terminal ∈ (s.arrived ++ [d]).map Delivery.index ↔
        terminal ∈ s.arrived.map Delivery.index := by
      rw [map_append, mem_append, map_singleton, mem_singleton]
      exact ⟨fun hor => hor.resolve_right fun heq => hlast heq.symm, Or.inl⟩
    rw [if_pos hmore']
    refine ⟨h.given, hledger, hdistinct, hwithin, h.count, fun hin => h.max (hmem.1 hin),
      fun hout => h.unknown fun hin => hout (hmem.2 hin), fun e he heq hnot => ?_,
      hfinishing, honce, h.notBefore⟩
    rcases mem_append.1 he with he | he
    · exact h.final e he heq hnot
    · rw [mem_singleton.1 he] at heq
      exact absurd heq hlast

theorem observe (h : Inv terminal s) (hle : s.start ≤ terminal) {d : Delivery α} {outer : List (Frame α)}
    (hframes : s.frames = .callback d :: outer) :
      Inv terminal ({ s with observed := s.observed ++ [d] }.observe outer) := by
  have hrunning : s.running = d :: outer.flatMap Frame.delivery := by
    unfold Finalizer.running
    rw [hframes]
    rfl
  have hledger : s.arrived.Perm ((s.observed ++ [d]) ++ outer.flatMap Frame.delivery) := by
    rw [append_assoc, singleton_append, ← hrunning]
    exact h.ledger
  have hnodup := (hledger.map Delivery.index).nodup_iff.1 h.distinct
  rw [map_append] at hnodup
  have hdistinct := (nodup_append.1 hnodup).1
  have hcomplete := complete_iff_length hle hdistinct (by
    intro i hi
    rcases mem_map.1 hi with ⟨e, he, rfl⟩
    exact h.within e (hledger.mem_iff.2 (mem_append_left _ he)))
  have hlength : (((s.observed ++ [d]).map Delivery.index).length : Int) =
      (s.deliveredCount + 1 : Nat) := by
    rw [length_map, length_append, length_singleton, h.count]
  rw [hlength] at hcomplete
  -- the index of `d` has not been observed before
  have hbefore : ¬ Complete terminal s := by
    intro hall
    have hd := h.within d (hledger.mem_iff.2 (mem_append_left _ (mem_append_right _ (mem_singleton.2 rfl))))
    rw [map_append] at hdistinct
    exact disjoint_of_nodup_append hdistinct (hall d.index hd.1 hd.2) (mem_singleton.2 rfl)
  have hout : .finish ∉ outer := by
    intro hin
    refine hbefore (h.finishing ?_)
    rw [hframes]
    exact mem_cons_of_mem _ hin
  have hcount : s.deliveredCount + 1 = (s.observed ++ [d]).length := by
    rw [length_append, length_singleton, h.count]
  unfold Finalizer.observe
  dsimp only
  by_cases hall : terminal - s.start + 1 = ((s.deliveredCount + 1 : Nat) : Int)
  · have hobserved := hcomplete.2 hall
    rcases mem_map.1 (hobserved terminal hle le_rfl) with ⟨e, he, heq⟩
    have harrived : e ∈ s.arrived := hledger.mem_iff.2 (mem_append_left _ he)
    have hin : terminal ∈ s.arrived.map Delivery.index := heq ▸ mem_map_of_mem harrived
    rw [if_pos ((h.max hin).trans (congrArg some hall)), h.final e harrived heq hbefore]
    dsimp only
    rw [if_pos h.given]
    refine ⟨h.given, hledger, h.distinct, h.within, hcount, h.max, h.unknown,
      fun _ _ _ hnot => absurd hobserved hnot,
      fun _ => hobserved, fun _ => ⟨e, harrived, heq, ?_⟩, fun hnot => absurd hobserved hnot⟩
    show s.finishes ++ [e] = [e]
    rw [h.notBefore hbefore]
    rfl
  · have hnot : ∀ {P : Prop}, (∀ i, s.start ≤ i → i ≤ terminal →
        i ∈ (s.observed ++ [d]).map Delivery.index) → P :=
      fun hobserved => absurd (hcomplete.1 hobserved) hall
    have hmax : s.maxCount ≠ some ((s.deliveredCount + 1 : Nat) : Int) := by
      intro hmax
      by_cases hin : terminal ∈ s.arrived.map Delivery.index
      · exact hall (Option.some.inj ((h.max hin).symm.trans hmax))
      · rw [h.unknown hin] at hmax
        cases hmax
    rw [if_neg hmax]
    exact ⟨h.given, hledger, h.distinct, h.within, hcount, h.max, h.unknown, fun e he heq _ =>
      h.final e he heq hbefore,
      fun hin => absurd hin hout, fun hobserved => hnot hobserved, fun _ => h.notBefore hbefore⟩

theorem finish (h : Inv terminal s) {outer : List (Frame α)} (hframes : s.frames = .finish :: outer)
    (raised : Bool) :
    Inv terminal { s with frames := outer, finalDelivery := if raised then s.finalDelivery else none } := by
  have hcomplete : Complete terminal s := by
    apply h.finishing
    rw [hframes]
    exact mem_cons_self
  have hledger := h.ledger
  unfold Finalizer.running at hledger
  rw [hframes] at hledger
  exact ⟨h.given, hledger, h.distinct, h.within, h.count, h.max, h.unknown,
    fun _ _ _ hnot => absurd hcomplete hnot,
    fun _ => hcomplete, h.once, h.notBefore⟩

/-- What is observed is counted, and what completes the count calls `finish`. -/
theorem step (h : Inv terminal s) (hle : s.start ≤ terminal) {a : Action α} (hr : Regular terminal s a)
    {s' : Finalizer α} (hs : CountFinalizer.step s a = some s') : Inv terminal s' := by
  cases a with
  | deliver d =>
    cases hs
    exact h.deliver hr
  | ends raised =>
    rcases step_ends hs with ⟨d, outer, hframes, rfl⟩ | ⟨outer, hframes, rfl⟩
    · exact h.observe hle hframes
    · exact h.finish hframes raised

end Inv

/-- The start and the deliveries do not change in a call. -/
theorem frame_deliver (s : Finalizer α) (d : Delivery α) :
    (s.deliver d).start = s.start ∧ (s.deliver d).arrived = s.arrived := by
  unfold Finalizer.deliver
  split
  · exact ⟨rfl, rfl⟩
  · dsimp only
    split <;> exact ⟨rfl, rfl⟩

theorem frame_observe (s : Finalizer α) (outer : List (Frame α)) :
    (s.observe outer).start = s.start ∧ (s.observe outer).arrived = s.arrived := by
  unfold Finalizer.observe
  dsimp only
  split
  · split
    · exact ⟨rfl, rfl⟩
    · split <;> exact ⟨rfl, rfl⟩
  · exact ⟨rfl, rfl⟩

theorem frame_step {s s' : Finalizer α} {a : Action α} (hs : step s a = some s') :
    s'.start = s.start ∧ s'.arrived = s.arrived ++ a.delivered := by
  cases a with
  | deliver d =>
    cases hs
    exact frame_deliver _ d
  | ends raised =>
    unfold Action.delivered
    rw [append_nil]
    rcases step_ends hs with ⟨d, outer, -, rfl⟩ | ⟨outer, -, rfl⟩
    · exact frame_observe _ outer
    · exact ⟨rfl, rfl⟩

/-! ## Runs -/

/-- In every order of the deliveries of a stream, with whatever the callbacks do, the finish action
is called once, and not before every index up to the terminal one has been observed. -/
theorem finish_runs_once (start terminal : Int) (hle : start ≤ terminal) (as : List (Action α))
    (h : Along step (Regular terminal) { start := start, hasFinish := true } as) {s : Finalizer α}
    (hs : exec step { start := start, hasFinish := true } as = some s) :
    s.start = start ∧ s.arrived = as.flatMap Action.delivered ∧ Finishes terminal s := by
  have hinv : Always step (fun s : Finalizer α => s.start = start ∧ Inv terminal s)
      { start := start, hasFinish := true } as := by
    refine always_of_along (fun _ hI => hI) ?_ as _ ⟨rfl, Inv.init hle⟩ h
    rintro s a s' ⟨hstart, hI⟩ hr hs
    exact ⟨(frame_step hs).1.trans hstart, hI.step (hstart ▸ hle) hr hs⟩
  exact ⟨(hinv.exec hs).1, exec_history Finalizer.arrived Action.delivered
    (fun _ _ _ hs => (frame_step hs).2) as hs,
    (hinv.exec hs).2.finishes⟩

/-- The terminal comes first, the callback of index `1` raises, and index `0` is delivered from
inside it. -/
def terminalFirst : List (Action Char) :=
  [.deliver ⟨2, false, 'c'⟩, .ends false, .deliver ⟨1, true, 'b'⟩, .deliver ⟨0, true, 'a'⟩,
    .ends false, .ends true,
    .ends false]

theorem finish_runs_once_three : ∃ s, exec step { start := 0, hasFinish := true } terminalFirst = some s ∧
    s.finishes = [⟨2, false, 'c'⟩] ∧ s.observed.map Delivery.index = [2, 0, 1] ∧
    s.arrived = terminalFirst.flatMap Action.delivered ∧ Finishes 2 s := by
  have hrun : ∃ s, exec step { start := 0, hasFinish := true } terminalFirst = some s ∧
      s.finishes = [⟨2, false, 'c'⟩] ∧ s.observed.map Delivery.index = [2, 0, 1] := ⟨_, rfl, rfl, rfl⟩
  rcases hrun with ⟨s, hs, hfinishes, hobserved⟩
  have hall := finish_runs_once 0 2 (by decide) terminalFirst (by decide) hs
  exact ⟨s, hs, hfinishes, hobserved, hall.2⟩

end Pytealet.Io.CountFinalizer
