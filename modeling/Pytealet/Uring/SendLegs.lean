import Mathlib.Tactic.SplitIfs
import Pytealet.Lib.Transition
import Pytealet.Uring.SendAll

/-!
# SendLegs — the legs of one `send_all`

One `send_all` from `send_all_fill_sqe` to the end of `send_all_on_cqe`.  The kernel decides the
results, a cancel may put its abandon mark at any moment, and the next leg may find no room.  The
ring around it is in `Ring`; here the offset, the SQE in flight and what
`UringApiCompletion_complete` is called with are kept.

Assertions are taken as in a release build: they do nothing.
-/

namespace Pytealet.Uring.SendLegs

open Lib Lib.Transition

/-! ## Spans -/

/-- Bytes of the buffer that one CQE has reported. -/
structure Span where
  start : Nat
  count : Nat
  deriving DecidableEq, Repr

/-- The spans lie end to end from `a` to `b`. -/
def Contiguous : Nat → List Span → Nat → Prop
  | a, [], b => a = b
  | a, sp :: rest, b => sp.start = a ∧ Contiguous (a + sp.count) rest b

theorem Contiguous.concat {a b : Nat} {spans : List Span} (h : Contiguous a spans b) (n : Nat) :
    Contiguous a (spans ++ [⟨b, n⟩]) (b + n) := by
  induction spans generalizing a with
  | nil =>
    cases h
    exact ⟨rfl, rfl⟩
  | cons sp rest ih => exact ⟨h.1, ih h.2⟩

/-! ## The model -/

structure Leg where
  start : Nat
  /-- the remaining bytes, as `io_uring_prep_send` is given them -/
  asked : Nat
  /-- the length field of the SQE, which has 32 bits -/
  len : Nat
  deriving DecidableEq, Repr

inductive Entry
  | nop
  | send (leg : Leg)
  deriving DecidableEq, Repr

structure State where
  /-- `view.len` -/
  length : Nat
  offset : Nat := 0
  abandon : Bool := false
  prepared : Bool := false
  inFlight : Option Entry := none
  /-- how many SQEs have been filled -/
  legs : Nat := 0
  sent : List Span := []
  /-- a CQE has reported an error -/
  failed : Bool := false
  /-- what `UringApiCompletion_complete` has been called with -/
  completed : List Int := []
  deriving DecidableEq, Repr

/-- What a next leg finds. -/
inductive Room
  | room
  | closed
  | failed (memory : Bool)
  deriving DecidableEq, Repr

inductive Next
  | filled
  | abandoned
  | unparked (memory : Bool)
  deriving DecidableEq, Repr

namespace State

/-- `send_all_remaining` -/
def remaining (s : State) : Nat :=
  s.length - s.offset

def sendAllFillSqe (s : State) (laterLeg : Bool) : Entry :=
  if !laterLeg && s.abandon then .nop
  else .send ⟨s.offset, s.remaining, s.remaining % 2 ^ 32⟩

def fill (s : State) (laterLeg : Bool) : State :=
  { s with inFlight := some (s.sendAllFillSqe laterLeg), legs := s.legs + 1 }

/-- `send_all_try_next_leg`.  A ring that is closed is noticed before the mark. -/
def sendAllTryNextLeg (s : State) : Room → State × Next
  | .closed => (s, .unparked false)
  | .failed memory => if s.abandon then (s, .abandoned) else (s, .unparked memory)
  | .room => if s.abandon then (s, .abandoned) else (s.fill true, .filled)

/-- `UringApiCompletion_complete` -/
def complete (s : State) (res : Int) : State :=
  { s with completed := s.completed ++ [res] }

/-- The offset moves by a positive result. -/
def advance (s : State) (res : Int) : State :=
  { s with
    inFlight := none
    offset := s.offset + res.toNat
    sent := s.sent ++ [⟨s.offset, res.toNat⟩]
    failed := s.failed || decide (res < 0) }

/-- A mark that appears between the two checks of `send_all_on_cqe`. -/
def mark (s : State) (late : Bool) : State :=
  { s with abandon := s.abandon || late }

def sendAllOnCqe (s : State) (res : Int) (late : Bool) (room : Room) : State :=
  let s := s.advance res
  if res < 0 then s.complete res
  else if s.remaining = 0 then s.complete (min s.offset intMax : Nat)
  else if s.abandon then s.complete (-ecanceled)
  else
    match (s.mark late).sendAllTryNextLeg room with
    | (s, .filled) => s
    | (s, .abandoned) => s.complete (-ecanceled)
    | (s, .unparked memory) => s.complete (if memory then -enomem else -eio)

end State

inductive Action
  | prepare
  | abandon
  | cqe (res : Int) (late : Bool) (room : Room)
  deriving DecidableEq, Repr

def step (s : State) : Action → Option State
  | .prepare => if s.prepared then none else some { s.fill false with prepared := true }
  | .abandon => some { s with abandon := true }
  | .cqe res late room => if s.inFlight.isSome then some (s.sendAllOnCqe res late room) else none

def init (length : Nat) : State := { length := length }

theorem sendAllFillSqe_len (r : Ring) (c : Nat) (laterLeg : Bool) {s : State}
    (hlength : s.length = (r.handle c).length)
    (hoffset : s.offset = (r.bits c).offset) (habandon : s.abandon = (r.bits c).abandon) :
    (r.sendAllFillSqe c laterLeg).len = match s.sendAllFillSqe laterLeg with
      | .nop => none
      | .send leg => some leg.len := by
  simp only [Ring.sendAllFillSqe, State.sendAllFillSqe, habandon]
  split
  · rfl
  · simp [State.remaining, Ring.sendAllRemaining, hlength, hoffset]

namespace State

/-! ## The account -/

/-- A leg that asks for bytes completes with an error, or with some of them. -/
def Honest (s : State) : Action → Prop
  | .cqe res _ _ =>
    match s.inFlight with
    | some (.send leg) => res < 0 ∨ res.toNat ≤ leg.asked ∧ (0 < leg.len → 0 < res)
    | some .nop => res ≤ 0
    | none => True
  | _ => True

instance (s : State) (a : Action) : Decidable (s.Honest a) := by
  unfold Honest
  split
  · split <;> infer_instance
  · infer_instance

/-- Where the entry in flight comes from. -/
structure EntryOk (s : State) (e : Entry) : Prop where
  /-- an empty buffer has one leg too -/
  bytes : s.offset < s.length ∨ s.length = 0
  leg : ∀ leg, e = .send leg → leg = ⟨s.offset, s.remaining, s.remaining % 2 ^ 32⟩
  nop : e = .nop → s.abandon = true ∧ s.offset = 0

/-- What was sent is a prefix of the buffer, and one entry is in flight until the completion. -/
structure Inv (s : State) : Prop where
  contiguous : Contiguous 0 s.sent s.offset
  bound : s.offset ≤ s.length
  entry : ∀ e, s.inFlight = some e → s.EntryOk e
  start : s.prepared = false → s.inFlight = none ∧ s.completed = [] ∧ s.offset = 0 ∧
    s.legs = 0 ∧ s.failed = false
  once : s.prepared = true → s.completed.length + s.inFlight.toList.length = 1
  clean : s.inFlight.isSome = true → s.failed = false
  result : ∀ res ∈ s.completed, 0 ≤ res → res = (min s.length intMax : Nat)
  success : ∀ res ∈ s.completed, 0 ≤ res ↔ s.offset = s.length ∧ s.failed = false
  failure : 0 < s.length → s.failed = true → s.offset < s.length
  progress : s.length < 2 ^ 32 → s.legs ≤ s.offset + 1

/-- Between the CQE of a leg and what comes of it. -/
structure Taken (s : State) (res : Int) : Prop where
  contiguous : Contiguous 0 s.sent s.offset
  bound : s.offset ≤ s.length
  prepared : s.prepared = true
  flight : s.inFlight = none
  completed : s.completed = []
  failed : s.failed = decide (res < 0)
  /-- an error finds bytes that remain, but for an empty buffer -/
  short : res < 0 → s.offset < s.length ∨ s.length = 0
  progress : s.length < 2 ^ 32 → s.legs ≤ s.offset + 1
  /-- the leg has sent a byte, or was the one that is no send -/
  more : 0 ≤ res → s.remaining ≠ 0 → s.abandon = false → s.length < 2 ^ 32 → s.legs ≤ s.offset

variable {s s' : State} {res r : Int} {e : Entry}

theorem Honest.res_le {late : Bool} {room : Room} (hok : s.Honest (.cqe res late room)) (hI : s.Inv)
    (hflight : s.inFlight = some e) : s.offset + res.toNat ≤ s.length := by
  have hbound := hI.bound
  cases e with
  | nop =>
    simp only [Honest, hflight] at hok
    omega
  | send leg =>
    have hleg := (hI.entry _ hflight).leg leg rfl
    simp only [Honest, hflight] at hok
    have hasked : leg.asked = s.length - s.offset := by rw [hleg]; rfl
    omega

theorem Honest.moves {late : Bool} {room : Room} (hok : s.Honest (.cqe res late room)) (hI : s.Inv)
    (hflight : s.inFlight = some e) (hres : 0 ≤ res) (hsmall : s.length < 2 ^ 32)
    (hremain : s.offset < s.length) (habandon : s.abandon = false) : 0 < res.toNat := by
  have hentry := hI.entry _ hflight
  cases e with
  | nop =>
    have hmark := (hentry.nop rfl).1
    rw [habandon] at hmark
    cases hmark
  | send leg =>
    have hlen : leg.len = s.remaining % 2 ^ 32 := by rw [hentry.leg leg rfl]
    have hfits : s.remaining % 2 ^ 32 = s.remaining := Nat.mod_eq_of_lt (by unfold remaining; omega)
    have hpos : 0 < leg.len := by
      rw [hlen, hfits]
      unfold remaining
      omega
    simp only [Honest, hflight] at hok
    have hsent := hok.resolve_left (by omega)
    have hmoved := hsent.2 hpos
    omega

theorem Inv.advance {late : Bool} {room : Room} (hI : s.Inv) (hok : s.Honest (.cqe res late room))
    (hflight : s.inFlight = some e) : (s.advance res).Taken res := by
  have hprepared : s.prepared = true := by
    cases hp : s.prepared with
    | true => rfl
    | false =>
      rw [(hI.start hp).1] at hflight
      cases hflight
  have hclean := hI.clean (by rw [hflight]; rfl)
  have honce := hI.once hprepared
  have hbytes := (hI.entry _ hflight).bytes
  have hle := hok.res_le hI hflight
  refine ⟨hI.contiguous.concat _, hle, hprepared, rfl, ?_, ?_, fun hneg => ?_, fun hsmall => ?_,
    fun hres hremain hmark hsmall => ?_⟩
  · rw [hflight] at honce
    simpa [State.advance] using honce
  · simp [State.advance, hclean]
  · have hzero : res.toNat = 0 := by omega
    simpa [State.advance, hzero] using hbytes
  · have hlegs := hI.progress hsmall
    change s.legs ≤ s.offset + res.toNat + 1
    omega
  · have hlegs := hI.progress hsmall
    have hmoved : 0 < res.toNat := by
      refine hok.moves hI hflight hres hsmall ?_ hmark
      change s.length - (s.offset + res.toNat) ≠ 0 at hremain
      omega
    change s.legs ≤ s.offset + res.toNat
    omega

namespace Taken

theorem complete (hT : s.Taken res) (hresult : 0 ≤ r → r = (min s.length intMax : Nat))
    (hsuccess : 0 ≤ r ↔ s.offset = s.length ∧ 0 ≤ res) : (s.complete r).Inv := by
  have hnot : ∀ {P : Prop}, s.prepared = false → P := fun h => by
    rw [hT.prepared] at h
    cases h
  have hflight : (s.complete r).inFlight = none := hT.flight
  have hcompleted : (s.complete r).completed = [r] := by simp [State.complete, hT.completed]
  refine ⟨hT.contiguous, hT.bound, ?_, hnot, fun _ => ?_, ?_, ?_, ?_, fun hlen hfailed => ?_, hT.progress⟩
  · rw [hflight]
    nofun
  · simp [hflight, hcompleted]
  · rw [hflight]
    nofun
  · rw [hcompleted]
    change ∀ x ∈ [r], 0 ≤ x → x = (min s.length intMax : Nat)
    simpa using hresult
  · rw [hcompleted]
    change ∀ x ∈ [r], 0 ≤ x ↔ s.offset = s.length ∧ s.failed = false
    simpa [hT.failed] using hsuccess
  · have herror : res < 0 := by simpa [hT.failed] using (show s.failed = true from hfailed)
    change s.offset < s.length
    have hbytes := hT.short herror
    change 0 < s.length at hlen
    omega

theorem mark (hT : s.Taken res) (late : Bool) : (s.mark late).Taken res :=
  ⟨hT.contiguous, hT.bound, hT.prepared, hT.flight, hT.completed, hT.failed, hT.short, hT.progress,
    fun hres hremain hmark => hT.more hres hremain (Bool.or_eq_false_iff.1 hmark).1⟩

theorem fill (hT : s.Taken res) (hres : 0 ≤ res) (hremain : s.remaining ≠ 0) (hmark : s.abandon = false) :
    (s.fill true).Inv := by
  have hnot : ∀ {P : Prop}, s.prepared = false → P := fun h => by
    rw [hT.prepared] at h
    cases h
  have hsend : s.sendAllFillSqe true = .send ⟨s.offset, s.remaining, s.remaining % 2 ^ 32⟩ :=
    by simp [sendAllFillSqe]
  have hcompleted : (s.fill true).completed = [] := hT.completed
  have hfailed : s.failed = false := by simp [hT.failed, hres]
  refine ⟨hT.contiguous, hT.bound, fun e he => ?_, hnot, fun _ => ?_, fun _ => hfailed, ?_, ?_,
    fun _ hf => ?_,
    fun hsmall => ?_⟩
  · have heq : e = .send ⟨s.offset, s.remaining, s.remaining % 2 ^ 32⟩ := by
      rw [← hsend]
      exact (Option.some.inj he).symm
    subst heq
    refine ⟨.inl ?_, fun leg hleg => ?_, nofun⟩
    · change s.length - s.offset ≠ 0 at hremain
      change s.offset < s.length
      omega
    · cases hleg
      rfl
  · rw [hcompleted]
    rfl
  · rw [hcompleted]
    nofun
  · rw [hcompleted]
    nofun
  · rw [show s.failed = true from hf] at hfailed
    cases hfailed
  · have hlegs := hT.more hres hremain hmark hsmall
    change s.legs + 1 ≤ s.offset + 1
    omega

end Taken

theorem cancelled_neg : (-ecanceled : Int) < 0 := by decide

theorem Taken.success (hT : s.Taken res) (hres : 0 ≤ res) (hover : s.remaining = 0) :
    (s.complete (min s.offset intMax : Nat)).Inv := by
  have hfull : s.offset = s.length := by
    have hbound := hT.bound
    change s.length - s.offset = 0 at hover
    omega
  refine hT.complete (fun _ => by rw [hfull]) ⟨fun _ => ⟨hfull, hres⟩, fun _ => Int.natCast_nonneg _⟩

theorem Taken.failure (hT : s.Taken res) (hneg : r < 0) (hwhy : res < 0 ∨ s.remaining ≠ 0) :
    (s.complete r).Inv := by
  refine hT.complete (fun hr => absurd hr (by omega))
    ⟨fun hr => absurd hr (by omega), fun ⟨hfull, hres⟩ => ?_⟩
  rcases hwhy with hwhy | hwhy
  · omega
  · have hzero : s.remaining = 0 := by
      unfold remaining
      omega
    exact absurd hzero hwhy

theorem Inv.sendAllOnCqe {late : Bool} {room : Room} (hI : s.Inv) (hok : s.Honest (.cqe res late room))
    (hflight : s.inFlight = some e) : (s.sendAllOnCqe res late room).Inv := by
  have hT := hI.advance hok hflight
  simp only [State.sendAllOnCqe]
  generalize s.advance res = s₁ at hT
  split_ifs with hneg hover hmark
  · exact hT.failure hneg (.inl hneg)
  · exact hT.success (by omega) hover
  · exact hT.failure cancelled_neg (.inr hover)
  · have hT' := hT.mark late
    have hover' : (s₁.mark late).remaining ≠ 0 := hover
    generalize s₁.mark late = s₂ at hT' hover'
    cases room with
    | closed => exact hT'.failure (by decide) (.inr hover')
    | failed memory =>
      simp only [sendAllTryNextLeg]
      cases hmark' : s₂.abandon with
      | true => exact hT'.failure cancelled_neg (.inr hover')
      | false => exact hT'.failure (by cases memory <;> decide) (.inr hover')
    | room =>
      simp only [sendAllTryNextLeg]
      cases hmark' : s₂.abandon with
      | true => exact hT'.failure cancelled_neg (.inr hover')
      | false => exact hT'.fill (by omega) hover' hmark'

theorem Inv.prepare (hI : s.Inv) (hstart : s.prepared = false) :
    ({ s.fill false with prepared := true } : State).Inv := by
  rcases hI.start hstart with ⟨-, hcompleted, hoffset, hlegs, hclean⟩
  have hcompleted' : ({ s.fill false with prepared := true } : State).completed = [] := hcompleted
  have hbytes : s.offset < s.length ∨ s.length = 0 := by omega
  refine ⟨hI.contiguous, hI.bound, fun e he => ?_, nofun, fun _ => ?_, fun _ => hclean, ?_, ?_, hI.failure,
    fun _ => ?_⟩
  · have heq : e = s.sendAllFillSqe false := (Option.some.inj he).symm
    subst heq
    refine ⟨hbytes, fun leg hleg => ?_, fun hnop => ?_⟩
    · unfold sendAllFillSqe at hleg
      split_ifs at hleg
      exact (Entry.send.inj hleg).symm
    · unfold sendAllFillSqe at hnop
      split_ifs at hnop with hmark
      have habandon : s.abandon = true := by simpa using hmark
      exact ⟨habandon, hoffset⟩
  · rw [hcompleted']
    rfl
  · rw [hcompleted']
    nofun
  · rw [hcompleted']
    nofun
  · change s.legs + 1 ≤ s.offset + 1
    omega

/-- An honest CQE moves the offset by what it says, and the next leg starts there. -/
theorem Inv.step {a : Action} (hI : s.Inv) (hok : s.Honest a) (hs : step s a = some s') : s'.Inv := by
  cases a with
  | prepare =>
    simp only [SendLegs.step] at hs
    split_ifs at hs with hprepared
    cases hs
    exact hI.prepare (by simpa using hprepared)
  | abandon =>
    cases hs
    refine ⟨hI.contiguous, hI.bound, fun e he => ?_, hI.start, hI.once, hI.clean,
      hI.result, hI.success, hI.failure,
      hI.progress⟩
    have hentry := hI.entry e he
    exact ⟨hentry.bytes, hentry.leg, fun hnop => ⟨rfl, (hentry.nop hnop).2⟩⟩
  | cqe res late room =>
    simp only [SendLegs.step] at hs
    split_ifs at hs with hflight
    cases hs
    rcases Option.isSome_iff_exists.1 hflight with ⟨e, he⟩
    exact hI.sendAllOnCqe hok he

theorem Inv.init (length : Nat) : (init length).Inv where
  contiguous := rfl
  bound := Nat.zero_le _
  entry := nofun
  start := fun _ => ⟨rfl, rfl, rfl, rfl, rfl⟩
  once := nofun
  clean := nofun
  result := nofun
  success := nofun
  failure := nofun
  progress := fun _ => Nat.zero_le _

/-! ## What a `send_all` accounts for -/

/-- The state of a `send_all`, whatever its legs have been answered. -/
structure Accounted (s : State) : Prop where
  /-- the bytes reported lie end to end from the start of the buffer to the offset -/
  contiguous : Contiguous 0 s.sent s.offset
  bound : s.offset ≤ s.length
  /-- the leg in flight goes on from there -/
  leg : ∀ leg, s.inFlight = some (.send leg) → leg.start = s.offset ∧ leg.asked = s.length - s.offset
  /-- once the first SQE is filled there is one entry in flight, or the operation has been finished
  once -/
  once : s.prepared = true → s.completed.length + s.inFlight.toList.length = 1
  success : ∀ res ∈ s.completed, 0 ≤ res ↔ s.offset = s.length ∧ s.failed = false
  /-- only an empty buffer can be at its end and have failed -/
  whole : 0 < s.length → ∀ res ∈ s.completed, 0 ≤ res ↔ s.offset = s.length
  result : ∀ res ∈ s.completed, 0 ≤ res → res = (min s.length intMax : Nat)
  /-- what has been finished stays as it is -/
  final : s.completed ≠ [] → ∀ a s', step s a = some s' →
    s'.legs = s.legs ∧ s'.offset = s.offset ∧ s'.completed = s.completed
  /-- every leg but the last has sent a byte, where the length fits in its field -/
  progress : s.length < 2 ^ 32 → s.legs ≤ s.offset + 1

theorem Inv.final (hI : s.Inv) (hover : s.completed ≠ []) {a : Action} (hs : SendLegs.step s a = some s') :
    s'.legs = s.legs ∧ s'.offset = s.offset ∧ s'.completed = s.completed := by
  have hprepared : s.prepared = true := by
    cases hp : s.prepared with
    | true => rfl
    | false => exact absurd (hI.start hp).2.1 hover
  have hflight : s.inFlight = none := by
    have honce := hI.once hprepared
    have hpos := List.length_pos_iff.2 hover
    cases hf : s.inFlight with
    | none => rfl
    | some e =>
      rw [hf] at honce
      simp only [Option.toList_some, List.length_singleton] at honce
      omega
  cases a with
  | prepare => simp [SendLegs.step, hprepared] at hs
  | abandon =>
    cases hs
    exact ⟨rfl, rfl, rfl⟩
  | cqe res late room => simp [SendLegs.step, hflight] at hs

theorem Inv.accounted (hI : s.Inv) : s.Accounted where
  contiguous := hI.contiguous
  bound := hI.bound
  leg := fun leg hleg => by
    have heq := (hI.entry _ hleg).leg leg rfl
    subst heq
    exact ⟨rfl, rfl⟩
  once := hI.once
  success := hI.success
  whole := fun hlen res hres => by
    refine (hI.success res hres).trans ⟨fun h => h.1, fun hfull => ⟨hfull, ?_⟩⟩
    cases hfailed : s.failed with
    | false => rfl
    | true =>
      have hshort := hI.failure hlen hfailed
      omega
  result := hI.result
  final := fun hover _ _ hs => hI.final hover hs
  progress := hI.progress

theorem offset_sendAllOnCqe (s : State) (res : Int) (late : Bool) (room : Room) :
    (s.sendAllOnCqe res late room).offset = s.offset + res.toNat := by
  have htry : ∀ s : State, (s.sendAllTryNextLeg room).1.offset = s.offset := by
    intro s
    cases room <;> simp only [sendAllTryNextLeg] <;> split_ifs <;> rfl
  simp only [State.sendAllOnCqe]
  split_ifs with hneg hover hmark
  · rfl
  · rfl
  · rfl
  · have hoffset := htry ((s.advance res).mark late)
    cases hnext : ((s.advance res).mark late).sendAllTryNextLeg room with
    | mk s' next =>
      rw [hnext] at hoffset
      cases next <;> exact hoffset

theorem offset_le_step {a : Action} (hs : SendLegs.step s a = some s') : s.offset ≤ s'.offset := by
  cases a with
  | prepare =>
    simp only [SendLegs.step] at hs
    split_ifs at hs
    cases hs
    exact Nat.le_refl _
  | abandon =>
    cases hs
    exact Nat.le_refl _
  | cqe res late room =>
    simp only [SendLegs.step] at hs
    split_ifs at hs
    cases hs
    rw [offset_sendAllOnCqe]
    exact Nat.le_add_right ..

end State

/-! ## Runs -/

theorem send_all_accounts (length : Nat) (as : List Action)
    (hok : Along step State.Honest (init length) as) :
    Always step (fun s => s.Accounted ∧ ∀ a s', step s a = some s' → s.offset ≤ s'.offset)
      (init length) as :=
  always_of_along (I := State.Inv) (fun _ hI => ⟨hI.accounted, fun _ _ hs => State.offset_le_step hs⟩)
    (fun _ _ _ hI hC hs => hI.step hC hs) as (init length) (State.Inv.init length) hok

/-- Five bytes in two legs. -/
theorem send_all_accounts_short :
    Played step (Always step fun s => s.Accounted ∧ ∀ a s', step s a = some s' →
      s.offset ≤ s'.offset) (init 5)
      [.prepare, .cqe 2 false .room, .cqe 3 false .room] :=
  ⟨send_all_accounts 5 _ (by decide), by decide⟩

/-- The leg of an empty buffer may fail. -/
theorem empty_send_all_fails :
    ∃ s, exec step (init 0) [.prepare, .cqe (-32) false .room] = some s ∧
      Along step State.Honest (init 0) [.prepare, .cqe (-32) false .room] ∧
      s.offset = s.length ∧ s.completed = [-32] :=
  ⟨_, rfl, by decide, rfl, rfl⟩

/-! ## The length field -/

namespace State

/-- The kernel goes by the length field. -/
def Obeys (s : State) : Action → Prop
  | .cqe res _ _ =>
    match s.inFlight with
    | some (.send leg) => res < 0 ∨ res.toNat ≤ leg.len ∧ (0 < leg.len → 0 < res)
    | some .nop => res ≤ 0
    | none => True
  | _ => True

/-- While bytes remain, a leg asks for some of them and for no others. -/
def FieldFits (s : State) : Prop :=
  ∀ leg, s.inFlight = some (.send leg) → s.offset < s.length → 1 ≤ leg.len ∧ leg.len ≤ s.length - s.offset

variable {s : State}

theorem Inv.honest {a : Action} (hI : s.Inv) (hok : s.Obeys a) : s.Honest a := by
  cases a with
  | cqe res late room =>
    cases hflight : s.inFlight with
    | none => simp [Honest, hflight]
    | some e =>
      cases e with
      | nop =>
        simpa [Obeys, Honest, hflight] using hok
      | send leg =>
        have hleg := (hI.entry _ hflight).leg leg rfl
        have hle : leg.len ≤ leg.asked := by
          rw [hleg]
          exact Nat.mod_le ..
        simp only [Obeys, hflight] at hok
        simp only [Honest, hflight]
        exact hok.imp_right fun h => ⟨Nat.le_trans h.1 hle, h.2⟩
  | _ => trivial

theorem Inv.fieldFits (hI : s.Inv) (hsmall : s.length < 2 ^ 32) : s.FieldFits := by
  intro leg hflight hremain
  have hleg := (hI.entry _ hflight).leg leg rfl
  have hfits : s.remaining % 2 ^ 32 = s.length - s.offset := Nat.mod_eq_of_lt (by unfold remaining; omega)
  have hlen : leg.len = s.length - s.offset := by rw [hleg, ← hfits]
  omega

theorem length_step {s' : State} {a : Action} (hs : step s a = some s') : s'.length = s.length := by
  have htry : ∀ (s : State) (room : Room), (s.sendAllTryNextLeg room).1.length = s.length := by
    intro s room
    cases room <;> simp only [sendAllTryNextLeg] <;> split_ifs <;> rfl
  cases a with
  | prepare =>
    simp only [SendLegs.step] at hs
    split_ifs at hs
    cases hs
    rfl
  | abandon =>
    cases hs
    rfl
  | cqe res late room =>
    simp only [SendLegs.step] at hs
    split_ifs at hs
    cases hs
    simp only [State.sendAllOnCqe]
    split_ifs with hneg hover hmark
    · rfl
    · rfl
    · rfl
    · have hlength := htry ((s.advance res).mark late) room
      cases hnext : ((s.advance res).mark late).sendAllTryNextLeg room with
      | mk s' next =>
        rw [hnext] at hlength
        cases next <;> exact hlength

end State

/-- The first leg sends what its field says, and a multiple of 2^32 bytes remains. -/
def wrapped (length : Nat) : List Action :=
  [.prepare, .cqe (length % 2 ^ 32 : Nat) false .room]

theorem next_leg {length m : Nat} (hm : m < length) :
    ∃ s₁ s₂, step (init length) .prepare = some s₁ ∧ step s₁ (.cqe m false .room) = some s₂ ∧
      s₁.inFlight = some (.send ⟨0, length, length % 2 ^ 32⟩) ∧ s₂.offset = m ∧ s₂.length = length ∧
      s₂.inFlight = some (.send ⟨m, length - m, (length - m) % 2 ^ 32⟩) := by
  have hremain : ¬ length - m = 0 := by omega
  have hnonneg : ¬ (m : Int) < 0 := by omega
  refine ⟨_, _, rfl, rfl, rfl, ?_, ?_, ?_⟩ <;>
    simp [State.sendAllOnCqe, State.advance, State.mark, State.sendAllTryNextLeg,
      State.fill, State.sendAllFillSqe,
      State.remaining, init, hremain, hnonneg]

theorem exec_wrapped {length : Nat} (hlarge : 2 ^ 32 ≤ length) :
    ∃ s₁ s₂, step (init length) .prepare = some s₁ ∧
      step s₁ (.cqe (length % 2 ^ 32 : Nat) false .room) = some s₂ ∧
      s₁.Obeys (.cqe (length % 2 ^ 32 : Nat) false .room) ∧ ¬ s₂.FieldFits := by
  have hlt : length % 2 ^ 32 < length := Nat.lt_of_lt_of_le (Nat.mod_lt _ (by decide)) hlarge
  rcases next_leg hlt with ⟨s₁, s₂, hprepare, hcqe, hfirst, hoffset, hlength, hnext⟩
  refine ⟨s₁, s₂, hprepare, hcqe, ?_, fun hfits => ?_⟩
  · simp only [State.Obeys, hfirst]
    exact .inr ⟨Nat.le_refl _, fun h => Int.natCast_pos.2 h⟩
  · have hleg := hfits _ hnext (by omega)
    have hzero : (length - length % 2 ^ 32) % 2 ^ 32 = 0 := by omega
    have hone : 1 ≤ (length - length % 2 ^ 32) % 2 ^ 32 := hleg.1
    omega

theorem leg_field_fits (length : Nat) :
    (∀ as, Along step State.Obeys (init length) as → Always step State.FieldFits (init length) as) ↔
      length < 2 ^ 32 := by
  constructor
  · intro hall
    by_contra hlarge
    rcases exec_wrapped (Nat.le_of_not_lt hlarge) with ⟨s₁, s₂, hprepare, hcqe, hobeys, hnot⟩
    have halong : Along step State.Obeys (init length) (wrapped length) := by
      simp only [wrapped, Along, hprepare, hcqe]
      exact ⟨trivial, hobeys, trivial⟩
    have hfits := (((hall _ halong).next hprepare).next hcqe).head
    exact hnot hfits
  · intro hsmall as hok
    refine always_of_along (I := fun s : State => s.Inv ∧ s.length < 2 ^ 32)
      (fun _ hI => hI.1.fieldFits hI.2)
      (fun s a s' hI hC hs => ⟨hI.1.step (hI.1.honest hC) hs, ?_⟩) as _ ⟨State.Inv.init length, hsmall⟩ hok
    rw [State.length_step hs]
    exact hI.2

/-- A buffer of 2^32 bytes: its first leg asks for none. -/
theorem leg_field_wraps :
    ¬ ∀ as, Along step State.Obeys (init (2 ^ 32)) as → Always step State.FieldFits (init (2 ^ 32)) as := by
  intro hall
  have hprepare : step (init (2 ^ 32)) .prepare = some _ := rfl
  have hfits := ((hall [.prepare] (by simp [Along, step, init, State.Obeys])).next hprepare).head
  exact absurd (hfits ⟨0, 2 ^ 32, 0⟩ rfl (by decide)).1 (by decide)

end Pytealet.Uring.SendLegs
