import Mathlib.Data.List.Pairwise
import Mathlib.Logic.Function.Basic
import Pytealet.Lib.Transition

/-!
# SslFlush — concurrent calls of `SSLStream._flush_outgoing`

A call that finds no flush in progress takes all that the outgoing BIO holds, and gives it to the
inner writer.  One that finds a flush in progress waits until that one has ended, and returns.

Bytes are numbered in the order in which operations of the SSL object put them into the BIO; a
number stands for its byte.  Tealets switch in `write` and `drain` of the inner writer and in
`swait`.  The lock of `_write_cond` is free at all of these, so that it is taken at once everywhere.
`write` takes the whole of its data, or raises.
-/

namespace Pytealet.Streams.SslFlush

open Lib Lib.Transition Function List

inductive Phase
  /-- in `write`, with what has been read from the BIO -/
  | writing (data : List Nat)
  | draining
  /-- in `swait` -/
  | waiting
  /-- in `swait`, with its event set -/
  | notified
  | returned
  | raised
  deriving DecidableEq, Repr

/-- A call of `_flush_outgoing`. -/
structure Call where
  phase : Phase
  /-- what the outgoing BIO held when the call was made -/
  held : List Nat
  deriving DecidableEq, Repr

/-- The call has set `_inner_writing`, and has not come to its `finally`. -/
def Call.active (c : Call) : Prop :=
  match c.phase with
  | .writing _ | .draining => True
  | _ => False

structure State where
  outgoing : List Nat := []
  /-- how many bytes have been put into it -/
  produced : Nat := 0
  /-- what the inner writer has been given -/
  written : List Nat := []
  innerWriting : Bool := false
  calls : Nat → Option Call := fun _ => none
  nextCall : Nat := 0

namespace State

/-- An operation of the SSL object puts bytes into the BIO. -/
def produce (s : State) (n : Nat) : State :=
  { s with outgoing := s.outgoing ++ List.range' s.produced n, produced := s.produced + n }

def addCall (s : State) (phase : Phase) (held : List Nat) : State :=
  { s with calls := update s.calls s.nextCall (some ⟨phase, held⟩), nextCall := s.nextCall + 1 }

/-- `_flush_outgoing`, to its first switch. -/
def flushOutgoing (s : State) : State :=
  if s.innerWriting then s.addCall .waiting s.outgoing
  else
    let phase := if s.outgoing.isEmpty then .draining else .writing s.outgoing
    { s.addCall phase s.outgoing with outgoing := [], innerWriting := true }

def setPhase (s : State) (i : Nat) (phase : Phase) : State :=
  { s with calls := update s.calls i ((s.calls i).map fun c => { c with phase }) }

def notifyAll (s : State) : State :=
  { s with calls := fun j => (s.calls j).map fun c =>
      if c.phase = .waiting then { c with phase := .notified } else c }

/-- The `finally` of a flush. -/
def leave (s : State) (i : Nat) (phase : Phase) : State :=
  { (s.setPhase i phase).notifyAll with innerWriting := false }

end State

inductive Action
  | produce (n : Nat)
  | flushOutgoing
  /-- `write` returns -/
  | write (i : Nat)
  /-- `drain` returns -/
  | drain (i : Nat)
  /-- `swait` returns -/
  | wake (i : Nat)
  /-- whatever the call is in raises -/
  | throw (i : Nat)
  deriving DecidableEq, Repr

def step (s : State) : Action → Option State
  | .produce n => some (s.produce n)
  | .flushOutgoing => some s.flushOutgoing
  | .write i =>
    match s.calls i with
    | some ⟨.writing data, _⟩ => some { s.setPhase i .draining with written := s.written ++ data }
    | _ => none
  | .drain i =>
    match s.calls i with
    | some ⟨.draining, _⟩ => some (s.leave i .returned)
    | _ => none
  | .wake i =>
    match s.calls i with
    | some ⟨.notified, _⟩ => some (s.setPhase i .returned)
    | _ => none
  | .throw i =>
    match s.calls i with
    | some ⟨.writing _, _⟩ | some ⟨.draining, _⟩ => some (s.leave i .raised)
    | some ⟨.waiting, _⟩ | some ⟨.notified, _⟩ => some (s.setPhase i .raised)
    | _ => none

def init : State := {}

namespace State

/-- What the BIO held when a call was made that has returned has been written. -/
def Delivered (s : State) : Prop :=
  ∀ (i : Nat) (c : Call), s.calls i = some c → c.phase = .returned → ∀ b ∈ c.held, b ∈ s.written

/-- The bytes have been written in the order of the BIO. -/
def Ordered (s : State) : Prop :=
  s.written.Pairwise (· < ·)

/-- A call that finds a flush in progress finds nothing in the BIO. -/
def Clear (s : State) : Action → Prop
  | .flushOutgoing => s.innerWriting = true → s.outgoing = []
  | _ => True

instance (s : State) (a : Action) : Decidable (s.Clear a) := by
  cases a <;> unfold Clear <;> infer_instance

end State

variable {s s' : State} {i : Nat} {phase : Phase}

/-! ## Calls -/

theorem calls_addCall {held : List Nat} {j : Nat} {c : Call} (h : (s.addCall phase held).calls j = some c) :
    j = s.nextCall ∧ c = ⟨phase, held⟩ ∨ s.calls j = some c := by
  simp only [State.addCall, update_apply] at h
  split at h
  · rename_i heq
    cases h
    exact .inl ⟨heq, rfl⟩
  · exact .inr h

theorem calls_setPhase {j : Nat} {c : Call} (h : (s.setPhase i phase).calls j = some c) :
    (j = i ∧ ∃ d, s.calls i = some d ∧ c = ⟨phase, d.held⟩) ∨ j ≠ i ∧ s.calls j = some c := by
  simp only [State.setPhase, update_apply] at h
  split at h
  · rename_i heq
    rcases Option.map_eq_some_iff.1 h with ⟨d, hd, rfl⟩
    exact .inl ⟨heq, d, hd, rfl⟩
  · rename_i hne
    exact .inr ⟨hne, h⟩

theorem calls_notifyAll {j : Nat} {c : Call} (h : s.notifyAll.calls j = some c) :
    s.calls j = some c ∨ ∃ held, s.calls j = some ⟨.waiting, held⟩ ∧ c = ⟨.notified, held⟩ := by
  rcases Option.map_eq_some_iff.1 h with ⟨⟨phase, held⟩, hd, rfl⟩
  dsimp only
  split
  · rename_i hwaiting
    subst hwaiting
    exact .inr ⟨held, hd, rfl⟩
  · exact .inl hd

/-! ## The order of the bytes -/

/-- At most one call flushes; what it has read comes between what has been written and what the BIO
holds. -/
structure LineInv (s : State) : Prop where
  busy : ∀ (j : Nat) (c : Call), s.calls j = some c → c.active → s.innerWriting = true
  alone : ∀ (j k : Nat) (c d : Call), s.calls j = some c → s.calls k = some d → c.active → d.active → j = k
  bound : ∀ b ∈ s.outgoing, b < s.produced
  line : (s.written ++ s.outgoing).Pairwise (· < ·)
  earlier : ∀ b ∈ s.written, b < s.produced
  taken : ∀ (j : Nat) (data held : List Nat), s.calls j = some ⟨.writing data, held⟩ →
    (s.written ++ data ++ s.outgoing).Pairwise (· < ·) ∧ ∀ b ∈ data, b < s.produced

namespace LineInv

theorem init : LineInv init where
  busy := nofun
  alone := nofun
  bound := nofun
  line := List.Pairwise.nil
  earlier := nofun
  taken := nofun

theorem produce (h : LineInv s) (n : Nat) : LineInv (s.produce n) := by
  have happend : ∀ bs : List Nat, bs.Pairwise (· < ·) → (∀ b ∈ bs, b < s.produced) →
      (bs ++ List.range' s.produced n).Pairwise (· < ·) := by
    intro bs hbs hlt
    refine pairwise_append.2 ⟨hbs, pairwise_lt_range', fun b hb b' hb' => ?_⟩
    exact Nat.lt_of_lt_of_le (hlt b hb) (mem_range'_1.1 hb').1
  have hmore : ∀ b, b < s.produced → b < s.produced + n := fun b hb => Nat.lt_add_right n hb
  refine ⟨h.busy, h.alone, fun b hb => ?_, ?_, fun b hb => hmore b (h.earlier b hb),
    fun j data held hj => ?_⟩
  · rcases mem_append.1 hb with hb | hb
    · exact hmore b (h.bound b hb)
    · exact (mem_range'_1.1 hb).2
  · refine (append_assoc s.written s.outgoing _) ▸ happend _ h.line fun b hb => ?_
    rcases mem_append.1 hb with hb | hb
    · exact h.earlier b hb
    · exact h.bound b hb
  · rcases h.taken j data held hj with ⟨hline, hdata⟩
    refine ⟨?_, fun b hb => hmore b (hdata b hb)⟩
    refine (append_assoc (s.written ++ data) s.outgoing _) ▸ happend _ hline fun b hb => ?_
    rcases mem_append.1 hb with hb | hb
    · rcases mem_append.1 hb with hb | hb
      · exact h.earlier b hb
      · exact hdata b hb
    · exact h.bound b hb

theorem setPhase (h : LineInv s) (i : Nat) (hidle : ∀ held, ¬ (⟨phase, held⟩ : Call).active) :
    LineInv (s.setPhase i phase) := by
  have hback : ∀ j c, (s.setPhase i phase).calls j = some c → c.active → s.calls j = some c := by
    intro j c hj hactive
    rcases calls_setPhase hj with ⟨-, d, -, rfl⟩ | ⟨-, hj⟩
    · exact absurd hactive (hidle d.held)
    · exact hj
  exact ⟨fun j c hj hc => h.busy j c (hback j c hj hc) hc,
    fun j k c d hj hk hc hd => h.alone j k c d (hback j c hj hc) (hback k d hk hd) hc hd,
    h.bound, h.line, h.earlier,
    fun j data held hj => h.taken j data held (hback j _ hj trivial)⟩

theorem notifyAll (h : LineInv s) : LineInv s.notifyAll := by
  have hback : ∀ j c, s.notifyAll.calls j = some c → c.active → s.calls j = some c := by
    intro j c hj hactive
    rcases calls_notifyAll hj with hj | ⟨held, -, rfl⟩
    · exact hj
    · exact hactive.elim
  exact ⟨fun j c hj hc => h.busy j c (hback j c hj hc) hc,
    fun j k c d hj hk hc hd => h.alone j k c d (hback j c hj hc) (hback k d hk hd) hc hd,
    h.bound, h.line, h.earlier,
    fun j data held hj => h.taken j data held (hback j _ hj trivial)⟩

theorem leave (h : LineInv s) {c : Call} (hi : s.calls i = some c) (hactive : c.active)
    (hidle : ∀ held, ¬ (⟨phase, held⟩ : Call).active) : LineInv (s.leave i phase) := by
  have hleft := (h.setPhase i hidle).notifyAll
  have hnone : ∀ j d, (s.leave i phase).calls j = some d → ¬ d.active := by
    intro j d hj hd
    rcases calls_notifyAll hj with hj | ⟨held, -, rfl⟩
    · rcases calls_setPhase hj with ⟨-, e, -, rfl⟩ | ⟨hne, hj⟩
      · exact hidle e.held hd
      · exact hne (h.alone j i d c hj hi hd hactive)
    · exact hd
  exact ⟨fun j d hj hd => absurd hd (hnone j d hj), fun j k d e hj _ hd _ =>
    absurd hd (hnone j d hj), hleft.bound,
    hleft.line, hleft.earlier, fun j data held hj => absurd trivial (hnone j _ hj)⟩

theorem flushOutgoing (h : LineInv s) : LineInv s.flushOutgoing := by
  unfold State.flushOutgoing
  split
  · -- the call waits
    have hback : ∀ j c, (s.addCall .waiting s.outgoing).calls j = some c →
        c.active → s.calls j = some c := by
      intro j c hj hactive
      rcases calls_addCall hj with ⟨-, rfl⟩ | hj
      · exact hactive.elim
      · exact hj
    exact ⟨fun j c hj hc => h.busy j c (hback j c hj hc) hc,
      fun j k c d hj hk hc hd => h.alone j k c d (hback j c hj hc) (hback k d hk hd) hc hd,
      h.bound, h.line, h.earlier,
      fun j data held hj => h.taken j data held (hback j _ hj trivial)⟩
  · rename_i hfree
    have hnone : ∀ j c, s.calls j = some c → ¬ c.active := fun j c hj hc => hfree (h.busy j c hj hc)
    dsimp only
    have hback : ∀ (phase : Phase) (j : Nat) (c : Call), (s.addCall phase s.outgoing).calls j =
        some c → c.active →
        j = s.nextCall ∧ c = ⟨phase, s.outgoing⟩ := by
      intro phase j c hj hactive
      rcases calls_addCall hj with hnew | hj
      · exact hnew
      · exact absurd hactive (hnone j c hj)
    refine ⟨fun _ _ _ _ => rfl, fun j k c d hj hk hc hd => ?_, nofun, ?_, h.earlier,
      fun j data held hj => ?_⟩
    · exact (hback _ j c hj hc).1.trans (hback _ k d hk hd).1.symm
    · exact pairwise_append.2 ⟨(pairwise_append.1 h.line).1, List.Pairwise.nil, nofun⟩
    · have hnew := (hback _ j _ hj trivial).2
      split at hnew
      · cases hnew
      · cases hnew
        rw [append_nil]
        exact ⟨h.line, h.bound⟩

theorem write (h : LineInv s) {data held : List Nat} (hi : s.calls i = some ⟨.writing data, held⟩) :
    LineInv { s.setPhase i .draining with written := s.written ++ data } := by
  rcases h.taken i data held hi with ⟨hline, hdata⟩
  have hback : ∀ j c, (s.setPhase i .draining).calls j = some c → c.active → j = i := by
    intro j c hj hactive
    rcases calls_setPhase hj with ⟨heq, -⟩ | ⟨-, hj⟩
    · exact heq
    · exact h.alone j i c _ hj hi hactive trivial
  refine ⟨fun _ _ _ _ => h.busy i _ hi trivial, fun j k c d hj hk hc hd =>
    (hback j c hj hc).trans (hback k d hk hd).symm,
    h.bound, hline, fun b hb => ?_, fun j data' held' hj => ?_⟩
  · rcases mem_append.1 hb with hb | hb
    · exact h.earlier b hb
    · exact hdata b hb
  · rcases calls_setPhase hj with ⟨-, d, -, heq⟩ | ⟨hne, hj⟩
    · cases heq
    · exact absurd (h.alone j i _ _ hj hi trivial trivial) hne

theorem step {a : Action} (h : LineInv s) (hs : SslFlush.step s a = some s') : LineInv s' := by
  cases a with
  | produce n =>
    cases hs
    exact h.produce n
  | flushOutgoing =>
    cases hs
    exact h.flushOutgoing
  | write i =>
    simp only [SslFlush.step] at hs
    split at hs
    · rename_i hi
      cases hs
      exact h.write hi
    · cases hs
  | drain i =>
    simp only [SslFlush.step] at hs
    split at hs
    · rename_i hi
      cases hs
      exact h.leave hi trivial fun _ hactive => hactive
    · cases hs
  | wake i =>
    simp only [SslFlush.step] at hs
    split at hs
    · cases hs
      exact h.setPhase i fun _ hactive => hactive
    · cases hs
  | throw i =>
    simp only [SslFlush.step] at hs
    split at hs
    · rename_i hi
      cases hs
      exact h.leave hi trivial fun _ hactive => hactive
    · rename_i hi
      cases hs
      exact h.leave hi trivial fun _ hactive => hactive
    · cases hs
      exact h.setPhase i fun _ hactive => hactive
    · cases hs
      exact h.setPhase i fun _ hactive => hactive
    · cases hs

theorem ordered (h : LineInv s) : s.Ordered :=
  (pairwise_append.1 h.line).1

end LineInv

/-! ## What calls leave behind -/

/-- What the BIO held when the call was made has been written, or is what the call writes. -/
def Call.Accounted (written : List Nat) (c : Call) : Prop :=
  match c.phase with
  | .writing data => c.held = data
  | .draining | .returned => ∀ b ∈ c.held, b ∈ written
  | .waiting | .notified => c.held = []
  | .raised => True

def Accounted (s : State) : Prop :=
  ∀ (j : Nat) (c : Call), s.calls j = some c → c.Accounted s.written

namespace Accounted

theorem setPhase (h : Accounted s) {d : Call} (hi : s.calls i = some d)
    (hnew : (⟨phase, d.held⟩ : Call).Accounted s.written) : Accounted (s.setPhase i phase) := by
  intro j c hj
  rcases calls_setPhase hj with ⟨-, e, he, rfl⟩ | ⟨-, hj⟩
  · cases hi.symm.trans he
    exact hnew
  · exact h j c hj

theorem leave (h : Accounted s) {d : Call} (hi : s.calls i = some d)
    (hnew : (⟨phase, d.held⟩ : Call).Accounted s.written) : Accounted (s.leave i phase) := by
  intro j c hj
  rcases calls_notifyAll hj with hj | ⟨held, hj, rfl⟩
  · exact h.setPhase hi hnew j c hj
  · rename_i hwaiting
    have hold := h.setPhase hi hnew j _ hwaiting
    exact hold

theorem step {a : Action} (h : Accounted s) (hc : s.Clear a) (hs : SslFlush.step s a = some s') :
    Accounted s' := by
  cases a with
  | produce n =>
    cases hs
    exact h
  | flushOutgoing =>
    cases hs
    unfold State.flushOutgoing
    split
    · rename_i hbusy
      intro j c hj
      rcases calls_addCall hj with ⟨-, rfl⟩ | hj
      · exact hc hbusy
      · exact h j c hj
    · intro j c hj
      rcases calls_addCall hj with ⟨-, rfl⟩ | hj
      · split
        · rename_i hempty
          rw [List.isEmpty_iff.1 hempty]
          exact fun b hb => absurd hb not_mem_nil
        · rfl
      · exact h j c hj
  | write i =>
    simp only [SslFlush.step] at hs
    split at hs
    · rename_i data held hi
      cases hs
      have hheld : held = data := h i _ hi
      intro j c hj
      rcases calls_setPhase hj with ⟨-, d, hd, rfl⟩ | ⟨-, hj⟩
      · cases hi.symm.trans hd
        exact fun b hb => mem_append_right _ (hheld ▸ hb)
      · have hold := h j c hj
        unfold Call.Accounted at hold ⊢
        -- what has been written stays written
        split
        · rename_i hphase
          rwa [hphase] at hold
        · rename_i hphase
          rw [hphase] at hold
          exact fun b hb => mem_append_left _ (hold b hb)
        · rename_i hphase
          rw [hphase] at hold
          exact fun b hb => mem_append_left _ (hold b hb)
        · rename_i hphase
          rwa [hphase] at hold
        · rename_i hphase
          rwa [hphase] at hold
        · trivial
    · cases hs
  | drain i =>
    simp only [SslFlush.step] at hs
    split at hs
    · rename_i hi
      cases hs
      have hold := h i _ hi
      exact h.leave hi hold
    · cases hs
  | wake i =>
    simp only [SslFlush.step] at hs
    split at hs
    · rename_i held hi
      cases hs
      have hnone : held = [] := h i _ hi
      exact h.setPhase hi fun b hb => absurd (hnone ▸ hb) not_mem_nil
    · cases hs
  | throw i =>
    simp only [SslFlush.step] at hs
    split at hs
    · rename_i hi
      cases hs
      exact h.leave hi trivial
    · rename_i hi
      cases hs
      exact h.leave hi trivial
    · rename_i hi
      cases hs
      exact h.setPhase hi trivial
    · rename_i hi
      cases hs
      exact h.setPhase hi trivial
    · cases hs

theorem delivered (h : Accounted s) : s.Delivered := by
  intro j c hj hreturned
  have hone := h j c hj
  unfold Call.Accounted at hone
  rwa [hreturned] at hone

end Accounted

/-! ## Runs -/

/-- In every run the bytes are written in order.  If no call finds a flush in progress and bytes in
the BIO, every call that returns leaves behind that what the BIO held when it was made has been
written. -/
theorem flush_delivers (run : List Action) : Always step State.Ordered init run ∧
    (Along step State.Clear init run → Always step State.Delivered init run) := by
  constructor
  · exact always_of_invariant (I := LineInv) (fun _ hI => hI.ordered)
      (fun _ _ _ hI hs => hI.step hs) run init
      LineInv.init
  · intro hclear
    exact always_of_along (I := Accounted) (fun _ hI => hI.delivered)
      (fun _ _ _ hI hc hs => hI.step hc hs) run init
      nofun hclear

/-- A call waits that finds nothing in the BIO. -/
theorem flush_delivers_waited :
    Played step (Always step State.Delivered) init [.produce 3, .flushOutgoing, .flushOutgoing,
      .write 0, .produce 2, .drain 0,
      .flushOutgoing, .wake 1, .write 2, .drain 2] :=
  ⟨(flush_delivers _).2 (by decide), by decide⟩

/-- A call waits that finds a byte in the BIO; it returns, and the byte is still there. -/
theorem waiting_call_leaves_bytes : ∃ s,
    exec step init [.produce 1, .flushOutgoing, .write 0, .produce 1, .flushOutgoing,
      .drain 0, .wake 1] = some s ∧
    ¬ s.Delivered ∧ s.outgoing = [1] := by
  refine ⟨_, rfl, fun h => ?_, rfl⟩
  exact absurd (h 1 _ rfl rfl 1 (by decide)) (by decide)

end Pytealet.Streams.SslFlush
