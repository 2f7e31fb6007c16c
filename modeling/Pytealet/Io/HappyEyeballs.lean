import Mathlib.Tactic.SplitIfs
import Pytealet.Lib.Transition

/-!
# HappyEyeballs — who owns the sockets of `connect_tcp`

Every attempt creates one socket and waits on the `IOWaitChain` that connects it (and, with Fast
Open, sends once).  The chain closes the socket when a leg fails; when it succeeds it stores the
socket, and the attempt that waits takes it: the first becomes the winner, the others close theirs.
In the race each attempt is a child of a task group; otherwise the caller makes the attempts itself,
one after the other.

An exception thrown into a waiting attempt closes the chain to further legs and asks for a cancel,
which may come too late.  The timeout between two attempts only decides when the next one is
spawned.
-/

namespace Pytealet.Io.HappyEyeballs

open Lib Lib.Transition List Bool

inductive Op
  | connecting
  /-- the one send of `sock_fastopen` -/
  | sending
  /-- the chain has stored the socket -/
  | stored
  /-- the chain has stored an error -/
  | failed
  deriving DecidableEq, Repr

/-- The socket of an attempt and its chain. -/
structure Sock where
  op : Op := .connecting
  /-- `_closed` of the chain -/
  chainClosed : Bool := false
  isOpen : Bool := true
  deriving DecidableEq, Repr

namespace Sock

/-- A leg fails: `close_on_fail`. -/
def fail (k : Sock) : Sock :=
  { k with op := .failed, isOpen := false }

def finish (k : Sock) : Sock :=
  { k with op := .stored }

/-- The connect leg completes; `submits` says whether the proactor takes the send. -/
def connected (k : Sock) (fastopen ok submits : Bool) : Sock :=
  if ok then
    if fastopen then
      -- a closed chain refuses the leg, and `on_cleanup` closes the socket
      if !k.chainClosed && submits then { k with op := .sending } else k.fail
    else k.finish
  else k.fail

def sent (k : Sock) (ok : Bool) : Sock :=
  if ok then k.finish else k.fail

/-- An interrupted `wait` with nothing stored closes the chain. -/
def interrupt (k : Sock) : Sock :=
  match k.op with
  | .connecting | .sending => { k with chainClosed := true }
  | _ => k

/-- `abortive_close` -/
def close (k : Sock) : Sock :=
  { k with isOpen := false }

end Sock

inductive Phase
  /-- spawned, before its first turn -/
  | primed
  /-- in the `wait` of its chain -/
  | waiting
  | over
  deriving DecidableEq, Repr

structure Attempt where
  phase : Phase
  sock : Option Sock := none
  deriving DecidableEq, Repr

inductive Caller
  /-- in the loop over the addresses, or at the end of the task group -/
  | trying
  /-- in `_send_unsent_tail` -/
  | tail
  | returned
  | raised
  deriving DecidableEq, Repr

structure State where
  /-- `_connect_tcp_happy_eyeballs`, not `_connect_tcp_sequential` -/
  race : Bool
  /-- a non-empty `initial` is given -/
  initial : Bool
  fastopen : Bool
  attempts : List Attempt := []
  winner : Option Nat := none
  caller : Caller := .trying
  deriving DecidableEq, Repr

inductive Tail
  | sent
  | osError
  /-- an exception thrown into the caller, or any other -/
  | raised
  deriving DecidableEq, Repr

namespace State

def setAttempt (s : State) (i : Nat) (a : Attempt) : State :=
  { s with attempts := s.attempts.set i a }

def finished (s : State) : Bool :=
  s.attempts.all fun a => a.phase = .over

/-- The winner's socket is closed. -/
def closeWinner (s : State) : State :=
  { s with attempts := s.attempts.mapIdx fun i a =>
    if s.winner = some i then { a with sock := a.sock.map Sock.close } else a }

/-- The attempt at `i` gets its socket from the chain. -/
def take (s : State) (i : Nat) (k : Sock) : State :=
  match s.winner with
  | none =>
    { s.setAttempt i ⟨.over, some k⟩ with
      winner := some i
      caller := if s.race then s.caller else if s.initial then .tail else .returned }
  | some _ => s.setAttempt i ⟨.over, some k.close⟩

end State

inductive Action
  /-- the loop spawns an attempt -/
  | spawn
  /-- an attempt is cancelled before its first turn -/
  | kill (i : Nat)
  /-- the first turn of an attempt; `ok` says whether there is a socket to wait for -/
  | start (i : Nat) (ok : Bool)
  /-- the next address of the sequential loop -/
  | attempt (ok : Bool)
  | connected (i : Nat) (ok submits : Bool)
  | sent (i : Nat) (ok : Bool)
  /-- the `wait` of an attempt returns or raises what the chain has stored -/
  | resume (i : Nat)
  | interrupt (i : Nat)
  /-- the task group is left; `raises` says whether by an exception -/
  | leave (raises : Bool)
  /-- the sequential loop has no address left -/
  | exhausted
  | tail (how : Tail)
  deriving DecidableEq, Repr

def step (s : State) : Action → Option State
  | .spawn =>
    if s.race && s.caller = .trying && s.winner.isNone then
      some { s with attempts := s.attempts ++ [⟨.primed, none⟩] }
    else none
  | .kill i =>
    match s.attempts[i]? with
    | some ⟨.primed, _⟩ => some (s.setAttempt i ⟨.over, none⟩)
    | _ => none
  | .start i ok =>
    match s.attempts[i]? with
    | some ⟨.primed, _⟩ => some (s.setAttempt i (if ok then ⟨.waiting, some {}⟩ else ⟨.over, none⟩))
    | _ => none
  | .attempt ok =>
    if !s.race && s.caller = .trying && s.finished then
      some { s with attempts := s.attempts ++ [if ok then ⟨.waiting, some {}⟩ else ⟨.over, none⟩] }
    else none
  | .connected i ok submits =>
    match s.attempts[i]? with
    | some ⟨phase, some k⟩ =>
      if k.op = .connecting then
        some (s.setAttempt i ⟨phase, some (k.connected (s.initial && s.fastopen) ok submits)⟩)
      else none
    | _ => none
  | .sent i ok =>
    match s.attempts[i]? with
    | some ⟨phase, some k⟩ =>
      if k.op = .sending then some (s.setAttempt i ⟨phase, some (k.sent ok)⟩) else none
    | _ => none
  | .resume i =>
    match s.attempts[i]? with
    | some ⟨.waiting, some k⟩ =>
      match k.op with
      | .stored => some (s.take i k)
      | .failed => some (s.setAttempt i ⟨.over, some k⟩)
      | _ => none
    | _ => none
  | .interrupt i =>
    match s.attempts[i]? with
    | some ⟨.waiting, some k⟩ =>
      some { s.setAttempt i ⟨.over, some k.interrupt⟩ with caller := if s.race then s.caller else .raised }
    | _ => none
  | .leave raises =>
    if s.race && s.caller = .trying then
      if raises then some { s.closeWinner with caller := .raised }
      else
        match s.winner with
        | some _ => some { s with caller := if s.initial then .tail else .returned }
        | none => some { s with caller := .raised }
    else none
  | .exhausted => if !s.race && s.caller = .trying && s.finished then
      some { s with caller := .raised } else none
  | .tail how =>
    if s.caller = .tail then
      match how with
      | .sent => some { s with caller := .returned }
      | .osError =>
        if s.race then some { s.closeWinner with caller := .raised }
        else some { s.closeWinner with winner := none, caller := .trying }
      | .raised => some { s.closeWinner with caller := .raised }
    else none

def init (race initial fastopen : Bool) : State :=
  { race := race, initial := initial, fastopen := fastopen }

namespace State

/-- An attempt that is interrupted fails after all, and the task group waits for its children. -/
def Kept (s : State) : Action → Prop
  | .connected i ok _ => ok = true → (s.initial && s.fastopen) = false →
      ∀ a, s.attempts[i]? = some a → a.phase ≠ .over
  | .sent i ok => ok = true → ∀ a, s.attempts[i]? = some a → a.phase ≠ .over
  | .interrupt i => ∀ a, s.attempts[i]? = some a → ∀ k ∈ a.sock, k.op ≠ .stored
  | .leave _ => s.finished = true
  | _ => True

instance (s : State) (i : Nat) (P : Attempt → Prop) [DecidablePred P] :
    Decidable (∀ a, s.attempts[i]? = some a → P a) :=
  match h : s.attempts[i]? with
  | some a => decidable_of_iff (P a) (by simp [h])
  | none => isTrue (by simp [h])

instance (s : State) (a : Action) : Decidable (s.Kept a) := by
  unfold Kept
  split <;> infer_instance

/-- A socket that an attempt has left behind is the winner's, or it is closed or going to be. -/
structure AttemptOk (s : State) (i : Nat) (a : Attempt) : Prop where
  failed : ∀ k ∈ a.sock, k.op = .failed → k.isOpen = false
  stored : a.phase = .over → ∀ k ∈ a.sock, k.op = .stored → k.isOpen = true →
    s.winner = some i ∧ s.caller ≠ .raised

/-- The sockets are accounted for, and the caller is past its attempts only when they all are
over. -/
structure Inv (s : State) : Prop where
  attempt : ∀ i a, s.attempts[i]? = some a → s.AttemptOk i a
  /-- the caller is past its attempts -/
  settled : s.caller ≠ .trying → s.finished = true
  returned : s.caller = .returned ∨ s.caller = .tail → s.winner.isSome = true
  /-- the sequential loop goes on without a winner, and makes one attempt at a time -/
  loop : s.race = false → s.caller = .trying → s.winner = none
  one : s.race = false → ∀ (i j : Nat) (a b : Attempt), s.attempts[i]? = some a → s.attempts[j]? = some b →
    a.phase ≠ .over → b.phase ≠ .over → i = j

variable {s s' : State} {i : Nat} {a a' : Attempt} {k : Sock}

theorem finished_iff : s.finished = true ↔ ∀ a ∈ s.attempts, a.phase = .over := by
  simp [finished]

theorem AttemptOk.congr (ha : s.AttemptOk i a) (hwinner : s'.winner = s.winner)
    (hcaller : s'.caller = s.caller) :
    s'.AttemptOk i a where
  failed := ha.failed
  stored := by
    rw [hwinner, hcaller]
    exact ha.stored

theorem getElem?_setAttempt {j : Nat} {b : Attempt} (hj : (s.setAttempt i a').attempts[j]? = some b) :
    i = j ∧ b = a' ∨ s.attempts[j]? = some b := by
  change (s.attempts.set i a')[j]? = some b at hj
  rw [List.getElem?_set] at hj
  split_ifs at hj with hij
  · exact .inl ⟨hij, (Option.some.inj hj).symm⟩
  · exact .inr hj

theorem Inv.setAttempt (hI : s.Inv) (ha : s.attempts[i]? = some a) (ha' : s.AttemptOk i a')
    (hover : a.phase = .over → a'.phase = .over) : (s.setAttempt i a').Inv where
  attempt := by
    intro j b hj
    rcases getElem?_setAttempt hj with ⟨rfl, rfl⟩ | hj
    · exact ha'.congr rfl rfl
    · exact (hI.attempt j b hj).congr rfl rfl
  settled := fun hcaller => by
    have hfinished := hI.settled hcaller
    rw [finished_iff]
    intro b hb
    rcases mem_or_eq_of_mem_set hb with hb | rfl
    · exact finished_iff.1 hfinished b hb
    · exact hover (finished_iff.1 hfinished a (mem_of_getElem? ha))
  returned := hI.returned
  loop := hI.loop
  one := fun hrace j k b c hj hk hb hc => by
    rcases getElem?_setAttempt hj with ⟨rfl, rfl⟩ | hj' <;> rcases getElem?_setAttempt hk with
      ⟨rfl, rfl⟩ | hk'
    · rfl
    · exact hI.one hrace _ _ a c ha hk' (fun h => hb (hover h)) hc
    · exact hI.one hrace _ _ b a hj' ha hb (fun h => hc (hover h))
    · exact hI.one hrace _ _ b c hj' hk' hb hc

theorem Inv.finished_set (hI : s.Inv) (hrace : s.race = false) (ha : s.attempts[i]? = some a)
    (hnot : a.phase ≠ .over) (hover : a'.phase = .over) : (s.setAttempt i a').finished = true := by
  rw [finished_iff]
  intro b hb
  rcases List.getElem?_of_mem hb with ⟨j, hj⟩
  rcases getElem?_setAttempt hj with ⟨rfl, rfl⟩ | hj'
  · exact hover
  · by_contra hbnot
    have hij : i = j := hI.one hrace i j a b ha hj' hnot hbnot
    subst hij
    rcases List.getElem?_eq_some_iff.1 ha with ⟨hlt, -⟩
    have hself : (s.setAttempt i a').attempts[i]? = some a' := List.getElem?_set_self hlt
    rw [hself] at hj
    cases hj
    exact hbnot hover

theorem Inv.phase (hI : s.Inv) (ha : s.attempts[i]? = some a) (hover : s.finished = true) :
    a.phase = .over :=
  finished_iff.1 hover a (mem_of_getElem? ha)

theorem closeWinner_closed (hI : s.Inv) {b : Attempt} (hb : s.closeWinner.attempts[i]? = some b) :
    (∀ k ∈ b.sock, k.op = .failed → k.isOpen = false) ∧
      (b.phase = .over → ∀ k ∈ b.sock, k.op = .stored → k.isOpen = false) := by
  have hget : s.closeWinner.attempts[i]? = s.attempts[i]?.map fun a =>
      if s.winner = some i then { a with sock := a.sock.map Sock.close } else a := List.getElem?_mapIdx ..
  rw [hget, Option.map_eq_some_iff] at hb
  rcases hb with ⟨a, ha, rfl⟩
  have hok := hI.attempt i a ha
  split_ifs with hwinner
  · refine ⟨fun k hk _ => ?_, fun _ k hk _ => ?_⟩ <;>
      rcases Option.map_eq_some_iff.1 hk with ⟨k', -, rfl⟩ <;> rfl
  · refine ⟨hok.failed, fun hover k hk hstored => ?_⟩
    cases hopen : k.isOpen with
    | false => rfl
    | true => exact absurd (hok.stored hover k hk hstored hopen).1 hwinner

theorem phase_closeWinner {b : Attempt} (hb : s.closeWinner.attempts[i]? = some b) :
    ∃ a, s.attempts[i]? = some a ∧ b.phase = a.phase := by
  have hget : s.closeWinner.attempts[i]? = s.attempts[i]?.map fun a =>
      if s.winner = some i then { a with sock := a.sock.map Sock.close } else a := List.getElem?_mapIdx ..
  rw [hget, Option.map_eq_some_iff] at hb
  rcases hb with ⟨a, ha, rfl⟩
  refine ⟨a, ha, ?_⟩
  split_ifs <;> rfl

theorem finished_closeWinner (hfinished : s.finished = true) : s.closeWinner.finished = true := by
  rw [finished_iff]
  intro b hb
  rcases List.getElem?_of_mem hb with ⟨j, hj⟩
  rcases phase_closeWinner hj with ⟨a, ha, hphase⟩
  rw [hphase]
  exact finished_iff.1 hfinished a (mem_of_getElem? ha)

theorem Inv.closeWinner (hI : s.Inv) (hfinished : s.finished = true) {caller : Caller} {winner : Option Nat}
    (hcaller : caller = .raised ∨ caller = .trying ∧ winner = none) :
    ({ s.closeWinner with winner := winner, caller := caller } : State).Inv where
  attempt := by
    intro i b hb
    have hclosed := closeWinner_closed hI hb
    refine ⟨hclosed.1, fun hover k hk hstored hopen => ?_⟩
    rw [hclosed.2 hover k hk hstored] at hopen
    cases hopen
  settled := fun _ => finished_closeWinner hfinished
  returned := fun hor => by
    rcases hcaller with rfl | ⟨rfl, -⟩ <;> rcases hor with hor | hor <;> cases hor
  loop := fun _ htrying => by
    rcases hcaller with hraised | ⟨-, hnone⟩
    · rw [hraised] at htrying
      cases htrying
    · exact hnone
  one := fun hrace i j a b ha hb hna hnb => by
    rcases phase_closeWinner ha with ⟨a₀, ha₀, hpa⟩
    rcases phase_closeWinner hb with ⟨b₀, hb₀, hpb⟩
    exact hI.one hrace i j a₀ b₀ ha₀ hb₀ (hpa ▸ hna) (hpb ▸ hnb)

theorem Inv.trying (hI : s.Inv) (ha : s.attempts[i]? = some a) (hnot : a.phase ≠ .over) :
    s.caller = .trying := by
  by_contra hcaller
  exact hnot (hI.phase ha (hI.settled hcaller))

theorem Inv.take (hI : s.Inv) (ha : s.attempts[i]? = some ⟨.waiting, some k⟩) (hstored : k.op = .stored) :
    (s.take i k).Inv := by
  have htrying := hI.trying ha (by simp)
  unfold State.take
  split
  · rename_i hnone
    have hset : (s.setAttempt i ⟨.over, some k⟩).attempts = s.attempts.set i ⟨.over, some k⟩ := rfl
    refine ⟨fun j b hj => ?_, fun hnot => ?_, fun _ => rfl, fun hrace hc => ?_,
      fun hrace j l b c hj hl hb hc => ?_⟩
    · rcases getElem?_setAttempt (s := s) hj with ⟨rfl, rfl⟩ | hj
      · refine ⟨fun k' hk' hfailed => ?_, fun _ k' _ _ _ => ⟨rfl, ?_⟩⟩
        · cases hk'
          rw [hstored] at hfailed
          cases hfailed
        · change (if s.race then s.caller else if s.initial then Caller.tail else .returned) ≠ .raised
          rw [htrying]
          split_ifs <;> simp
      · have hok := hI.attempt j b hj
        refine ⟨hok.failed, fun hover k' hk' hstored' hopen => ?_⟩
        have hwinner := (hok.stored hover k' hk' hstored' hopen).1
        rw [hnone] at hwinner
        cases hwinner
    · cases hrace : s.race with
      | false => exact hI.finished_set hrace ha (by simp) rfl
      | true => exact absurd (by simp [hrace, htrying]) hnot
    · have hc' : (if s.race then s.caller else if s.initial then Caller.tail else .returned) = .trying := hc
      rw [show s.race = false from hrace] at hc'
      simp only [false_eq_true, if_false] at hc'
      split_ifs at hc'
    · have hover : (⟨.over, some k⟩ : Attempt).phase = .over := rfl
      have hall := finished_iff.1 (hI.finished_set hrace ha (by simp) hover)
      exact absurd (hall b (mem_of_getElem? hj)) hb
  · refine hI.setAttempt ha ⟨fun k' hk' _ => ?_, fun _ k' hk' _ hopen => ?_⟩ fun _ => rfl
    · cases hk'
      rfl
    · cases hk'
      cases hopen

theorem Inv.chain {phase : Phase} {k k' : Sock} (hI : s.Inv) (ha : s.attempts[i]? = some ⟨phase, some k⟩)
    (hfailed : k'.op = .failed → k'.isOpen = false) (hstored : k'.op = .stored → phase ≠ .over) :
    (s.setAttempt i ⟨phase, some k'⟩).Inv := by
  refine hI.setAttempt ha ⟨fun k₁ hk₁ hf => ?_, fun hover k₁ hk₁ hs => ?_⟩ fun hover => hover
  · cases hk₁
    exact hfailed hf
  · cases hk₁
    exact absurd hover (hstored hs)

theorem Inv.interrupt (hI : s.Inv) (ha : s.attempts[i]? = some ⟨.waiting, some k⟩) (hnot : k.op ≠ .stored) :
    ({ s.setAttempt i ⟨.over, some k.interrupt⟩ with caller := if s.race then s.caller else
      .raised } : State).Inv := by
  have htrying := hI.trying ha (by simp)
  have hop : k.interrupt.op = k.op := by
    unfold Sock.interrupt
    split <;> rfl
  have hset : (s.setAttempt i ⟨.over, some k.interrupt⟩).Inv := by
    refine hI.setAttempt ha ⟨fun k₁ hk₁ hf => ?_, fun _ k₁ hk₁ hs => ?_⟩ fun _ => rfl
    · cases hk₁
      have hopen : k.interrupt.isOpen = k.isOpen := by
        unfold Sock.interrupt
        split <;> rfl
      rw [hopen]
      exact (hI.attempt i _ ha).failed k rfl (hop ▸ hf)
    · cases hk₁
      exact absurd (hop ▸ hs) hnot
  cases hrace : s.race with
  | true =>
    simp only [if_true]
    exact hset
  | false =>
    have hnone := hI.loop hrace htrying
    refine ⟨fun j b hj => ?_, fun _ => hI.finished_set hrace ha (by simp) rfl, fun hor => ?_,
      fun _ hc => ?_, hset.one⟩
    · have hok := hset.attempt j b hj
      refine ⟨hok.failed, fun hover k₁ hk₁ hs ho => ?_⟩
      have hwinner := (hok.stored hover k₁ hk₁ hs ho).1
      rw [show (s.setAttempt i _).winner = none from hnone] at hwinner
      cases hwinner
    · rcases hor with hor | hor <;> cases hor
    · cases hc

theorem Inv.add (hI : s.Inv) (htrying : s.caller = .trying) {b : Attempt}
    (hfresh : ∀ k ∈ b.sock, k.op = .connecting) (hone : s.race = false → s.finished = true) :
    ({ s with attempts := s.attempts ++ [b] } : State).Inv := by
  have hnew : ∀ {j : Nat} {c : Attempt}, (s.attempts ++ [b])[j]? = some c →
      s.attempts[j]? = some c ∨ j = s.attempts.length ∧ c = b := by
    intro j c hj
    by_cases hlt : j < s.attempts.length
    · rw [List.getElem?_append_left hlt] at hj
      exact .inl hj
    · have hlen := (List.getElem?_eq_some_iff.1 hj).1
      rw [length_append, length_singleton] at hlen
      have heq : j = s.attempts.length := by omega
      subst heq
      rw [List.getElem?_concat_length] at hj
      exact .inr ⟨rfl, (Option.some.inj hj).symm⟩
  refine ⟨fun j c hj => ?_, fun hnot => absurd htrying hnot, hI.returned, hI.loop,
    fun hrace j l c d hj hl hc hd => ?_⟩
  · rcases hnew hj with hj | ⟨-, rfl⟩
    · exact (hI.attempt j c hj).congr rfl rfl
    · refine ⟨fun k hk hf => ?_, fun _ k hk hs => ?_⟩
      · rw [hfresh k hk] at hf
        cases hf
      · rw [hfresh k hk] at hs
        cases hs
  · have hall := finished_iff.1 (hone hrace)
    rcases hnew hj with hj | ⟨rfl, -⟩
    · exact absurd (hall c (mem_of_getElem? hj)) hc
    · rcases hnew hl with hl | ⟨rfl, -⟩
      · exact absurd (hall d (mem_of_getElem? hl)) hd
      · rfl

theorem Inv.caller (hI : s.Inv) (hfinished : s.finished = true) {c : Caller} (hc : c ≠ .trying)
    (hraised : c = .raised → s.winner = none)
    (hreturned : c = .returned ∨ c = .tail → s.winner.isSome = true) :
    ({ s with caller := c } : State).Inv where
  attempt := fun i a ha => by
    have hok := hI.attempt i a ha
    refine ⟨hok.failed, fun hover k hk hs ho => ?_⟩
    have hwinner := (hok.stored hover k hk hs ho).1
    refine ⟨hwinner, fun heq => ?_⟩
    rw [hraised heq] at hwinner
    cases hwinner
  settled := fun _ => hfinished
  returned := hreturned
  loop := fun _ heq => absurd heq hc
  one := hI.one

theorem Inv.connected {ok submits : Bool} (hI : s.Inv) (hok : s.Kept (.connected i ok submits))
    (hs : step s (.connected i ok submits) = some s') : s'.Inv := by
  simp only [HappyEyeballs.step] at hs
  split at hs
  · rename_i phase k ha
    split_ifs at hs with hop
    cases hs
    refine hI.chain ha (fun hf => ?_) fun hstored hover => ?_
    · unfold Sock.connected at hf ⊢
      split_ifs at hf ⊢ <;> first | rfl | cases hf
    · unfold Sock.connected at hstored
      split at hstored
      · rename_i h1
        split at hstored
        · split at hstored <;> cases hstored
        · rename_i h2
          exact hok h1 (by simpa using h2) _ ha hover
      · cases hstored
  · cases hs

theorem Inv.sent {ok : Bool} (hI : s.Inv) (hok : s.Kept (.sent i ok))
    (hs : step s (.sent i ok) = some s') : s'.Inv := by
  simp only [HappyEyeballs.step] at hs
  split at hs
  · rename_i phase k ha
    split_ifs at hs with hop
    cases hs
    refine hI.chain ha (fun hf => ?_) fun hstored hover => ?_
    · unfold Sock.sent at hf ⊢
      split_ifs at hf ⊢
      · cases hf
      · rfl
    · unfold Sock.sent at hstored
      split_ifs at hstored with h1
      · exact hok h1 _ ha hover
      · cases hstored
  · cases hs

theorem Inv.resume (hI : s.Inv) (hs : step s (.resume i) = some s') : s'.Inv := by
  simp only [HappyEyeballs.step] at hs
  split at hs
  · rename_i k ha
    split at hs
    · rename_i hstored
      cases hs
      exact hI.take ha hstored
    · rename_i hfailed
      cases hs
      refine hI.setAttempt ha ⟨fun k' hk' hf => ?_, fun _ k' hk' hs' => ?_⟩ fun _ => rfl
      · cases hk'
        exact (hI.attempt i _ ha).failed k rfl hf
      · cases hk'
        rw [hfailed] at hs'
        cases hs'
    · cases hs
  · cases hs

theorem Inv.leave {raises : Bool} (hI : s.Inv) (hok : s.Kept (.leave raises))
    (hs : step s (.leave raises) = some s') : s'.Inv := by
  simp only [HappyEyeballs.step] at hs
  split at hs
  · split at hs
    · cases hs
      exact hI.closeWinner hok (.inl rfl)
    · split at hs
      · rename_i w hw
        cases hs
        refine hI.caller hok ?_ ?_ fun _ => by rw [hw]; rfl
        · split_ifs <;> simp
        · split_ifs <;> simp
      · rename_i hw
        cases hs
        exact hI.caller hok (by simp) (fun _ => hw) (by simp)
  · cases hs

theorem Inv.ended {how : Tail} (hI : s.Inv) (hok : s.Kept (.tail how))
    (hs : step s (.tail how) = some s') : s'.Inv := by
  simp only [HappyEyeballs.step] at hs
  split at hs
  · rename_i hcaller
    have hfinished := hI.settled (by rw [hcaller]; simp)
    have hwinner := hI.returned (.inr hcaller)
    cases how with
    | sent =>
      cases hs
      exact hI.caller hfinished (by simp) (by simp) fun _ => hwinner
    | osError =>
      simp only at hs
      split at hs
      · cases hs
        exact hI.closeWinner hfinished (.inl rfl)
      · cases hs
        exact hI.closeWinner hfinished (.inr ⟨rfl, rfl⟩)
    | raised =>
      cases hs
      exact hI.closeWinner hfinished (.inl rfl)
  · cases hs

theorem Inv.step {a : Action} (hI : s.Inv) (hok : s.Kept a) (hs : step s a = some s') : s'.Inv := by
  cases a with
  | spawn =>
    simp only [HappyEyeballs.step] at hs
    split_ifs at hs with hguard
    cases hs
    simp only [and_eq_true, decide_eq_true_eq] at hguard
    refine hI.add hguard.1.2 (by simp) fun hrace => ?_
    rw [hguard.1.1] at hrace
    cases hrace
  | kill i =>
    simp only [HappyEyeballs.step] at hs
    split at hs
    · rename_i sock ha
      cases hs
      exact hI.setAttempt ha ⟨nofun, fun _ => nofun⟩ fun _ => rfl
    · cases hs
  | start i ok =>
    simp only [HappyEyeballs.step] at hs
    split at hs
    · rename_i sock ha
      cases hs
      cases ok with
      | true =>
        refine hI.setAttempt ha ⟨fun k hk hf => ?_, fun hover => ?_⟩ (by simp)
        · cases hk
          cases hf
        · cases hover
      | false => exact hI.setAttempt ha ⟨nofun, fun _ => nofun⟩ fun _ => rfl
    · cases hs
  | attempt ok =>
    simp only [HappyEyeballs.step] at hs
    split at hs
    · rename_i hguard
      cases hs
      simp only [and_eq_true, decide_eq_true_eq, not_eq_true'] at hguard
      refine hI.add hguard.1.2 (fun k hk => ?_) fun _ => hguard.2
      cases ok with
      | true =>
        cases hk
        rfl
      | false => cases hk
    · cases hs
  | connected i ok submits => exact hI.connected hok hs
  | sent i ok => exact hI.sent hok hs
  | resume i => exact hI.resume hs
  | interrupt i =>
    simp only [HappyEyeballs.step] at hs
    split at hs
    · rename_i k ha
      cases hs
      exact hI.interrupt ha (hok _ ha k rfl)
    · cases hs
  | leave raises => exact hI.leave hok hs
  | exhausted =>
    simp only [HappyEyeballs.step] at hs
    split_ifs at hs with hguard
    cases hs
    simp only [and_eq_true, decide_eq_true_eq, not_eq_true'] at hguard
    exact hI.caller hguard.2 (by simp) (fun _ => hI.loop hguard.1.1 hguard.1.2) (by simp)
  | tail how => exact hI.ended hok hs

theorem Inv.init (race initial fastopen : Bool) : (init race initial fastopen).Inv where
  attempt := nofun
  settled := fun h => absurd rfl h
  returned := by simp [HappyEyeballs.init]
  loop := fun _ _ => rfl
  one := nofun

/-- When every operation has completed and the call is over, no socket is open but the one it
returned. -/
def Owned (s : State) : Prop :=
  (∀ a ∈ s.attempts, ∀ k ∈ a.sock, k.op = .stored ∨ k.op = .failed) →
    s.caller = .returned ∨ s.caller = .raised →
    (∀ i a, s.attempts[i]? = some a → ∀ k ∈ a.sock, k.isOpen = true →
      s.caller = .returned ∧ s.winner = some i) ∧
      (s.caller = .returned → s.winner.isSome = true)

theorem Inv.owned (hI : s.Inv) : s.Owned := by
  intro hcompleted hcaller
  refine ⟨fun i a ha k hk hopen => ?_, fun hreturned => hI.returned (.inl hreturned)⟩
  have hok := hI.attempt i a ha
  have hover := hI.phase ha (hI.settled (by rcases hcaller with h | h <;> simp [h]))
  rcases hcompleted a (mem_of_getElem? ha) k hk with hstored | hfailed
  · rcases hok.stored hover k hk hstored hopen with ⟨hwinner, hnot⟩
    exact ⟨hcaller.resolve_right hnot, hwinner⟩
  · rw [hok.failed k hk hfailed] at hopen
    cases hopen

end State

/-! ## Runs -/

end Pytealet.Io.HappyEyeballs
