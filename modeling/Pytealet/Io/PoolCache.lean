import Mathlib.Data.Finset.Basic
import Pytealet.Lib.Transition

/-!
# PoolCache — `RecvBufferPoolCache`, one lock section after the other

Any number of threads are in `acquire`.  A step of a call is a section under the cache lock, with
the code after it up to the next one; the questions to a pool and its creation are steps of their
own.  Other code makes pools as well, and drops them: an object that has been dropped leaves its
address, which is its `id()`, to a later one.

Who holds a pool that the cache has handed out is not known to the cache; `held`, `closes` and
`gone` are kept beside it.
-/

namespace Pytealet.Io.PoolCache

open Lib Lib.Transition

structure Config where
  bufferSize : Nat
  bufferCount : Nat
  maxFree : Option Int

/-- A pool object; `own` says whether the cache has created it. -/
structure Pool where
  addr : Nat
  size : Nat
  count : Nat
  own : Bool
deriving DecidableEq, Repr

/-- What a checkout has found out about the front pool. -/
inductive Answer
  | unregistered
  /-- `in_use()` has raised -/
  | raised
  | busy
  | idle
deriving DecidableEq, Repr

/-- Where a call of `acquire` is. -/
inductive Call
  /-- before the next turn of the loop, with `turns` left -/
  | looping (turns : Nat)
  /-- the pool is off the deque -/
  | asking (i turns : Nat)
  | told (i turns : Nat) (answer : Answer)
  /-- inside `create`, in `_allocate` -/
  | creating
  | returned (i : Nat)
  | failed
deriving DecidableEq, Repr

/-- The pools that are away with a call. -/
def Call.asked : Call → List Nat
  | .asking i _ => [i]
  | .told i _ _ => [i]
  | _ => []

def asked (calls : List Call) : List Nat :=
  calls.flatMap Call.asked

structure State where
  free : List Nat
  /-- the `id()` of the pools that the cache has -/
  parked : Finset Nat
  /-- the `id()` of the pools that it has handed out -/
  checkedOut : Finset Nat
  away : Nat
  closed : Bool
  calls : List Call
  /-- the pools that have been made so far, by whomever -/
  made : Nat
  pool : Nat → Pool
  dropped : Finset Nat
  /-- the pools with group id 0 -/
  unregistered : Finset Nat
  inUse : Finset Nat
  /-- the pools that a caller has been given, and has not released since -/
  held : List Nat
  /-- the calls of `close` of a pool -/
  closes : List Nat
  /-- the pools that the cache has let go, since others had freed them -/
  gone : List Nat

namespace State

def start : State where
  free := []
  parked := ∅
  checkedOut := ∅
  away := 0
  closed := false
  calls := []
  made := 0
  pool := fun _ => ⟨0, 0, 0, false⟩
  dropped := ∅
  unregistered := ∅
  inUse := ∅
  held := []
  closes := []
  gone := []

def addr (s : State) (i : Nat) : Nat :=
  (s.pool i).addr

def setCall (s : State) (k : Nat) (c : Call) : State :=
  { s with calls := s.calls.set k c }

def atCap (cfg : Config) (s : State) : Bool :=
  match cfg.maxFree with
  | none => false
  | some m => m ≤ (s.free.length + s.away : Nat)

def drainLocked (s : State) : State :=
  { s with free := [], parked := s.parked \ (s.free.map s.addr).toFinset, closes := s.free ++ s.closes }

/-- The pool goes to the back of the deque again. -/
def putBack (s : State) (i : Nat) : State :=
  { s with away := s.away - 1, parked := insert (s.addr i) s.parked, free := s.free ++ [i] }

/-- `if self._closed: self._drain_locked()` -/
def drainIfClosed (s : State) : State :=
  if s.closed then s.drainLocked else s

/-- The section after the answer; what it returns is the state and the next place of the call. -/
def settle (s : State) (i turns : Nat) : Answer → State × Call
  | .unregistered =>
    ({ s with away := s.away - 1, parked := s.parked.erase (s.addr i), gone := i :: s.gone },
      .looping turns)
  | .raised => ((s.putBack i).drainIfClosed, .failed)
  | .busy => ((s.putBack i).drainIfClosed, if s.closed then .failed else .looping turns)
  | .idle =>
    if s.closed then ((s.putBack i).drainLocked, .failed)
    else
      ({ s with away := s.away - 1, parked := s.parked.erase (s.addr i), checkedOut := insert (s.addr i) s.checkedOut,
                held := i :: s.held }, .returned i)

/-- Another pool object is made. -/
def make (s : State) (p : Pool) : State :=
  { s with made := s.made + 1, pool := Function.update s.pool s.made p }

/-- No object has the address. -/
def Unused (s : State) (a : Nat) : Prop :=
  ∀ i < s.made, i ∉ s.dropped → s.addr i ≠ a

instance (s : State) (a : Nat) : Decidable (s.Unused a) :=
  inferInstanceAs (Decidable (∀ i < s.made, i ∉ s.dropped → s.addr i ≠ a))

/-- The second section of `_allocate`. -/
def register (cfg : Config) (s : State) (a : Nat) : State × Call :=
  let i := s.made
  let s := s.make ⟨a, cfg.bufferSize, cfg.bufferCount, true⟩
  if s.closed then ({ s with closes := i :: s.closes }, .failed)
  else ({ s with checkedOut := insert a s.checkedOut, held := i :: s.held }, .returned i)

def release (cfg : Config) (s : State) (i : Nat) : State :=
  let key := s.addr i
  if i ∈ s.unregistered then
    { s with checkedOut := s.checkedOut.erase key, held := s.held.erase i,
             gone := if i ∈ s.held then i :: s.gone else s.gone }
  else if key ∈ s.parked then s
  else if key ∈ s.checkedOut ∧ s.closed = false ∧ s.atCap cfg = false then
    { s with checkedOut := s.checkedOut.erase key, held := s.held.erase i, parked := insert key s.parked,
             free := s.free ++ [i] }
  else { s with checkedOut := s.checkedOut.erase key, held := s.held.erase i, closes := i :: s.closes }

end State

inductive Act
  | acquire
  | pop (k : Nat)
  /-- `raises` says whether `in_use()` raises -/
  | ask (k : Nat) (raises : Bool)
  | settle (k : Nat)
  /-- the first section of `_allocate` -/
  | allocate (k : Nat)
  /-- `create` ends, with a pool at this address or with an error -/
  | create (k : Nat) (addr : Option Nat)
  | release (i : Nat)
  | close
  /-- other code makes a pool -/
  | foreign (addr size count : Nat)
  | drop (i : Nat)
  /-- the holder of a pool begins to use it, or all uses of it have come to an end -/
  | use (i : Nat)
  | unuse (i : Nat)
  | unregister (i : Nat)
deriving DecidableEq, Repr

open State in
def step (cfg : Config) (s : State) : Act → Option State
  | .acquire =>
    some { s with calls := s.calls ++ [if s.closed then .failed else .looping s.free.length] }
  | .pop k =>
    match s.calls[k]? with
    | some (.looping (n + 1)) =>
      match s.free with
      | [] => some (s.setCall k (.looping 0))
      | i :: rest => some ({ s with free := rest, away := s.away + 1 }.setCall k (.asking i n))
    | _ => none
  | .ask k raises =>
    match s.calls[k]? with
    | some (.asking i n) =>
      let answer : Answer :=
        if i ∈ s.unregistered then .unregistered else if raises then .raised else
          if i ∈ s.inUse then .busy else .idle
      some (s.setCall k (.told i n answer))
    | _ => none
  | .settle k =>
    match s.calls[k]? with
    | some (.told i n answer) => some ((s.settle i n answer).1.setCall k (s.settle i n answer).2)
    | _ => none
  | .allocate k =>
    match s.calls[k]? with
    | some (.looping 0) => some (s.setCall k (if s.closed then .failed else .creating))
    | _ => none
  | .create k addr =>
    match s.calls[k]? with
    | some .creating =>
      match addr with
      | none => some (s.setCall k .failed)
      | some a => if s.Unused a then some ((s.register cfg a).1.setCall k (s.register cfg a).2) else none
    | _ => none
  | .release i => if i < s.made ∧ i ∉ s.dropped then some (s.release cfg i) else none
  | .close => some { s with closed := true }.drainLocked
  | .foreign a size count => if s.Unused a then some (s.make ⟨a, size, count, false⟩) else none
  | .drop i =>
    -- the deque and the calls keep their pools alive
    if i < s.made ∧ i ∉ s.free ∧ i ∉ asked s.calls then
      some { s with dropped := insert i s.dropped } else none
  | .use i => if i ∈ s.held then some { s with inUse := insert i s.inUse } else none
  | .unuse i => some { s with inUse := s.inUse.erase i }
  | .unregister i => if i < s.made then some { s with unregistered := insert i s.unregistered } else none

section Rules

variable {cfg : Config} {s s' : State} {i j k n : Nat} {c : Call}

theorem told_asked {answer : Answer} (hk : s.calls[k]? = some (.told i n answer)) : i ∈ asked s.calls :=
  List.mem_flatMap.mpr ⟨_, List.mem_of_getElem? hk, List.mem_singleton_self i⟩

theorem getElem?_setCall {d : Call} (hj : (s.setCall k c).calls[j]? = some d) : c = d ∨
    s.calls[j]? = some d := by
  change (s.calls.set k c)[j]? = some d at hj
  rw [List.getElem?_set] at hj
  split at hj
  · split at hj
    · exact .inl (Option.some.inj hj)
    · cases hj
  · exact .inr hj

theorem release_calls (cfg : Config) (s : State) (i : Nat) : (s.release cfg i).calls = s.calls := by
  unfold State.release
  dsimp only
  split
  · rfl
  · split
    · rfl
    · split <;> rfl

/-! ## What a step can do -/

inductive Step (cfg : Config) (s : State) : Act → State → Prop
  | acquire (c : Call) (hc : c = .failed ∨ ∃ n, c = .looping n) :
    Step cfg s .acquire { s with calls := s.calls ++ [c] }
  | popEmpty {k n : Nat} (hk : s.calls[k]? = some (.looping (n + 1))) :
    Step cfg s (.pop k) (s.setCall k (.looping 0))
  | pop {k n i : Nat} {rest : List Nat} (hk : s.calls[k]? = some (.looping (n + 1)))
    (hfree : s.free = i :: rest) :
      Step cfg s (.pop k) ({ s with free := rest, away := s.away + 1 }.setCall k (.asking i n))
  | ask {k i n : Nat} {raises : Bool} (answer : Answer) (hk : s.calls[k]? = some (.asking i n))
      (hidle : answer = .idle → i ∉ s.inUse) (hfreed : answer = .unregistered → i ∈ s.unregistered) :
      Step cfg s (.ask k raises) (s.setCall k (.told i n answer))
  | letGo {k i n : Nat} (hk : s.calls[k]? = some (.told i n .unregistered)) :
      Step cfg s (.settle k)
        ({ s with away := s.away - 1, parked := s.parked.erase (s.addr i), gone := i :: s.gone }.setCall k (.looping n))
  | putBack {k i n : Nat} {answer : Answer} (c : Call) (hk : s.calls[k]? = some (.told i n answer))
      (hc : c = .failed ∨ ∃ n, c = .looping n) (hopen : s.closed = false) :
      Step cfg s (.settle k) ((s.putBack i).setCall k c)
  | putBackClosed {k i n : Nat} {answer : Answer} (hk : s.calls[k]? = some (.told i n answer))
    (hclosed : s.closed = true) :
      Step cfg s (.settle k) ((s.putBack i).drainLocked.setCall k .failed)
  | handOut {k i n : Nat} (hk : s.calls[k]? = some (.told i n .idle)) (hopen : s.closed = false) :
      Step cfg s (.settle k)
        ({ s with away := s.away - 1, parked := s.parked.erase (s.addr i),
                  checkedOut := insert (s.addr i) s.checkedOut, held :=
                    i :: s.held }.setCall k (.returned i))
  | allocate {k : Nat} (c : Call) (hk : s.calls[k]? = some (.looping 0))
    (hc : c = .failed ∨ c = .creating) :
      Step cfg s (.allocate k) (s.setCall k c)
  | createFails {k : Nat} (hk : s.calls[k]? = some .creating) :
    Step cfg s (.create k none) (s.setCall k .failed)
  | refuse {k a : Nat} (hk : s.calls[k]? = some .creating) (hunused : s.Unused a)
    (hclosed : s.closed = true) :
      Step cfg s (.create k (some a))
        ({ s.make ⟨a, cfg.bufferSize, cfg.bufferCount, true⟩ with closes := s.made ::
          s.closes }.setCall k .failed)
  | enlist {k a : Nat} (hk : s.calls[k]? = some .creating) (hunused : s.Unused a)
    (hopen : s.closed = false) :
      Step cfg s (.create k (some a))
        ({ s.make ⟨a, cfg.bufferSize, cfg.bufferCount, true⟩ with
            checkedOut := insert a s.checkedOut, held := s.made :: s.held }.setCall k (.returned s.made))
  | release {i : Nat} (hi : i < s.made) (hlive : i ∉ s.dropped) : Step cfg s (.release i) (s.release cfg i)
  | close : Step cfg s .close { s with closed := true }.drainLocked
  | foreign {a size count : Nat} (hunused : s.Unused a) :
      Step cfg s (.foreign a size count) (s.make ⟨a, size, count, false⟩)
  | drop {i : Nat} (hi : i < s.made) (hfree : i ∉ s.free) (hasked : i ∉ asked s.calls) :
      Step cfg s (.drop i) { s with dropped := insert i s.dropped }
  | use {i : Nat} (hi : i ∈ s.held) : Step cfg s (.use i) { s with inUse := insert i s.inUse }
  | unuse {i : Nat} : Step cfg s (.unuse i) { s with inUse := s.inUse.erase i }
  | unregister {i : Nat} (hi : i < s.made) : Step cfg s (.unregister i)
    { s with unregistered := insert i s.unregistered }

theorem step_settle {answer : Answer} (hk : s.calls[k]? = some (.told i n answer)) :
    Step cfg s (.settle k) ((s.settle i n answer).1.setCall k (s.settle i n answer).2) := by
  -- whatever is put back is drained when the cache is closed
  have hback : ∀ c, (c = .failed ∨ ∃ n, c = .looping n) → (s.closed = true → c = .failed) →
      Step cfg s (.settle k) ((s.putBack i).drainIfClosed.setCall k c) := by
    intro c hc hfailed
    unfold State.drainIfClosed
    cases hclosed : s.closed with
    | true =>
      rw [if_pos (show (s.putBack i).closed = true from hclosed), hfailed hclosed]
      exact .putBackClosed hk hclosed
    | false =>
      rw [if_neg (show ¬ (s.putBack i).closed = true from fun h => nomatch hclosed.symm.trans h)]
      exact .putBack c hk hc hclosed
  cases answer with
  | unregistered => exact .letGo hk
  | raised => exact hback .failed (.inl rfl) fun _ => rfl
  | busy =>
    unfold State.settle
    apply hback
    · cases s.closed with
      | true => exact .inl rfl
      | false => exact .inr ⟨n, rfl⟩
    · exact fun hclosed => if_pos hclosed
  | idle =>
    by_cases hclosed : s.closed = true
    · have hsettle : s.settle i n .idle = ((s.putBack i).drainLocked, .failed) := if_pos hclosed
      rw [hsettle]
      exact .putBackClosed hk hclosed
    · have hsettle : s.settle i n .idle = (_, .returned i) := if_neg hclosed
      rw [hsettle]
      exact .handOut hk (Bool.eq_false_iff.mpr hclosed)

theorem step_cases {x : Act} (h : step cfg s x = some s') : Step cfg s x s' := by
  cases x with
  | acquire =>
    cases h
    apply Step.acquire
    split
    · exact .inl rfl
    · exact .inr ⟨_, rfl⟩
  | pop k =>
    simp only [step] at h
    split at h
    · rename_i n hk
      split at h
      · cases h
        exact .popEmpty hk
      · rename_i i rest hfree
        cases h
        exact .pop hk hfree
    · cases h
  | ask k raises =>
    simp only [step] at h
    split at h
    · rename_i i n hk
      cases h
      apply Step.ask _ hk
      · intro hidle
        by_contra hin
        simp [hin] at hidle
        split at hidle
        · cases hidle
        · split at hidle <;> cases hidle
      · intro hfreed
        by_contra hin
        simp only [hin, if_false] at hfreed
        split at hfreed
        · cases hfreed
        · split at hfreed <;> cases hfreed
    · cases h
  | settle k =>
    simp only [step] at h
    split at h
    · rename_i i n answer hk
      cases h
      exact step_settle hk
    · cases h
  | allocate k =>
    simp only [step] at h
    split at h
    · rename_i hk
      cases h
      apply Step.allocate _ hk
      split
      · exact .inl rfl
      · exact .inr rfl
    · cases h
  | create k addr =>
    simp only [step] at h
    split at h
    · rename_i hk
      cases addr with
      | none =>
        cases h
        exact .createFails hk
      | some a =>
        dsimp only at h
        split at h
        · rename_i hunused
          cases h
          unfold State.register
          dsimp only
          cases hclosed : s.closed with
          | true =>
            rw [if_pos (show (s.make _).closed = true from hclosed)]
            exact .refuse hk hunused hclosed
          | false =>
            rw [if_neg (show ¬ (s.make _).closed = true from fun h => nomatch hclosed.symm.trans h)]
            exact .enlist hk hunused hclosed
        · cases h
    · cases h
  | release i =>
    simp only [step] at h
    split at h
    · rename_i hi
      cases h
      exact .release hi.1 hi.2
    · cases h
  | close =>
    cases h
    exact .close
  | foreign a size count =>
    simp only [step] at h
    split at h
    · rename_i hunused
      cases h
      exact .foreign hunused
    · cases h
  | drop i =>
    simp only [step] at h
    split at h
    · rename_i hi
      cases h
      exact .drop hi.1 hi.2.1 hi.2.2
    · cases h
  | use i =>
    simp only [step] at h
    split at h
    · rename_i hi
      cases h
      exact .use hi
    · cases h
  | unuse i =>
    cases h
    exact .unuse
  | unregister i =>
    simp only [step] at h
    split at h
    · rename_i hi
      cases h
      exact .unregister hi
    · cases h

end Rules

end Pytealet.Io.PoolCache
