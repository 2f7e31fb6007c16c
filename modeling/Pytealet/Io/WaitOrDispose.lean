import Pytealet.Locks.ContextChain

/-!
# WaitOrDispose — `iowait_or_dispose`

It waits until the operation has ended, although exceptions may be thrown into the waits.  A value
that comes after the first of them is disposed of, and the newest exception is raised.

Each call of `wait` has a turn, which says what comes to pass while it is parked.  The contexts at
the start are the ones that the exceptions have when the first call has ended.
-/

namespace Pytealet.Io.WaitOrDispose

open Locks.ContextChain List

variable {V ε : Type*}

/-- An exception that comes out of a call; `implicit` says whether a `raise` has set its context. -/
structure Raised (ε : Type*) where
  exc : ε
  implicit : Bool

/-- How a parked wait ends. -/
inductive Turn (V ε : Type*)
  | ends (completion : Except ε V)
  /-- an exception is thrown into it; the operation may have ended as well when the exception is
  handled -/
  | thrown (r : Raised ε) (arrives : Option (Except ε V))

/-- What a call of `wait` has been: it returned, raised the error of the operation, or was
interrupted. -/
inductive Waited (V ε : Type*)
  | value (v : V)
  | own (e : ε)
  | thrown (e : ε)

def Waited.throw? : Waited V ε → Option ε
  | .thrown e => some e
  | _ => none

inductive Outcome (V ε : Type*)
  | returned (v : V)
  | raised (e : ε)
  | valueError

structure State (V ε : Type*) where
  /-- what the waiter holds; `done()` says whether it holds something -/
  stored : Option (Except ε V)
  contexts : Contexts ε
  /-- the calls of `wait` -/
  waits : List (Waited V ε)
  /-- the calls of `dispose_cb` -/
  disposed : List V

def State.start (stored : Option (Except ε V)) (ctx : Contexts ε) : State V ε :=
  ⟨stored, ctx, [], []⟩

section Source

variable [DecidableEq ε]

def Raised.contexts (steps : Nat) (handled : Option ε) (r : Raised ε) (ctx : Contexts ε) : Contexts ε :=
  match handled with
  | some h => if r.implicit then raiseIn steps h r.exc ctx else ctx
  | none => ctx

/-- `wait` of a waiter that holds `completion`. -/
def storedResult (steps : Nat) (handled : Option ε) (completion : Except ε V) (s : State V ε) :
    Except ε V × State V ε :=
  match completion with
  | .ok v => (.ok v, { s with waits := s.waits ++ [.value v] })
  | .error e =>
    (.error e, { s with contexts := Raised.contexts steps handled ⟨e, true⟩ s.contexts, waits := s.waits ++ [.own e] })

def wait (steps : Nat) (turns : Nat → Turn V ε) (handled : Option ε) (s : State V ε) :
    Except ε V × State V ε :=
  match s.stored with
  | some completion => storedResult steps handled completion s
  | none =>
    match turns s.waits.length with
    | .ends completion => storedResult steps handled completion { s with stored := some completion }
    | .thrown r arrives =>
      (.error r.exc,
        { s with stored := arrives, contexts := r.contexts steps handled s.contexts, waits := s.waits ++ [.thrown r.exc] })

/-- `waiter.done() and exc is waiter.exception()`. -/
def isOwn (s : State V ε) (exc : ε) : Bool :=
  match s.stored with
  | some (.error e) => e = exc
  | _ => false

/-- The loop over the further attempts; what it returns is the value to dispose of, and the
chain. -/
def retry (steps : Nat) (turns : Nat → Turn V ε) (oldest : ε) : Nat → List ε → State V ε →
    Option V × List ε × State V ε
  | 0, chain, s => (none, chain, s)
  | n + 1, chain, s =>
    match wait steps turns (some oldest) s with
    | (.ok v, s') => (some v, chain, s')
    | (.error e, s') => if isOwn s' e then (none, chain, s') else
        retry steps turns oldest n (chain ++ [e]) s'

/-- The call of `dispose_cb`, which may raise. -/
def callDispose (steps : Nat) (disposeCb : V → Option (Raised ε)) (oldest : ε) (v : V)
    (chain : List ε) (s : State V ε) :
    List ε × State V ε :=
  match disposeCb v with
  | none => (chain, { s with disposed := s.disposed ++ [v] })
  | some r =>
    (chain ++ [r.exc],
      { s with disposed := s.disposed ++ [v], contexts := r.contexts steps (some oldest) s.contexts })

/-- The end: the chain is joined, and its newest exception raised. -/
def raiseChain (steps : Nat) (oldest : ε) (chain : List ε) (s : State V ε) : Outcome V ε × State V ε :=
  let newest := (chain.getLast?).getD oldest
  (.raised newest,
    { s with contexts := raiseAsIs steps oldest newest (exceptionJoinContext chain.reverse s.contexts) })

def iowaitOrDispose (steps : Nat) (turns : Nat → Turn V ε) (disposeCb : V → Option (Raised ε))
    (attempts : Int)
    (s : State V ε) : Outcome V ε × State V ε :=
  if attempts < 0 then (.valueError, s)
  else
    match wait steps turns none s with
    | (.ok v, s') => (.returned v, s')
    | (.error exc, s') =>
      if isOwn s' exc then (.raised exc, s')
      else
        match retry steps turns exc attempts.toNat [exc] s' with
        | (none, chain, s'') => raiseChain steps exc chain s''
        | (some v, chain, s'') =>
          let d := callDispose steps disposeCb exc v chain s''
          raiseChain steps exc d.1 d.2

end Source

/-! ## What the result should be -/

/-- The exceptions that were thrown into the waits, the oldest one first. -/
def throws (s : State V ε) : List ε :=
  s.waits.filterMap Waited.throw?

/-- They, and the error of `dispose_cb`. -/
def excs (disposeCb : V → Option (Raised ε)) (s : State V ε) : List ε :=
  throws s ++ s.disposed.filterMap fun v => (disposeCb v).map Raised.exc

/-- A value that the operation has had is returned, or disposed of once, or stays on the waiter. -/
structure Settled (attempts : Int) (o : Outcome V ε) (s : State V ε) : Prop where
  value : ∀ v, s.stored = some (.ok v) →
    (o = .returned v ∧ s.disposed = []) ∨ ((∃ e, o = .raised e) ∧ s.disposed = [v]) ∨
      ((∃ e, o = .raised e) ∧ s.disposed = [] ∧ s.waits.length = attempts + 1 ∧
        ∀ w ∈ s.waits, ∃ e, w = .thrown e)
  none : (∀ v, s.stored ≠ some (.ok v)) → (∃ e, o = .raised e) ∧ s.disposed = []

def newest (oldest : ε) (rest : List ε) : ε :=
  rest.getLast?.getD oldest

/-- What is raised after `oldest` and `rest`; `ctx` are the contexts at the start. -/
structure Chained (steps : Nat) (ctx : Contexts ε) (oldest : ε) (rest : List ε)
    (o : Outcome V ε) (s : State V ε) :
    Prop where
  raised : o = .raised (newest oldest rest)
  linked : (oldest :: rest).Nodup → (oldest :: rest).reverse.IsChain (Linked s.contexts)
  own : ∀ e, s.stored = some (.error e) → ¬ Behind ctx oldest e → ¬ Behind s.contexts (newest oldest rest) e
  acyclic : (oldest :: rest).Nodup → (∀ e ∈ rest, ¬ Behind ctx oldest e) → Ends ctx steps oldest →
    Acyclic s.contexts (newest oldest rest)

/-! ## One wait -/

section Proofs

variable [DecidableEq ε] {steps : Nat} {turns : Nat → Turn V ε} {disposeCb : V → Option (Raised ε)}
    {handled : Option ε}
  {oldest e : ε} {rest chain chain' : List ε} {n : Nat} {s s' s'' : State V ε} {v : V}
  {o : Option V} {ctx : Contexts ε}

/-- What a call of `wait` does. -/
inductive Waits (steps : Nat) (handled : Option ε) (s : State V ε) : Except ε V → State V ε → Prop
  | value (v : V) (h : s.stored = none ∨ s.stored = some (.ok v)) :
      Waits steps handled s (.ok v) { s with stored := some (.ok v), waits := s.waits ++ [.value v] }
  | own (e : ε) (h : s.stored = none ∨ s.stored = some (.error e)) :
      Waits steps handled s (.error e)
        { s with stored := some (.error e), contexts := Raised.contexts steps handled ⟨e, true⟩ s.contexts,
                 waits := s.waits ++ [.own e] }
  | thrown (r : Raised ε) (arrives : Option (Except ε V)) (h : s.stored = none) :
      Waits steps handled s (.error r.exc)
        { s with stored := arrives, contexts := r.contexts steps handled s.contexts, waits := s.waits ++ [.thrown r.exc] }

theorem wait_waits : Waits steps handled s (wait steps turns handled s).1
    (wait steps turns handled s).2 := by
  rcases s with ⟨stored, ctx, waits, disposed⟩
  unfold wait
  cases stored with
  | some c =>
    cases c with
    | ok v => exact .value v (.inr rfl)
    | error e => exact .own e (.inr rfl)
  | none =>
    dsimp only
    cases turns waits.length with
    | ends c =>
      cases c with
      | ok v => exact .value v (.inl rfl)
      | error e => exact .own e (.inl rfl)
    | thrown r arrives => exact .thrown r arrives rfl

theorem isOwn_iff : isOwn s e = true ↔ s.stored = some (.error e) := by
  unfold isOwn
  cases s.stored with
  | none => simp
  | some c => cases c <;> simp

/-! ## The loop -/

/-- What the loop does. -/
inductive Retries (steps : Nat) (oldest : ε) : Nat → List ε → State V ε → Option V →
    List ε → State V ε → Prop
  | exhausted (chain : List ε) (s : State V ε) : Retries steps oldest 0 chain s none chain s
  | value {n : Nat} {chain : List ε} {s s' : State V ε} {v : V}
    (h : Waits steps (some oldest) s (.ok v) s') :
      Retries steps oldest (n + 1) chain s (some v) chain s'
  | own {n : Nat} {chain : List ε} {s s' : State V ε} {e : ε}
    (h : Waits steps (some oldest) s (.error e) s')
      (hown : s'.stored = some (.error e)) : Retries steps oldest (n + 1) chain s none chain s'
  | again {n : Nat} {chain chain' : List ε} {s s' s'' : State V ε} {e : ε} {o : Option V}
      (h : Waits steps (some oldest) s (.error e) s') (hown : s'.stored ≠ some (.error e))
      (hr : Retries steps oldest n (chain ++ [e]) s' o chain' s'') :
        Retries steps oldest (n + 1) chain s o chain' s''

theorem retry_retries :
    Retries steps oldest n chain s (retry steps turns oldest n chain s).1
      (retry steps turns oldest n chain s).2.1
      (retry steps turns oldest n chain s).2.2 := by
  induction n generalizing chain s with
  | zero => exact .exhausted chain s
  | succ n ih =>
    have hw : Waits steps (some oldest) s (wait steps turns (some oldest) s).1
        (wait steps turns (some oldest) s).2 :=
      wait_waits
    unfold retry
    revert hw
    rcases wait steps turns (some oldest) s with ⟨r, s'⟩
    intro hw
    cases r with
    | ok v => exact .value hw
    | error e =>
      dsimp only
      split
      · rename_i hown
        exact .own hw (isOwn_iff.1 hown)
      · rename_i hown
        exact .again hw (fun h => hown (isOwn_iff.2 h)) ih

theorem Waits.interrupted (h : Waits steps handled s (.error e) s') (hown : s'.stored ≠ some (.error e)) :
    s'.waits = s.waits ++ [.thrown e] ∧ s'.disposed = s.disposed := by
  cases h with
  | own e _ => exact absurd rfl hown
  | thrown r arrives _ => exact ⟨rfl, rfl⟩

theorem Waits.extends {r : Except ε V} (h : Waits steps handled s r s') :
    ∃ w, s'.waits = s.waits ++ [w] := by
  cases h with
  | value v _ => exact ⟨_, rfl⟩
  | own e _ => exact ⟨_, rfl⟩
  | thrown r arrives _ => exact ⟨_, rfl⟩

omit [DecidableEq ε] in
theorem throws_append (s : State V ε) (w : Waited V ε) (h : s'.waits = s.waits ++ [w]) :
    throws s' = throws s ++ w.throw?.toList := by
  unfold throws
  rw [h, filterMap_append]
  cases hw : w.throw? <;> simp [hw]

theorem Retries.settles (h : Retries steps oldest n chain s o chain' s'')
    (hall : ∀ w ∈ s.waits, ∃ e, w = .thrown e) :
    s''.disposed = s.disposed ∧ (∀ v, o = some v → s''.stored = some (.ok v)) ∧
      (o = none → ∀ v, s''.stored = some (.ok v) →
        s''.waits.length = s.waits.length + n ∧ ∀ w ∈ s''.waits, ∃ e, w = .thrown e) := by
  induction h with
  | exhausted chain s => exact ⟨rfl, (fun _ h => nomatch h), fun _ _ _ => ⟨rfl, hall⟩⟩
  | value h =>
    cases h with
    | value v _ => exact ⟨rfl, (fun v' hv => by rw [Option.some.inj hv]), fun h => nomatch h⟩
  | @own n chain s s' e h hown =>
    have hdisposed : s'.disposed = s.disposed := by
      cases h with
      | own e _ => rfl
      | thrown r arrives _ => rfl
    refine ⟨hdisposed, (fun _ h => nomatch h), ?_⟩
    intro _ v hv
    exact nomatch hown.symm.trans hv
  | @again n chain chain' s s' s'' e o h hown _ ih =>
    rcases h.interrupted hown with ⟨hwaits, hdisposed⟩
    have hall' : ∀ w ∈ s'.waits, ∃ e, w = .thrown e := by
      intro w hw
      rw [hwaits] at hw
      rcases mem_append.1 hw with hw | hw
      · exact hall w hw
      · exact ⟨e, mem_singleton.1 hw⟩
    rcases ih hall' with ⟨hdisposed', hsome, hnone⟩
    refine ⟨hdisposed'.trans hdisposed, hsome, ?_⟩
    intro ho v hv
    rcases hnone ho v hv with ⟨hlen, hthrown⟩
    refine ⟨?_, hthrown⟩
    rw [hlen, hwaits, length_append, length_singleton]
    omega

theorem Retries.extends (h : Retries steps oldest n chain s o chain' s'') : s.waits <+: s''.waits := by
  induction h with
  | exhausted chain s => exact prefix_rfl
  | value h =>
    rcases h.extends with ⟨w, hw⟩
    exact ⟨[w], hw.symm⟩
  | own h _ =>
    rcases h.extends with ⟨w, hw⟩
    exact ⟨[w], hw.symm⟩
  | again h _ _ ih =>
    rcases h.extends with ⟨w, hw⟩
    have hstep : _ <+: _ := ⟨[w], hw.symm⟩
    exact hstep.trans ih

omit [DecidableEq ε] in
theorem throws_prefix (h : s.waits <+: s'.waits) : throws s <+: throws s' := by
  rcases h with ⟨l, hl⟩
  refine ⟨l.filterMap Waited.throw?, ?_⟩
  unfold throws
  rw [← hl, filterMap_append]

theorem Retries.chain_eq (h : Retries steps oldest n chain s o chain' s'') (hchain : chain = throws s)
    (hapart : ∀ e ∈ throws s'', s''.stored ≠ some (.error e)) : chain' = throws s'' := by
  induction h with
  | exhausted chain s => exact hchain
  | value h =>
    cases h with
    | value v _ =>
      rw [throws_append _ _ rfl, hchain]
      exact (append_nil _).symm
  | own h hown =>
    cases h with
    | own e _ =>
      rw [throws_append _ _ rfl, hchain]
      exact (append_nil _).symm
    | thrown r arrives _ =>
      refine absurd hown (hapart r.exc ?_)
      rw [throws_append _ _ rfl]
      exact mem_append_right _ (mem_singleton_self r.exc)
  | again h hown _ ih =>
    apply ih _ hapart
    rw [throws_append _ _ (h.interrupted hown).1, hchain]
    rfl

theorem Raised.contexts_link {r : Raised ε} {x c : ε} (h : r.contexts steps (some oldest) ctx x = some c) :
    ctx x = some c ∨ c = oldest := by
  unfold Raised.contexts at h
  dsimp only at h
  split at h
  · exact raiseIn_link h
  · exact .inl h

theorem Raised.contexts_keeps {r : Raised ε} (h : ¬ Behind ctx oldest r.exc) :
    Keeps ctx (r.contexts steps (some oldest) ctx) oldest := by
  unfold Raised.contexts
  dsimp only
  split
  · exact raiseIn_keeps h
  · exact Keeps.refl ctx oldest

theorem Waits.link {r : Except ε V} {x c : ε} (h : Waits steps (some oldest) s r s')
    (hlink : s'.contexts x = some c) :
    s.contexts x = some c ∨ c = oldest := by
  cases h with
  | value v _ => exact .inl hlink
  | own e _ => exact Raised.contexts_link (r := ⟨e, true⟩) hlink
  | thrown r arrives _ => exact Raised.contexts_link hlink

theorem Retries.link {x c : ε} (h : Retries steps oldest n chain s o chain' s'')
    (hlink : s''.contexts x = some c) :
    s.contexts x = some c ∨ c = oldest := by
  induction h with
  | exhausted chain s => exact .inl hlink
  | value h => exact h.link hlink
  | own h _ => exact h.link hlink
  | again h _ _ ih =>
    rcases ih hlink with hlink | heq
    · exact h.link hlink
    · exact .inr heq

theorem Retries.calm (h : Retries steps oldest n chain s o chain' s'') (hends : Ends ctx steps oldest)
    (hkeeps : Keeps ctx s.contexts oldest) (hne : throws s ≠ [])
    (hfresh : ∀ e ∈ (throws s'').tail, ¬ Behind ctx oldest e) :
    Calm ctx s''.contexts oldest := by
  have hrefl : Calm ctx ctx oldest := ⟨fun _ hx => hx, hends.acyclic⟩
  induction h with
  | exhausted chain s => exact hrefl.keeps hkeeps
  | value h =>
    cases h with
    | value v _ => exact hrefl.keeps hkeeps
  | @own n chain s s' e h hown =>
    cases h with
    | own e _ =>
      have hcalm := raiseIn_calm e (hkeeps.ends hends)
      exact ⟨fun x hx => hkeeps.behind_iff.1 (hcalm.behind x hx), hcalm.acyclic⟩
    | thrown r arrives _ =>
      have hbehind : ¬ Behind ctx oldest r.exc := by
        apply hfresh
        rw [throws_append _ _ rfl, tail_append_of_ne_nil hne]
        exact mem_append_right _ (mem_singleton_self r.exc)
      have hraise : Keeps s.contexts (r.contexts steps (some oldest) s.contexts) oldest :=
        Raised.contexts_keeps fun hb => hbehind (hkeeps.behind_iff.1 hb)
      exact hrefl.keeps (hkeeps.trans hraise)
  | @again n chain chain' s s' s'' e o h hown hr ih =>
    rcases h.interrupted hown with ⟨hwaits, _⟩
    have hthrows : throws s' = throws s ++ [e] := throws_append s (.thrown e) hwaits
    have hmem : e ∈ (throws s'').tail := by
      rcases throws_prefix hr.extends with ⟨l, hl⟩
      rw [← hl, hthrows, append_assoc, tail_append_of_ne_nil hne]
      simp
    have hbehind : ¬ Behind s.contexts oldest e := fun hb => hfresh e hmem (hkeeps.behind_iff.1 hb)
    have hstep : Keeps s.contexts s'.contexts oldest := by
      cases h with
      | own e _ => exact absurd rfl hown
      | thrown r arrives _ => exact Raised.contexts_keeps hbehind
    apply ih (hkeeps.trans hstep) _ hfresh
    rw [hthrows]
    simp

/-! ## The end -/

theorem raiseChain_chained (hlinks : ∀ x c, s.contexts x = some c → ctx x = some c ∨ c = oldest)
    (hcalm : (oldest :: rest).Nodup → (∀ e ∈ rest, ¬ Behind ctx oldest e) → Ends ctx steps oldest →
      Calm ctx s.contexts oldest) (hapart : ∀ e ∈ oldest :: rest, s.stored ≠ some (.error e)) :
    Chained steps ctx oldest rest (raiseChain (V := V) steps oldest (oldest :: rest) s).1
      (raiseChain steps oldest (oldest :: rest) s).2 := by
  have hnewest : (oldest :: rest).getLast?.getD oldest = newest oldest rest := by
    rw [List.getLast?_cons]
    rfl
  have hreverse : (oldest :: rest).reverse = rest.reverse ++ [oldest] := reverse_cons
  have hhead : (rest.reverse ++ [oldest]).head? = some (newest oldest rest) := by
    rw [← hreverse, List.head?_reverse, List.getLast?_cons]
    rfl
  have hdrop : (oldest :: rest).reverse.dropLast = rest.reverse := by
    rw [hreverse, dropLast_concat]
  unfold raiseChain
  rw [hnewest]
  dsimp only
  -- the contexts when all links are made
  have hjoinLink : ∀ x c, exceptionJoinContext (oldest :: rest).reverse s.contexts x = some c →
      (ctx x = some c ∨ c ∈ rest.reverse ++ [oldest]) ∧
        (x ∈ rest.reverse → c ∈ rest.reverse ++ [oldest]) := by
    intro x c hlink
    by_cases hx : x ∈ (oldest :: rest).reverse.dropLast
    · rcases join_of_mem s.contexts hx with ⟨c', hc', hlink'⟩
      have hc : c ∈ rest.reverse ++ [oldest] := by
        rw [← hreverse, Option.some.inj (hlink.symm.trans hlink')]
        exact hc'
      exact ⟨.inr hc, fun _ => hc⟩
    · rw [join_of_not_mem _ hx] at hlink
      refine ⟨?_, fun hmem => absurd (hdrop ▸ hmem) hx⟩
      rcases hlinks x c hlink with hlink | heq
      · exact .inl hlink
      · exact .inr (mem_append_right _ (mem_singleton.2 heq))
  refine ⟨rfl, ?_, ?_, ?_⟩
  · intro hnodup
    have hjoined : (oldest :: rest).reverse.IsChain
        (Linked (exceptionJoinContext (oldest :: rest).reverse s.contexts)) :=
      join_linked (nodup_reverse.2 hnodup)
    cases hl : (oldest :: rest).reverse with
    | nil => exact isChain_nil
    | cons a l =>
      have heq : a = newest oldest rest := by
        rw [← hreverse, hl] at hhead
        exact Option.some.inj hhead
      have hnotMem : a ∉ l := by
        have hnodup' := nodup_reverse.2 hnodup
        rw [hl] at hnodup'
        exact hnodup'.notMem
      rw [hl] at hjoined
      exact heq ▸ linked_raiseAsIs hjoined hnotMem
  · intro e hown hbehind hback
    have he : e ∉ rest.reverse ++ [oldest] := by
      intro hmem
      apply hapart e _ hown
      rw [← mem_reverse, hreverse]
      exact hmem
    rcases behind_joined (fun x c h => (hjoinLink x c (raiseAsIs_thins x c h)).1)
        (fun x hx c h => (hjoinLink x c (raiseAsIs_thins x c h)).2 hx) he hback with hb | ⟨hnot, hb⟩
    · exact hbehind hb
    · -- the newest exception is the oldest one
      have hmem : newest oldest rest ∈ rest.reverse ++ [oldest] := mem_of_mem_head? hhead
      rcases mem_append.1 hmem with hmem | hmem
      · exact hnot hmem
      · exact hbehind (mem_singleton.1 hmem ▸ hb)
  · intro hnodup hfresh hends
    have hc : Calm ctx s.contexts oldest := hcalm hnodup hfresh hends
    have hapartOldest : ∀ x ∈ rest.reverse, ¬ Behind s.contexts oldest x :=
      fun x hx hb => hfresh x (mem_reverse.1 hx) (hc.behind x hb)
    have hkeeps : Keeps s.contexts (exceptionJoinContext (oldest :: rest).reverse s.contexts) oldest := by
      apply join_keeps
      rw [hdrop]
      exact hapartOldest
    apply raiseAsIs_thins.acyclic
    have hnodup' : (rest.reverse ++ [oldest]).Nodup := hreverse ▸ nodup_reverse.2 hnodup
    have hjoined : (rest.reverse ++ [oldest]).IsChain
        (Linked (exceptionJoinContext (oldest :: rest).reverse s.contexts)) := by
      rw [hreverse]
      exact join_linked hnodup'
    apply acyclic_linked hjoined hnodup' _ (hkeeps.acyclic hc.acyclic) hhead
    exact fun x hx hb => hapartOldest x hx (hkeeps.behind_iff.1 hb)

/-! ## The whole function -/

theorem callDispose_spec (steps : Nat) (disposeCb : V → Option (Raised ε)) (oldest : ε)
    (chain : List ε) (s : State V ε) (v : V) :
    (callDispose steps disposeCb oldest v chain s).1 = chain ++ ((disposeCb v).map Raised.exc).toList ∧
      (callDispose steps disposeCb oldest v chain s).2.stored = s.stored ∧
      (callDispose steps disposeCb oldest v chain s).2.waits = s.waits ∧
      (callDispose steps disposeCb oldest v chain s).2.disposed = s.disposed ++ [v] := by
  unfold callDispose
  cases disposeCb v with
  | none => exact ⟨(append_nil chain).symm, rfl, rfl, rfl⟩
  | some r => exact ⟨rfl, rfl, rfl, rfl⟩

theorem callDispose_link {x c : ε}
    (hlink : (callDispose steps disposeCb oldest v chain s).2.contexts x = some c) :
    s.contexts x = some c ∨ c = oldest := by
  unfold callDispose at hlink
  split at hlink
  · exact .inl hlink
  · exact Raised.contexts_link hlink

theorem callDispose_keeps (h : ∀ r, disposeCb v = some r → ¬ Behind s.contexts oldest r.exc) :
    Keeps s.contexts (callDispose steps disposeCb oldest v chain s).2.contexts oldest := by
  unfold callDispose
  split
  · exact Keeps.refl s.contexts oldest
  · rename_i r hr
    exact Raised.contexts_keeps (h r hr)

omit [DecidableEq ε] in
theorem throws_split (h : [Waited.thrown oldest] <+: s.waits) : ∃ t, throws s = oldest :: t := by
  rcases h with ⟨l, hl⟩
  refine ⟨l.filterMap Waited.throw?, ?_⟩
  unfold throws
  rw [← hl]
  rfl

/-- What `retry` leaves when the first wait has ended with `oldest`: `rest` are the exceptions
thrown after it. -/
structure Retried (steps : Nat) (attempts : Int) (ctx : Contexts ε) (oldest : ε)
    (rest : List ε) (o : Option V)
    (chain : List ε) (s : State V ε) : Prop where
  disposed : s.disposed = []
  value : ∀ v, o = some v → s.stored = some (.ok v)
  last : o = none → ∀ v, s.stored = some (.ok v) →
    (s.waits.length : Int) = attempts + 1 ∧ ∀ w ∈ s.waits, ∃ e, w = .thrown e
  thrown : throws s = oldest :: rest
  link : ∀ x c, s.contexts x = some c → ctx x = some c ∨ c = oldest
  calm : (∀ e ∈ rest, ¬ Behind ctx oldest e) → Ends ctx steps oldest → Calm ctx s.contexts oldest
  chain_eq : (∀ e ∈ oldest :: rest, s.stored ≠ some (.error e)) → chain = oldest :: rest

/-- What the end of the call makes of them. -/
def Concluded (disposeCb : V → Option (Raised ε)) (steps : Nat) (attempts : Int) (ctx : Contexts ε)
    (r : Outcome V ε × State V ε) : Prop :=
  Settled attempts r.1 r.2 ∧
    ∀ first rest, excs disposeCb r.2 = first :: rest → (∀ e ∈ first :: rest, r.2.stored ≠ some (.error e)) →
      Chained steps ctx first rest r.1 r.2

theorem Retried.of_retries {attempts : Int} {o : Option V} {chain : List ε}
    {s'' : State V ε} (h : 0 ≤ attempts)
    (hwaits : s.waits = [.thrown oldest]) (hctx : s.contexts = ctx) (hdisposed : s.disposed = [])
    (hretries : Retries steps oldest attempts.toNat [oldest] s o chain s'') :
    ∃ rest, Retried steps attempts ctx oldest rest o chain s'' := by
  have hthrows : throws s = [oldest] := by
    unfold throws
    rw [hwaits]
    rfl
  have hall : ∀ w ∈ s.waits, ∃ e, w = .thrown e := by
    intro w hw
    rw [hwaits] at hw
    exact ⟨oldest, mem_singleton.1 hw⟩
  have hends := hretries.settles hall
  have hprefix : [Waited.thrown oldest] <+: s''.waits := hwaits ▸ hretries.extends
  rcases throws_split hprefix with ⟨rest, hrest⟩
  refine ⟨rest, hends.1.trans hdisposed, hends.2.1, fun hnone v hv => ?_, hrest,
    fun x c hc => hctx ▸ hretries.link hc, fun hfresh hend => ?_,
    fun hapart => (hretries.chain_eq hthrows.symm (hrest ▸ hapart)).trans hrest⟩
  · rcases hends.2.2 hnone v hv with ⟨hlen, hthrown⟩
    rw [hwaits, length_singleton] at hlen
    exact ⟨by omega, hthrown⟩
  · apply hretries.calm hend (hctx ▸ Keeps.refl s.contexts oldest)
    · rw [hthrows]
      exact cons_ne_nil oldest []
    · rw [hrest]
      exact hfresh

/-- The attempts are used up. -/
theorem Retried.exhausted {attempts : Int} {chain rest : List ε}
    (hr : Retried steps attempts ctx oldest rest none chain s) :
    Concluded disposeCb steps attempts ctx (raiseChain steps oldest chain s) := by
  refine ⟨⟨fun v hv => ?_, fun _ => ⟨⟨_, rfl⟩, hr.disposed⟩⟩, fun first later hexcs hapart => ?_⟩
  · exact .inr (.inr ⟨⟨_, rfl⟩, hr.disposed, hr.last rfl v hv⟩)
  · have heq : oldest :: rest = first :: later := by
      rw [← hr.thrown, ← hexcs]
      change throws s = throws s ++ s.disposed.filterMap _
      rw [hr.disposed]
      exact (append_nil _).symm
    cases heq
    rw [hr.chain_eq hapart]
    exact raiseChain_chained hr.link (fun _ => hr.calm) hapart

/-- A value has come, and is disposed of. -/
theorem Retried.disposes {attempts : Int} {chain rest : List ε} {v : V}
    (hr : Retried steps attempts ctx oldest rest (some v) chain s) :
    Concluded disposeCb steps attempts ctx
      (raiseChain steps oldest (callDispose steps disposeCb oldest v chain s).1
        (callDispose steps disposeCb oldest v chain s).2) := by
  rcases callDispose_spec steps disposeCb oldest chain s v with ⟨hchain, hstored, hwaits, hdisposed⟩
  have hlink : ∀ x c, (callDispose steps disposeCb oldest v chain s).2.contexts x = some c →
      ctx x = some c ∨ c = oldest := by
    intro x c hc
    rcases callDispose_link hc with hc | heq
    · exact hr.link x c hc
    · exact .inr heq
  have hkeeps : (∀ r, disposeCb v = some r → ¬ Behind s.contexts oldest r.exc) →
      Keeps s.contexts (callDispose steps disposeCb oldest v chain s).2.contexts oldest := callDispose_keeps
  revert hchain hstored hwaits hdisposed hlink hkeeps
  rcases callDispose steps disposeCb oldest v chain s with ⟨chain', s'⟩
  intro hchain hstored hwaits hdisposed hlink hkeeps
  dsimp only at hchain hstored hwaits hdisposed hlink hkeeps ⊢
  have hvalue : s'.stored = some (.ok v) := hstored.trans (hr.value v rfl)
  rw [hr.disposed, nil_append] at hdisposed
  refine ⟨⟨fun v' hv' => ?_, fun hnone => absurd hvalue (hnone v)⟩, fun first later hexcs hapart => ?_⟩
  · cases hvalue.symm.trans hv'
    exact .inr (.inl ⟨⟨_, rfl⟩, hdisposed⟩)
  · have hadded : [v].filterMap (fun v => (disposeCb v).map Raised.exc) =
        ((disposeCb v).map Raised.exc).toList := by
      cases hd : disposeCb v <;> simp [hd]
    have hthrows : throws s' = oldest :: rest := by
      unfold throws
      rw [hwaits]
      exact hr.thrown
    have heq : oldest :: (rest ++ ((disposeCb v).map Raised.exc).toList) = first :: later := by
      rw [← hexcs]
      change _ = throws s' ++ s'.disposed.filterMap _
      rw [hdisposed, hadded, hthrows]
      rfl
    cases heq
    have hexact : chain = oldest :: rest := hr.chain_eq fun e _ => by simp [hr.value v rfl]
    rw [hexact] at hchain
    rw [show chain' = oldest :: (rest ++ ((disposeCb v).map Raised.exc).toList) from hchain]
    apply raiseChain_chained hlink _ hapart
    intro _ hfresh hend
    have hc : Calm ctx s.contexts oldest := hr.calm (fun e he => hfresh e (mem_append_left _ he)) hend
    apply hc.keeps
    apply hkeeps
    intro q hq hb
    apply hfresh q.exc _ (hc.behind q.exc hb)
    rw [hq]
    exact mem_append_right _ (mem_singleton_self q.exc)

theorem retry_end (disposeCb : V → Option (Raised ε)) (turns : Nat → Turn V ε)
    (attempts : Int) (h : 0 ≤ attempts)
    (hwaits : s.waits = [.thrown oldest]) (hctx : s.contexts = ctx) (hdisposed : s.disposed = [])
    (r : Outcome V ε × State V ε)
    (hr : r = match retry steps turns oldest attempts.toNat [oldest] s with
      | (none, chain, s'') => raiseChain steps oldest chain s''
      | (some v, chain, s'') =>
        raiseChain steps oldest (callDispose steps disposeCb oldest v chain s'').1
          (callDispose steps disposeCb oldest v chain s'').2) : Concluded disposeCb
            steps attempts ctx r := by
  have hretries : Retries steps oldest attempts.toNat [oldest] s
      (retry steps turns oldest attempts.toNat [oldest] s).1
      (retry steps turns oldest attempts.toNat [oldest] s).2.1
        (retry steps turns oldest attempts.toNat [oldest] s).2.2 :=
    retry_retries
  rcases Retried.of_retries h hwaits hctx hdisposed hretries with ⟨rest, hretried⟩
  subst hr
  revert hretried
  rcases retry steps turns oldest attempts.toNat [oldest] s with ⟨o, chain, s''⟩
  intro hretried
  cases o with
  | none => exact hretried.exhausted
  | some v => exact hretried.disposes

/-- A value is returned, or disposed of once, or left on the waiter after all waits were
interrupted; and where no exception is the error of the operation itself, the newest one is raised:
with the older ones in order behind it when they are distinct, without the error of the operation
unless that was behind the oldest one before, and without a cycle when they are distinct and not
behind the oldest one, the context of which comes to an end. -/
theorem value_settled_throws_chained (steps : Nat) (turns : Nat → Turn V ε)
    (disposeCb : V → Option (Raised ε))
    (attempts : Int) (stored : Option (Except ε V)) (ctx : Contexts ε) (r : Outcome V ε × State V ε)
    (hr : iowaitOrDispose steps turns disposeCb attempts (.start stored ctx) = r) :
    (attempts < 0 → r = (.valueError, .start stored ctx)) ∧
      (0 ≤ attempts → Settled attempts r.1 r.2 ∧
        ∀ oldest rest, excs disposeCb r.2 = oldest :: rest →
          (∀ e ∈ oldest :: rest, r.2.stored ≠ some (.error e)) →
          Chained steps ctx oldest rest r.1 r.2) := by
  unfold iowaitOrDispose at hr
  refine ⟨?_, ?_⟩
  · intro hneg
    rw [if_pos hneg] at hr
    exact hr.symm
  · intro hnat
    rw [if_neg (Int.not_lt.2 hnat)] at hr
    have hw : Waits steps none (.start stored ctx) (wait steps turns none (.start stored ctx)).1
        (wait steps turns none (.start stored ctx)).2 := wait_waits
    revert hr hw
    rcases wait steps turns none (.start stored ctx) with ⟨w, s'⟩
    intro hr hw
    dsimp only at hw
    cases hw with
    | value v _ =>
      subst hr
      refine ⟨⟨?_, ?_⟩, ?_⟩
      · intro v' hv'
        have heq : v = v' := by
          cases hv'
          rfl
        exact .inl ⟨heq ▸ rfl, rfl⟩
      · exact fun hnone => absurd rfl (hnone v)
      · exact fun _ _ h => nomatch h
    | own e _ =>
      dsimp only at hr
      rw [if_pos (isOwn_iff.2 rfl)] at hr
      subst hr
      exact ⟨⟨(fun _ h => nomatch h), fun _ => ⟨⟨e, rfl⟩, rfl⟩⟩, fun _ _ h => nomatch h⟩
    | thrown q arrives _ =>
      dsimp only at hr
      split at hr
      · rename_i hown
        -- what was thrown is the error of the operation
        have hstored := isOwn_iff.1 hown
        dsimp only at hstored
        subst hr
        refine ⟨⟨?_, fun _ => ⟨⟨q.exc, rfl⟩, rfl⟩⟩, ?_⟩
        · exact fun v hv => nomatch hstored.symm.trans hv
        · intro oldest rest hexcs hapart
          have heq : [q.exc] = oldest :: rest := hexcs
          cases heq
          exact absurd hstored (hapart q.exc mem_cons_self)
      · exact retry_end disposeCb turns attempts hnat rfl rfl rfl r hr.symm

end Proofs

/-- A wait into which the exceptions of the list are thrown one after the other, before the
operation ends. -/
def interruptedBy (l : List ε) (completion : Except ε V) (i : Nat) : Turn V ε :=
  match l[i]? with
  | some e => .thrown ⟨e, false⟩ none
  | none => .ends completion

/-- Two exceptions are thrown, and the value comes after them. -/
theorem value_settled_throws_chained_twice :
    let r := iowaitOrDispose (V := Nat) 4 (interruptedBy [1, 2] (.ok 7))
        (fun _ => none) 3 (.start none fun _ => none)
    r.2.disposed = [7] ∧ Settled 3 r.1 r.2 ∧ Chained 4 (fun _ => none) 1 [2] r.1 r.2 := by
  have h := (value_settled_throws_chained (V := Nat) 4 (interruptedBy [1, 2] (.ok 7)) (fun _ => none) 3 none
    (fun _ => none) _ rfl).2 (by decide)
  refine ⟨rfl, h.1, h.2 1 [2] rfl ?_⟩
  intro e _ hstored
  exact nomatch (show some (Except.ok (ε := Nat) 7) = some (.error e) from hstored)

/-- Where the chain is not what one may expect: an error of `dispose_cb` is raised, and not the
newest exception that was thrown; an exception that is thrown twice takes the place that an older
one should have; the error of the operation, or a cycle, may be behind the oldest exception
already. -/
theorem chain_deviates :
    (let r := iowaitOrDispose 4 (interruptedBy [1] (.ok 7)) (fun _ => some ⟨5, true⟩) 3
      (.start none fun _ => none);
      throws r.2 = [1] ∧ r.1 = .raised 5) ∧
    (let r := iowaitOrDispose (V := Nat) 4 (interruptedBy [0, 1, 2, 1] (.ok 7)) (fun _ => none) 3
      (.start none fun _ => none);
      throws r.2 = [0, 1, 2, 1] ∧ r.1 = .raised 1 ∧ ¬ Behind r.2.contexts 1 2) ∧
    (let r := iowaitOrDispose (V := Nat) 4 (fun _ => .thrown ⟨1, false⟩ (some (.error 9))) (fun _ => none) 0
        (.start none fun e => if e = 1 then some 9 else none);
      r.2.stored = some (.error 9) ∧ r.1 = .raised 1 ∧ Behind r.2.contexts 1 9) ∧
    (let r := iowaitOrDispose (V := Nat) 4 (interruptedBy [1] (.ok 7)) (fun _ => none) 0
      (.start none fun _ => some 9);
      throws r.2 = [1] ∧ r.1 = .raised 1 ∧ ¬ Acyclic r.2.contexts 1) := by
  refine ⟨⟨rfl, rfl⟩, ⟨rfl, rfl, ?_⟩, ⟨rfl, rfl, ?_⟩, ⟨rfl, rfl, ?_⟩⟩
  · intro hbehind
    rcases hbehind.cases with heq | ⟨c, hc, hbehind⟩
    · exact absurd heq (by decide)
    · have heq : c = 0 := (Option.some.inj (show some 0 = some c from hc)).symm
      subst heq
      rcases hbehind.cases with heq | ⟨c, hc, _⟩
      · exact absurd heq (by decide)
      · exact nomatch (show (none : Option Nat) = some c from hc)
  · exact Relation.ReflTransGen.single rfl
  · intro hacyclic
    exact hacyclic 9 (Relation.ReflTransGen.single rfl) (Relation.TransGen.single rfl)

end Pytealet.Io.WaitOrDispose
