import Pytealet.Uring.Steps

/-!
# Wait — one call of `Ring.wait`

The call takes CQEs until the queue is empty, packages each one, and hands the result to the
callback or puts it on the list that it returns.  A burst that had nothing for the caller makes it
park again.  What the environment decides is in the `WaitCall`.
-/

namespace Pytealet.Uring

open Lib.Transition List

/-! ## CQEs -/

structure Cqe where
  /-- `none` is the NOP of `break_wait`. -/
  data : Option UserData
  res : Int := 0
  more : Bool := false
  notif : Bool := false

inductive Take where
  | wake
  | skip
  | ready (s : Staged)

/-- `consume_cqe`, into a variable of the caller. -/
def Ring.takeCqe (r : Ring) (cqe : Cqe) : Ring × Take :=
  match cqe.data with
  | none => (r, .wake)
  | some (.nowait _ _) => (r, .skip)
  | some .linkTimeout => (r.pendingDec, .skip)
  | some (.op c) =>
    (r.completionPrepInFlightRef c cqe.res cqe.more cqe.notif, .ready ⟨c, cqe.res, cqe.more, cqe.notif⟩)

theorem Ring.consumeCqe_eq_takeCqe (r : Ring) (sqe : Sqe) (res : Int) (more notif : Bool) :
    r.consumeCqe sqe res more notif =
      match r.takeCqe ⟨some sqe.data, res, more, notif⟩ with
      | (r, .ready s) => { r with staged := r.staged ++ [s] }
      | (r, _) => r := by
  unfold consumeCqe takeCqe
  cases sqe.data <;> rfl

def Ring.packageReadyCompletion (r : Ring) (s : Staged) (fate : BuildFate) : Ring × Delivery :=
  match r.buildCompletionResult s fate with
  | (r, d) => (r.finishPackage s.c, d)

/-- A delivery object: the completion, and which CQE of the call it was built for. -/
structure Event where
  cqe : Nat
  c : Nat
  deriving DecidableEq, Repr

/-- A CQE and what happens while it is handled. -/
structure Item where
  cqe : Cqe
  fate : BuildFate := {}
  /-- Memory for `PyList_New` or `PyList_Append`. -/
  memory : Bool := true
  /-- What the callback does to the ring. -/
  callback : Ring → Ring := id
  /-- The callback raises, and no exception handler takes the error. -/
  raises : Bool := false

/-! ## A burst -/

/-- The variables of `drain_ready_completions`. -/
structure Progress where
  ring : Ring
  /-- CQEs that the call has consumed. -/
  taken : Nat := 0
  delivered : Nat := 0
  readyList : List Event := []
  sawWake : Bool := false
  callbackFailed : Bool := false
  /-- History: what the callback was called with. -/
  called : List Event := []
  /-- History: the delivery objects that were built. -/
  packaged : List Event := []

namespace Progress

variable (p : Progress)

/-- `delivery_invoke_one`; the publish after it does nothing outside the completion service. -/
def deliverReady (e : Event) (item : Item) : Progress :=
  { p with
    ring := item.callback p.ring
    called := p.called ++ [e]
    delivered := p.delivered + 1
    callbackFailed := p.callbackFailed || item.raises }

/-- `append_ready_completion`, after packaging. -/
def appendReady (e : Event) (item : Item) : Progress × Bool :=
  if item.memory then ({ p with readyList := p.readyList ++ [e], delivered := p.delivered + 1 }, true)
  else (p, false)

def applyReadyCqe (deliver : Bool) (s : Staged) (item : Item) : Progress × Bool :=
  match p.ring.packageReadyCompletion s item.fate with
  | (r, .failed _) => ({ p with ring := r }, false)
  | (r, .internal) => ({ p with ring := r }, true)
  | (r, .ready) =>
    let e : Event := ⟨p.taken, s.c⟩
    let p := { p with ring := r, packaged := p.packaged ++ [e] }
    if deliver then (p.deliverReady e item, true) else p.appendReady e item

/-- The CQE is seen, and the kernel's queue no longer has it. -/
def take (r : Ring) : Progress :=
  { p with ring := r, taken := p.taken + 1 }

/-- The loop over a burst, and the CQEs that it leaves in the queue. -/
def drainBurst (deliver : Bool) : Progress → List Item → Progress × Bool × List Item
  | p, [] => (p, true, [])
  | p, item :: items =>
    match p.ring.takeCqe item.cqe with
    | (r, .wake) => drainBurst deliver { p.take r with sawWake := true } items
    | (r, .skip) => drainBurst deliver (p.take r) items
    | (r, .ready s) =>
      match (p.take r).applyReadyCqe deliver s item with
      | (p, true) => drainBurst deliver p items
      | (p, false) => (p, false, items)

end Progress

/-! ## The call -/

inductive WaitKind where
  | blocking
  | timeout
  | peek
  deriving DecidableEq

structure Burst where
  items : List Item
  /-- The reap honoured the latch of `break_wait`. -/
  fromSticky : Bool := false
  /-- `driver_flush_if_prepared`: what the kernel takes, and whether it raises. -/
  flush : Enter := {}
  /-- `ring_policy_before_reap`, or the burst filled a leg or a parked copy. -/
  policy : Bool := true
  /-- A timed wait has time left. -/
  timeLeft : Bool := true

/-- What a reap finds. -/
inductive Reap where
  | failed
  | idle
  | burst (b : Burst)

structure WaitCall where
  kind : WaitKind
  /-- The ring has a callback. -/
  deliver : Bool
  /-- No other wait and no completion service is active. -/
  receiveIdle : Bool := true
  /-- The flush before the first reap. -/
  before : Enter := {}
  reaps : List Reap

inductive Answer where
  | raised
  | none
  | list (es : List Event)
  /-- The call has not returned. -/
  | waiting

def Answer.items : Answer → List Event
  | .list es => es
  | _ => []

structure Outcome where
  ring : Ring
  answer : Answer
  called : List Event := []
  packaged : List Event := []
  /-- The CQEs that a later wait finds. -/
  left : List Item := []

namespace Progress

variable (p : Progress)

def outcome (answer : Answer) : Outcome :=
  { ring := p.ring, answer := answer, called := p.called, packaged := p.packaged }

/-- `drain_empty_result` -/
def emptyResult (deliver : Bool) : Outcome :=
  p.outcome (if deliver then .none else .list [])

/-- The flags of the burst before. -/
def nextBurst : Progress :=
  { p with delivered := 0, sawWake := false, callbackFailed := false }

/-- The burst had nothing for the caller. -/
def parksAgain (kind : WaitKind) (b : Burst) : Bool :=
  kind ≠ .peek && p.delivered = 0 && !p.sawWake && !b.fromSticky && b.policy

def flushed (b : Burst) : Progress :=
  { p with ring := p.ring.enterKernel b.flush.taken }

def drainReadyCompletions (kind : WaitKind) (deliver : Bool) : Progress → List Reap → Outcome
  | p, [] => p.outcome .waiting
  | p, .failed :: _ => p.outcome .raised
  | p, .idle :: _ => p.emptyResult deliver
  | p, .burst b :: reaps =>
    match p.nextBurst.drainBurst deliver b.items with
    | (p, false, left) => { (p.flushed b).outcome .raised with left := left }
    | (p, true, _) =>
      let p := p.flushed b
      if p.callbackFailed then p.outcome .raised
      else if !b.flush.ok then p.outcome .raised
      else if p.parksAgain kind b then
        if kind = .timeout ∧ b.timeLeft = false then p.emptyResult deliver
        else drainReadyCompletions kind deliver p reaps
      else if deliver then p.outcome .none
      else p.outcome (.list p.readyList)

end Progress

/-- `UringApiRing_wait_impl` -/
def Ring.wait (r : Ring) (w : WaitCall) : Outcome :=
  if !r.initialized || !w.receiveIdle then { ring := r, answer := .raised }
  else
    let r := r.enterKernel w.before.taken
    if !w.before.ok then { ring := r, answer := .raised }
    else { ring := r : Progress }.drainReadyCompletions w.kind w.deliver w.reaps

/-- What was packaged is returned or was delivered. -/
def Outcome.KeepsAll (o : Outcome) : Prop :=
  ∀ e ∈ o.packaged, e ∈ o.called ∨ e ∈ o.answer.items
  deriving Decidable

/-! ## What happens to the CQEs of a burst -/

/-- How the packaging of a CQE ends, and whether the list has memory for its result. -/
abbrev Packaging := Delivery × Bool

def Packaging.succeeds : Packaging → Bool
  | (.failed _, _) => false
  | (.internal, _) => true
  | (.ready, memory) => memory

/-- The packagings of a burst, up to the first that does not succeed, and the ring after them. -/
def Ring.packageAll (r : Ring) : List Item → Ring × List Packaging
  | [] => (r, [])
  | item :: items =>
    match r.takeCqe item.cqe with
    | (r, .wake) => r.packageAll items
    | (r, .skip) => r.packageAll items
    | (r, .ready s) =>
      let (r, d) := r.packageReadyCompletion s item.fate
      if Packaging.succeeds (d, item.memory) then
        let (r, ds) := r.packageAll items
        (r, (d, item.memory) :: ds)
      else
        (r, [(d, item.memory)])

/-- Nothing of the burst is packaged for the caller, or nothing fails. -/
def Burst.Smooth (b : Burst) (r : Ring) : Prop :=
  (∀ d ∈ (r.packageAll b.items).2, d.1 ≠ .ready) ∨
    (∀ d ∈ (r.packageAll b.items).2, d.succeeds = true) ∧ b.flush.ok = true

/-- The wait goes on after the burst. -/
def Burst.silent (b : Burst) (kind : WaitKind) (r : Ring) : Bool :=
  (r.packageAll b.items).2.all (fun d => d.1 = .internal) && b.items.all
    (fun item => item.cqe.data.isSome) &&
    b.flush.ok && kind ≠ .peek && !b.fromSticky && b.policy && (kind ≠ .timeout || b.timeLeft)

/-- The bursts that a call without a callback handles, each with the ring before it. -/
def Ring.bursts (kind : WaitKind) : Ring → List Reap → List (Burst × Ring)
  | r, .burst b :: reaps =>
    (b, r) ::
      if b.silent kind r then
        bursts kind ((r.packageAll b.items).1.enterKernel b.flush.taken) reaps
      else []
  | _, _ => []

/-- Those of a `wait`, which may not come to its first reap. -/
def Ring.handled (r : Ring) (w : WaitCall) : List (Burst × Ring) :=
  if r.initialized && w.receiveIdle && w.before.ok then
    (r.enterKernel w.before.taken).bursts w.kind w.reaps
  else []

namespace Progress

variable {p : Progress}

/-- What the loop over a burst leaves of a call without a callback. -/
structure Pulled (p : Progress) (items : List Item) (q : Progress × Bool × List Item) : Prop where
  ring : q.1.ring = (p.ring.packageAll items).1
  ok : q.2.1 = (p.ring.packageAll items).2.all Packaging.succeeds
  called : q.1.called = p.called
  callbackFailed : q.1.callbackFailed = p.callbackFailed
  sawWake : q.2.1 = true → (q.1.sawWake = false ↔ p.sawWake = false ∧
    items.all (fun item => item.cqe.data.isSome))
  packaged : ∃ es, q.1.packaged = p.packaged ++ es ∧
    (es = [] ↔ ∀ d ∈ (p.ring.packageAll items).2, d.1 ≠ .ready) ∧
    (q.2.1 = true → q.1.readyList = p.readyList ++ es ∧ q.1.delivered = p.delivered + es.length)

theorem Pulled.nil (p : Progress) : p.Pulled [] (drainBurst false p []) :=
  ⟨rfl, rfl, rfl, rfl, by simp [drainBurst], [], by simp [drainBurst, Ring.packageAll]⟩

theorem Pulled.cons_skip {item : Item} {items : List Item} {r : Ring} {wake : Bool}
    {q : Progress × Bool × List Item} (hall : p.ring.packageAll (item :: items) = r.packageAll items)
    (hwake : wake = false ↔ p.sawWake = false ∧ item.cqe.data.isSome)
    (h : ({ p.take r with sawWake := wake }).Pulled items q) : p.Pulled (item :: items) q := by
  refine ⟨?_, ?_, h.called, h.callbackFailed, ?_, ?_⟩
  · rw [hall]
    exact h.ring
  · rw [hall]
    exact h.ok
  · intro hok
    rw [h.sawWake hok, all_cons, Bool.and_eq_true]
    exact (and_congr_left fun _ => hwake).trans and_assoc
  · rw [hall]
    exact h.packaged

theorem Pulled.cons_ready {item : Item} {items : List Item} {r r' : Ring} {s : Staged} {d : Delivery}
    (hdata : item.cqe.data.isSome) (htake : p.ring.takeCqe item.cqe = (r, .ready s))
    (hpack : r.packageReadyCompletion s item.fate = (r', d))
    (ih : ∀ p : Progress, p.Pulled items (drainBurst false p items)) :
    p.Pulled (item :: items) (drainBurst false p (item :: items)) := by
  have hall : p.ring.packageAll (item :: items) =
      if Packaging.succeeds (d, item.memory) then
        ((r'.packageAll items).1, (d, item.memory) :: (r'.packageAll items).2)
      else (r', [(d, item.memory)]) := by
    simp only [Ring.packageAll, htake, hpack]
  cases d with
  | failed e =>
    have hdrain : drainBurst false p (item :: items) = ({ p.take r with ring := r' }, false, items) := by
      simp [drainBurst, htake, applyReadyCqe, take, hpack]
    rw [if_neg (by simp [Packaging.succeeds])] at hall
    rw [hdrain]
    exact ⟨by rw [hall], by rw [hall]; rfl, rfl, rfl, by simp, [], by simp [take], by simp [hall], by simp⟩
  | internal =>
    have hdrain : drainBurst false p (item :: items) =
        drainBurst false { p.take r with ring := r' } items := by
      simp [drainBurst, htake, applyReadyCqe, take, hpack]
    rw [if_pos (by simp [Packaging.succeeds])] at hall
    have h := ih { p.take r with ring := r' }
    rw [hdrain]
    rcases h.packaged with ⟨es, hes, hnone, hlist⟩
    refine ⟨by rw [hall]; exact h.ring, ?_, h.called, h.callbackFailed, ?_, es, hes, ?_, hlist⟩
    · rw [hall, h.ok]
      rfl
    · intro hok
      rw [h.sawWake hok, all_cons, hdata, Bool.true_and]
      rfl
    · rw [hall, hnone]
      simp
  | ready =>
    cases hmemory : item.memory with
    | false =>
      have hdrain : drainBurst false p (item :: items) =
          ({ p.take r with ring := r', packaged := p.packaged ++ [⟨p.taken + 1, s.c⟩] }, false, items) := by
        simp [drainBurst, htake, applyReadyCqe, take, hpack, appendReady, hmemory]
      rw [if_neg (by simp [Packaging.succeeds, hmemory])] at hall
      rw [hdrain]
      exact ⟨by rw [hall], by rw [hall]; simp [Packaging.succeeds, hmemory], rfl, rfl, by simp,
        [⟨p.taken + 1, s.c⟩], by simp, by simp [hall], by simp⟩
    | true =>
      have hdrain : drainBurst false p (item :: items) =
          drainBurst false { p.take r with
            ring := r'
            packaged := p.packaged ++ [⟨p.taken + 1, s.c⟩]
            readyList := p.readyList ++ [⟨p.taken + 1, s.c⟩]
            delivered := p.delivered + 1 } items := by
        simp [drainBurst, htake, applyReadyCqe, take, hpack, appendReady, hmemory]
      rw [if_pos (by simp [Packaging.succeeds, hmemory])] at hall
      have h := ih { p.take r with
            ring := r'
            packaged := p.packaged ++ [⟨p.taken + 1, s.c⟩]
            readyList := p.readyList ++ [⟨p.taken + 1, s.c⟩]
            delivered := p.delivered + 1 }
      rw [hdrain]
      rcases h.packaged with ⟨es, hes, hnone, hlist⟩
      refine ⟨by rw [hall]; exact h.ring, ?_, h.called, h.callbackFailed, ?_, ⟨p.taken + 1, s.c⟩ :: es,
        ?_, ?_, ?_⟩
      · rw [hall, h.ok]
        simp [Packaging.succeeds, hmemory]
      · intro hok
        rw [h.sawWake hok, all_cons, hdata, Bool.true_and]
        rfl
      · rw [hes, append_assoc]
        rfl
      · simp [hall]
      · intro hok
        rcases hlist hok with ⟨hready, hcount⟩
        refine ⟨?_, ?_⟩
        · rw [hready, append_assoc]
          rfl
        · rw [hcount, length_cons, Nat.add_assoc, Nat.add_comm 1]

theorem drainBurst_pulled (p : Progress) (items : List Item) :
    p.Pulled items (drainBurst false p items) := by
  induction items generalizing p with
  | nil => exact .nil p
  | cons item items ih =>
    cases hdata : item.cqe.data with
    | none =>
      have htake : p.ring.takeCqe item.cqe = (p.ring, .wake) := by simp [Ring.takeCqe, hdata]
      have hdrain : drainBurst false p (item :: items) =
          drainBurst false { p.take p.ring with sawWake := true } items := by
        simp [drainBurst, htake]
      rw [hdrain]
      exact .cons_skip (by simp [Ring.packageAll, htake]) (by simp [hdata]) (ih _)
    | some data =>
      cases data with
      | nowait kind fd =>
        have htake : p.ring.takeCqe item.cqe = (p.ring, .skip) := by simp [Ring.takeCqe, hdata]
        have hdrain : drainBurst false p (item :: items) = drainBurst false (p.take p.ring) items := by
          simp [drainBurst, htake]
        rw [hdrain]
        exact .cons_skip (by simp [Ring.packageAll, htake]) (by simp [hdata]) (ih (p.take p.ring))
      | linkTimeout =>
        have htake : p.ring.takeCqe item.cqe = (p.ring.pendingDec, .skip) := by simp [Ring.takeCqe, hdata]
        have hdrain : drainBurst false p (item :: items) =
            drainBurst false (p.take p.ring.pendingDec) items := by
          simp [drainBurst, htake]
        rw [hdrain]
        have hall : p.ring.packageAll (item :: items) = p.ring.pendingDec.packageAll items := by
          rw [Ring.packageAll, htake]
        exact .cons_skip hall (by simp [hdata]) (ih (p.take p.ring.pendingDec))
      | op c =>
        have htake : p.ring.takeCqe item.cqe =
            (p.ring.completionPrepInFlightRef c item.cqe.res item.cqe.more item.cqe.notif,
              .ready ⟨c, item.cqe.res, item.cqe.more, item.cqe.notif⟩) := by
          simp [Ring.takeCqe, hdata]
        exact .cons_ready (by simp [hdata]) htake rfl ih

/-- Nothing was packaged in the bursts before. -/
structure Fresh (p : Progress) : Prop where
  called : p.called = []
  packaged : p.packaged = []
  readyList : p.readyList = []

theorem keepsAll_outcome {answer : Answer} (hcalled : p.called = []) (hanswer : answer.items = []) :
    (p.outcome answer).KeepsAll ↔ p.packaged = [] := by
  simp [Outcome.KeepsAll, outcome, hcalled, hanswer, eq_nil_iff_forall_not_mem]

theorem all_internal {ds : List Packaging} :
    ds.all (fun d => d.1 = .internal) = true ↔
      ds.all Packaging.succeeds = true ∧ ∀ d ∈ ds, d.1 ≠ .ready := by
  simp only [all_eq_true, decide_eq_true_eq]
  refine ⟨?_, ?_⟩
  · intro h
    refine ⟨?_, ?_⟩
    · rintro ⟨d, memory⟩ hd
      rw [show d = .internal from h _ hd]
      rfl
    · intro d hd
      rw [h d hd]
      simp
  · rintro ⟨hok, hready⟩ ⟨d, memory⟩ hd
    cases d with
    | ready => exact absurd rfl (hready _ hd)
    | internal => rfl
    | failed e => exact absurd (hok _ hd) (by simp [Packaging.succeeds])

theorem Pulled.silent_iff {b : Burst} {kind : WaitKind} {q : Progress} {ok : Bool} {left : List Item}
    (h : p.nextBurst.Pulled b.items (q, ok, left)) :
    b.silent kind p.ring = true ↔ ok = true ∧ b.flush.ok = true ∧ (q.flushed b).parksAgain kind b = true ∧
      ¬ (kind = .timeout ∧ b.timeLeft = false) := by
  rcases h.packaged with ⟨es, -, hnone, hlist⟩
  have hok : ok = (p.ring.packageAll b.items).2.all Packaging.succeeds := h.ok
  have htime : (!decide (kind = .timeout) || b.timeLeft) = true ↔
      ¬ (kind = .timeout ∧ b.timeLeft = false) := by
    cases kind <;> simp
  cases hall : ok with
  | false =>
    have hnot : ¬ ((p.ring.packageAll b.items).2.all fun d => d.1 = .internal) = true := by
      rw [all_internal, ← hok, hall]
      simp
    simp [Burst.silent, hnot]
  | true =>
    have hwake : q.sawWake = false ↔ false = false ∧ b.items.all (fun item => item.cqe.data.isSome) :=
      h.sawWake hall
    have hdelivered : q.delivered = 0 + es.length := (hlist hall).2
    have hzero : q.delivered = 0 ↔ ∀ d ∈ (p.ring.packageAll b.items).2, d.1 ≠ .ready := by
      rw [hdelivered, Nat.zero_add, length_eq_zero_iff]
      exact hnone
    have hinternal : ((p.ring.packageAll b.items).2.all fun d => d.1 = .internal) = true ↔
        q.delivered = 0 := by
      rw [all_internal, ← hok, hall, hzero]
      simp
    simp only [true_and] at hwake
    simp only [Burst.silent, parksAgain, flushed, Bool.and_eq_true, hinternal, ne_eq,
      Bool.not_eq_true', ← hwake, decide_not, htime, true_and]
    refine ⟨?_, ?_⟩
    · rintro ⟨⟨⟨⟨⟨⟨hd, hw⟩, hf⟩, hk⟩, hs⟩, hpolicy⟩, ht⟩
      exact ⟨hf, ⟨⟨⟨⟨hk, decide_eq_true hd⟩, hw⟩, hs⟩, hpolicy⟩, ht⟩
    · rintro ⟨hf, ⟨⟨⟨⟨hk, hd⟩, hw⟩, hs⟩, hpolicy⟩, ht⟩
      exact ⟨⟨⟨⟨⟨⟨of_decide_eq_true hd, hw⟩, hf⟩, hk⟩, hs⟩, hpolicy⟩, ht⟩

theorem Fresh.burst (h : p.Fresh) (b : Burst) :
    ∃ q ok left es, p.nextBurst.drainBurst false b.items = (q, ok, left) ∧
      p.nextBurst.Pulled b.items (q, ok, left) ∧ q.called = [] ∧ q.packaged = es ∧
        q.callbackFailed = false ∧
      (es = [] ↔ ∀ d ∈ (p.ring.packageAll b.items).2, d.1 ≠ .ready) ∧
      (ok = true → q.readyList = es ∧ q.delivered = es.length) := by
  have hp := drainBurst_pulled p.nextBurst b.items
  rcases hq : p.nextBurst.drainBurst false b.items with ⟨q, ok, left⟩
  rw [hq] at hp
  rcases hp.packaged with ⟨es, hes, hnone, hlist⟩
  have hes' : q.packaged = p.packaged ++ es := hes
  rw [h.packaged, nil_append] at hes'
  refine ⟨q, ok, left, es, rfl, hp, hp.called.trans h.called, hes', hp.callbackFailed, hnone, ?_⟩
  intro hok
  rcases hlist hok with ⟨hready, hcount⟩
  have hready' : q.readyList = p.readyList ++ es := hready
  have hcount' : q.delivered = 0 + es.length := hcount
  rw [h.readyList, nil_append] at hready'
  rw [Nat.zero_add] at hcount'
  exact ⟨hready', hcount'⟩

theorem parksAgain_delivered {kind : WaitKind} {b : Burst} (h : p.parksAgain kind b = true) :
    p.delivered = 0 := by
  simp only [parksAgain, Bool.and_eq_true] at h
  exact of_decide_eq_true h.1.1.1.2

theorem Fresh.goes_on (h : p.Fresh) {b : Burst} {kind : WaitKind} (hs : b.silent kind p.ring = true) :
    ∃ q : Progress, q.Fresh ∧ q.ring = (p.ring.packageAll b.items).1.enterKernel b.flush.taken ∧
      ∀ reaps, p.drainReadyCompletions kind false (.burst b :: reaps) =
        q.drainReadyCompletions kind false reaps := by
  rcases h.burst b with ⟨q, ok, left, es, hq, hp, hcalled, hpackaged, hfailed, hnone, hlist⟩
  rcases hp.silent_iff.1 hs with ⟨hok, hflush, hparks, htime⟩
  subst hok
  have hnil : es = [] := by
    have hzero : q.delivered = 0 := parksAgain_delivered hparks
    rw [(hlist rfl).2] at hzero
    exact length_eq_zero_iff.1 hzero
  refine ⟨q.flushed b, ⟨hcalled, hpackaged.trans hnil, (hlist rfl).1.trans hnil⟩, ?_, ?_⟩
  · have hring : q.ring = (p.ring.packageAll b.items).1 := hp.ring
    simp [flushed, hring]
  · intro reaps
    have hfailed' : (q.flushed b).callbackFailed = false := hfailed
    simp only [drainReadyCompletions, hq, hfailed', hflush, hparks, htime,
      Bool.false_eq_true, Bool.not_true,
      if_false, if_true]

theorem Fresh.ends (h : p.Fresh) {b : Burst} {kind : WaitKind} (hs : b.silent kind p.ring = false)
    (reaps : List Reap) :
    (p.drainReadyCompletions kind false (.burst b :: reaps)).KeepsAll ↔ b.Smooth p.ring := by
  rcases h.burst b with ⟨q, ok, left, es, hq, hp, hcalled, hpackaged, hfailed, hnone, hlist⟩
  have hok : ok = (p.ring.packageAll b.items).2.all Packaging.succeeds := hp.ok
  have hfailed' : (q.flushed b).callbackFailed = false := hfailed
  -- what was packaged is lost with the list when the call raises
  have hraised : ((q.flushed b).outcome .raised).KeepsAll ↔
      ∀ d ∈ (p.ring.packageAll b.items).2, d.1 ≠ .ready := by
    have hcalled' : (q.flushed b).called = [] := hcalled
    have hpackaged' : (q.flushed b).packaged = es := hpackaged
    rw [keepsAll_outcome hcalled' rfl, hpackaged', hnone]
  simp only [drainReadyCompletions, hq]
  cases hall : ok with
  | false =>
    have hfail : ¬ ∀ d ∈ (p.ring.packageAll b.items).2, d.succeeds = true := by
      rw [← all_eq_true, ← hok, hall]
      simp
    simp only [Burst.Smooth, hfail, false_and, or_false]
    exact hraised
  | true =>
    have hsucceed : ∀ d ∈ (p.ring.packageAll b.items).2, d.succeeds = true := by
      rw [← all_eq_true, ← hok, hall]
    cases hflush : b.flush.ok with
    | false =>
      simp only [hfailed', Burst.Smooth, hflush, Bool.false_eq_true, and_false, or_false, Bool.not_false,
        if_true, if_false]
      exact hraised
    | true =>
      have hsmooth : b.Smooth p.ring := .inr ⟨hsucceed, hflush⟩
      simp only [hfailed', hsmooth, iff_true, Bool.false_eq_true, Bool.not_true, if_false]
      split
      · rename_i hparks
        -- it would park again, but the time is over
        have htime : kind = .timeout ∧ b.timeLeft = false := by
          by_contra htime
          rw [hp.silent_iff.2 ⟨hall, hflush, hparks, htime⟩] at hs
          cases hs
        have hnil : es = [] := by
          have hzero : q.delivered = 0 := parksAgain_delivered hparks
          rw [(hlist hall).2] at hzero
          exact length_eq_zero_iff.1 hzero
        rw [if_pos htime]
        have hcalled' : (q.flushed b).called = [] := hcalled
        exact (keepsAll_outcome hcalled' rfl).2 (hpackaged.trans hnil)
      · intro e he
        refine .inr ?_
        have he' : e ∈ q.packaged := he
        rw [hpackaged, ← (hlist hall).1] at he'
        exact he'

/-- A call without a callback keeps what it packaged if all the bursts that it handles are smooth,
and only then. -/
theorem pull_keepsAll_iff (kind : WaitKind) (reaps : List Reap) (h : p.Fresh) :
    (p.drainReadyCompletions kind false reaps).KeepsAll ↔
      ∀ b ∈ p.ring.bursts kind reaps, b.1.Smooth b.2 := by
  induction reaps generalizing p with
  | nil =>
    simp only [drainReadyCompletions, Ring.bursts, not_mem_nil, false_imp_iff, implies_true, iff_true]
    exact (keepsAll_outcome h.called rfl).2 h.packaged
  | cons reap reaps ih =>
    cases reap with
    | failed =>
      simp only [drainReadyCompletions, Ring.bursts, not_mem_nil, false_imp_iff, implies_true, iff_true]
      exact (keepsAll_outcome h.called rfl).2 h.packaged
    | idle =>
      simp only [drainReadyCompletions, Ring.bursts, not_mem_nil, false_imp_iff, implies_true, iff_true]
      exact (keepsAll_outcome h.called rfl).2 h.packaged
    | burst b =>
      cases hs : b.silent kind p.ring with
      | false =>
        simp only [Ring.bursts, hs, Bool.false_eq_true, if_false, mem_singleton, forall_eq]
        exact h.ends hs reaps
      | true =>
        rcases h.goes_on hs with ⟨q, hfresh, hring, hq⟩
        have hsmooth : b.Smooth p.ring := by
          simp only [Burst.silent, Bool.and_eq_true] at hs
          exact .inl (all_internal.1 hs.1.1.1.1.1.1).2
        simp only [Ring.bursts, hs, if_true, forall_mem_cons, hsmooth, true_and, hq reaps, ← hring]
        exact ih hfresh

/-! ## Calls with a callback -/

theorem applyReadyCqe_called (s : Staged) (item : Item) (h : p.called = p.packaged) :
    (p.applyReadyCqe true s item).1.called = (p.applyReadyCqe true s item).1.packaged := by
  unfold applyReadyCqe
  split
  · exact h
  · exact h
  · simp [deliverReady, h]

theorem drainBurst_called (items : List Item) (h : p.called = p.packaged) :
    (drainBurst true p items).1.called = (drainBurst true p items).1.packaged := by
  induction items generalizing p with
  | nil => exact h
  | cons item items ih =>
    unfold drainBurst
    split
    · exact ih h
    · exact ih h
    · rename_i r s _
      have happly := applyReadyCqe_called (p := p.take r) s item h
      split
      · rename_i q hq
        rw [hq] at happly
        exact ih happly
      · rename_i q hq
        rw [hq] at happly
        exact happly

theorem callback_keepsAll (kind : WaitKind) (reaps : List Reap) (h : p.called = p.packaged) :
    (p.drainReadyCompletions kind true reaps).KeepsAll := by
  have hkeeps : ∀ {q : Progress} (answer : Answer), q.called = q.packaged →
      (q.outcome answer).KeepsAll := by
    intro q answer hq e he
    have he' : e ∈ q.packaged := he
    rw [← hq] at he'
    exact .inl he'
  induction reaps generalizing p with
  | nil => exact hkeeps _ h
  | cons reap reaps ih =>
    cases reap with
    | failed => exact hkeeps _ h
    | idle => exact hkeeps _ h
    | burst b =>
      have hburst := drainBurst_called (p := p.nextBurst) b.items h
      rcases hq : p.nextBurst.drainBurst true b.items with ⟨q, ok, left⟩
      rw [hq] at hburst
      have hcalled : (q.flushed b).called = (q.flushed b).packaged := hburst
      simp only [drainReadyCompletions, hq]
      cases ok with
      | false => exact hkeeps .raised hcalled
      | true =>
        dsimp only
        split
        · exact hkeeps _ hcalled
        · split
          · exact hkeeps _ hcalled
          · split
            · split
              · exact hkeeps _ hcalled
              · exact ih hcalled
            · exact hkeeps _ hcalled

end Progress

/-- A `wait` keeps every completion that it packaged exactly if it has a callback or all the bursts
that it handles are smooth. -/
theorem wait_keeps_completions_iff (r : Ring) (w : WaitCall) :
    (r.wait w).KeepsAll ↔ w.deliver = true ∨ ∀ b ∈ r.handled w, b.1.Smooth b.2 := by
  unfold Ring.wait Ring.handled
  cases hopen : r.initialized && w.receiveIdle with
  | false =>
    have hnot : (!r.initialized || !w.receiveIdle) = true := by
      rw [← Bool.not_and, hopen]
      rfl
    simp [hnot, Outcome.KeepsAll]
  | true =>
    have hnot : (!r.initialized || !w.receiveIdle) = false := by
      rw [← Bool.not_and, hopen]
      rfl
    cases hbefore : w.before.ok with
    | false => simp [hnot, Outcome.KeepsAll]
    | true =>
      simp only [hnot, Bool.not_true, Bool.false_eq_true, if_false, Bool.and_true, if_true]
      cases hdeliver : w.deliver with
      | true => exact iff_of_true (Progress.callback_keepsAll _ _ rfl) (.inl rfl)
      | false =>
        rw [Progress.pull_keepsAll_iff w.kind w.reaps ⟨rfl, rfl, rfl⟩]
        simp

/-- A receive and a `send_all`, with a shutdown parked behind it that has a link timeout. -/
def recvBesideSendAll : List Act :=
  [.setTimeout 2 true, .prepare [(some 0, {}), (some 1, {}), (some 2, {})], .submit 4]

/-- Both complete in one burst, and the timer of the shutdown finds no memory. -/
def recvThenFailedDrain : WaitCall where
  kind := .blocking
  deliver := false
  reaps := [.burst
    { items := [{ cqe := { data := some (.op 0), res := 5 } },
        { cqe := { data := some (.op 1), res := 10 }, fate := { drain := [{ timer := false }] } }] }]

/-- The receive was packaged, and the call raises without it. -/
theorem wait_drops_receive :
    let r := Ring.init 4 true fun c =>
      if c = 0 then { kind := .recv, fd := 5, length := 8 }
      else if c = 1 then { kind := .sendAll, fd := 3, length := 10 } else { kind := .shutdown, fd := 3 }
    (exec step r recvBesideSendAll).map (fun r =>
      (r.kernel.map Sqe.data, (r.wait recvThenFailedDrain).packaged)) =
        some ([.op 0, .op 1], [⟨1, 0⟩]) ∧
      (exec step r recvBesideSendAll).all (fun r => (r.wait recvThenFailedDrain).KeepsAll) = false := by
  decide

end Pytealet.Uring
