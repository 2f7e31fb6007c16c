import Pytealet.Scheduler.Timers

/-!
# TimerRuns — what a drain promises over a whole run

Every callback and every timer is in one place: waiting, taken by the drain, run, or cancelled.  The
drain runs the callbacks that were there at its start, then the timers that were due when it read
the clock.
-/

namespace Pytealet.Scheduler.Timers

open Lib Lib.Transition List

/-! ## Where the timers are -/

/-- Every timer made is waiting or has run, each at one place, or it has been cancelled. -/
structure Account (n : Nat) (cancels : List (Nat × Nat)) (live ran : List TimerHandle) : Prop where
  nodup : ((live ++ ran).map TimerHandle.sequence).Nodup
  lt : ∀ t ∈ live ++ ran, t.sequence < n
  kept : ∀ q < n, (∃ t ∈ live ++ ran, t.sequence = q) ∨ ∃ p ∈ cancels, p.1 = q

namespace Account

variable {n : Nat} {cancels : List (Nat × Nat)} {live live' ran ran' : List TimerHandle} {t : TimerHandle}

theorem perm (hA : Account n cancels live ran) (hperm : (live' ++ ran').Perm (live ++ ran)) :
    Account n cancels live' ran' where
  nodup := (hperm.map TimerHandle.sequence).nodup_iff.2 hA.nodup
  lt := fun t ht => hA.lt t (hperm.subset ht)
  kept := fun q hq => (hA.kept q hq).imp_left fun ⟨t, ht, heq⟩ => ⟨t, hperm.symm.subset ht, heq⟩

theorem add (hA : Account n cancels live ran) (hseq : t.sequence = n) (hperm : live'.Perm (t :: live)) :
    Account (n + 1) cancels live' ran := by
  have hcons : Account (n + 1) cancels (t :: live) ran := by
    refine ⟨?_, fun u hu => ?_, fun q hq => ?_⟩
    · refine nodup_cons.2 ⟨fun hmem => ?_, hA.nodup⟩
      rcases mem_map.1 hmem with ⟨u, hu, heq⟩
      have hlt := hA.lt u hu
      omega
    · rcases mem_cons.1 hu with rfl | hu
      · omega
      · exact Nat.lt_succ_of_lt (hA.lt u hu)
    · by_cases hqn : q = n
      · exact .inl ⟨t, mem_cons_self .., hseq.trans hqn.symm⟩
      · refine (hA.kept q (by omega)).imp_left fun ⟨u, hu, heq⟩ => ⟨u, mem_cons_of_mem _ hu, heq⟩
  exact hcons.perm (hperm.append_right ran)

theorem drop (hA : Account n cancels live ran) (hperm : live.Perm (t :: live'))
    (hcancelled : ∃ p ∈ cancels, p.1 = t.sequence) : Account n cancels live' ran := by
  have hcons : Account n cancels (t :: live') ran := hA.perm (hperm.symm.append_right ran)
  refine ⟨(nodup_cons.1 hcons.nodup).2, fun u hu => hcons.lt u (mem_cons_of_mem _ hu), fun q hq => ?_⟩
  rcases hcons.kept q hq with ⟨u, hu, rfl⟩ | hcancel
  · rcases mem_cons.1 hu with rfl | hu
    · exact .inr hcancelled
    · exact .inl ⟨u, hu, rfl⟩
  · exact .inr hcancel

theorem run (hA : Account n cancels live ran) (hperm : live.Perm (t :: live')) :
    Account n cancels live' (ran ++ [t]) := by
  refine hA.perm ?_
  have hmid : (live' ++ (ran ++ [t])).Perm (t :: (live' ++ ran)) := by
    rw [← append_assoc]
    exact perm_append_singleton t (live' ++ ran)
  exact hmid.trans (hperm.symm.append_right ran)

theorem cancel (hA : Account n cancels live ran) (p : Nat × Nat) : Account n (cancels ++ [p]) live ran where
  nodup := hA.nodup
  lt := hA.lt
  kept := fun q hq => (hA.kept q hq).imp_right fun ⟨p', hp', heq⟩ => ⟨p', mem_append_left _ hp', heq⟩

theorem not_ran (hA : Account n cancels live ran) (ht : t ∈ live) {u : TimerHandle} (hu : u ∈ ran) :
    u.sequence ≠ t.sequence := by
  have hnodup := hA.nodup
  rw [map_append] at hnodup
  have hdisj := (nodup_append.1 hnodup).2.2
  exact (hdisj _ (mem_map_of_mem ht) _ (mem_map_of_mem hu)).symm

end Account

namespace State

/-- The timers that the drain has taken and not reached. -/
def due (s : State) : List TimerHandle :=
  match s.drain with
  | some (.due _ rest) => rest
  | _ => []

def live (s : State) : List TimerHandle :=
  s.due ++ s.timers.toList

def ranSoon (s : State) : List Callback :=
  s.log.filterMap fun r => r.item.soon?

def ranTimers (s : State) : List TimerHandle :=
  s.log.filterMap fun r => r.item.timer?

/-- When the drain reads the clock, no timer armed since it began is due. -/
def Timely (s : State) : Action → Prop
  | .collect => ∀ t ∈ s.timers, t.when ≤ s.clock → t.born = some s.drains → s.cancelled t
  | _ => True

instance (s : State) (a : Action) : Decidable (s.Timely a) := by
  unfold Timely
  split
  · infer_instance
  · infer_instance

/-- Where the drain is. -/
def PhaseOk (s : State) : Option Phase → Prop
  | none => s.running = false
  | some (.ready n) =>
    n ≤ s.ready.length ∧ (∀ c ∈ s.ready.take n, c.born ≠ some s.drains) ∧
      (∀ c ∈ s.ready.drop n, c.born = some s.drains) ∧ ∀ r ∈ s.log, r.drain = s.drains →
        r.item.timer? = none
  | some (.due now rest) =>
    now ≤ s.clock ∧ (∀ t ∈ rest, t.when ≤ now ∧ (t.born = some s.drains → s.cancelled t)) ∧
      (rest.Pairwise fun t u => t.key ≤ u.key) ∧
      (∀ r ∈ s.log, r.drain = s.drains → ∀ t, r.item = .timer t → ∀ u ∈ rest, t.key ≤ u.key) ∧
      (∀ c ∈ s.ready, c.born = some s.drains) ∧ ∀ t ∈ s.timers, t.when ≤ now → t.born = some s.drains

structure Inv (s : State) : Prop where
  heap : Heapq.Ordered TimerHandle.key s.timers
  /-- the callbacks run, and then those that wait, are all there have been, in order -/
  queue : (s.ranSoon ++ s.ready).map Callback.id = List.range s.callbacks
  account : Account s.sequence s.cancels s.live s.ranTimers
  early : ∀ r ∈ s.log, ∀ t, r.item = .timer t → t.when ≤ r.time
  cancel_le : ∀ p ∈ s.cancels, p.2 ≤ s.log.length
  cancelled : ∀ p ∈ s.cancels, ∀ r ∈ s.log.drop p.2, ∀ t, r.item = .timer t → t.sequence ≠ p.1
  born : (∀ c ∈ s.ready, ∀ d, c.born = some d → d ≤ s.drains) ∧ ∀ t ∈ s.live, ∀ d, t.born = some d →
    d ≤ s.drains
  later : ∀ r ∈ s.log, r.drain ≤ s.drains ∧ r.item.born ≠ some r.drain
  order : s.log.Pairwise fun a b => a.drain = b.drain → ∀ t u, a.item = .timer t →
    b.item = .timer u → t.key < u.key
  phase : s.PhaseOk s.drain

variable {s s' : State}

theorem birth_le {d : Nat} (h : s.birth = some d) : d ≤ s.drains := by
  unfold birth at h
  cases hdrain : s.drain with
  | none => simp [hdrain] at h
  | some phase =>
    simp [hdrain] at h
    omega

theorem live_eq {p : Option Phase} (hdrain : s.drain = p) (hp : ∀ now rest, p ≠ some (.due now rest)) :
    s.live = s.timers.toList := by
  unfold live due
  rw [hdrain]
  split
  · rename_i now rest
    exact absurd rfl (hp now rest)
  · rfl

namespace Inv

/-! ## Scheduling and cancelling -/

theorem callSoon (hI : s.Inv) :
    ({ s with ready := s.ready ++ [⟨s.callbacks, s.birth⟩], callbacks := s.callbacks + 1 } :
      State).Inv := by
  refine ⟨hI.heap, ?_, hI.account, hI.early, hI.cancel_le, hI.cancelled,
    ⟨fun c hc d hd => ?_, hI.born.2⟩, hI.later,
    hI.order, ?_⟩
  · change (s.ranSoon ++ (s.ready ++ [_])).map Callback.id = List.range (s.callbacks + 1)
    rw [← append_assoc, map_append, hI.queue, range_succ]
    rfl
  · rcases mem_append.1 hc with hc | hc
    · exact hI.born.1 c hc d hd
    · rw [mem_singleton.1 hc] at hd
      exact birth_le hd
  · have hphase := hI.phase
    change State.PhaseOk _ s.drain
    cases hdrain : s.drain with
    | none =>
      rw [hdrain] at hphase
      exact hphase
    | some phase =>
      rw [hdrain] at hphase
      have hbirth : s.birth = some s.drains := by simp [birth, hdrain]
      cases phase with
      | ready n =>
        rcases hphase with ⟨hn, hold, hnew, hnone⟩
        have htake : (s.ready ++ [(⟨s.callbacks, s.birth⟩ : Callback)]).take n = s.ready.take n :=
          take_append_of_le_length hn
        have hdrop : (s.ready ++ [(⟨s.callbacks, s.birth⟩ : Callback)]).drop n =
            s.ready.drop n ++ [⟨s.callbacks, s.birth⟩] :=
          drop_append_of_le_length hn
        refine ⟨?_, fun c hc => hold c (htake ▸ hc), fun c hc => ?_, hnone⟩
        · change n ≤ (s.ready ++ [_]).length
          rw [length_append]
          exact Nat.le_add_right_of_le hn
        · rcases mem_append.1 (hdrop ▸ hc) with hc | hc
          · exact hnew c hc
          · rw [mem_singleton.1 hc]
            exact hbirth
      | due now rest =>
        rcases hphase with ⟨hnow, hrest, hsorted, hran, hready, htimers⟩
        refine ⟨hnow, hrest, hsorted, hran, fun c hc => ?_, htimers⟩
        rcases mem_append.1 hc with hc | hc
        · exact hready c hc
        · rw [mem_singleton.1 hc]
          exact hbirth

theorem phase_heap {heap : Array TimerHandle} {n : Nat} (hI : s.Inv)
    (hheap : s.drain.isSome = true → ∀ t ∈ heap, t ∈ s.timers ∨ t.born = some s.drains) :
    ({ s with timers := heap, sequence := n } : State).PhaseOk s.drain := by
  have hphase := hI.phase
  cases hdrain : s.drain with
  | none =>
    rw [hdrain] at hphase
    exact hphase
  | some phase =>
    rw [hdrain] at hphase
    cases phase with
    | ready n => exact hphase
    | due now rest =>
      rcases hphase with ⟨hnow, hrest, hsorted, hran, hready, htimers⟩
      refine ⟨hnow, hrest, hsorted, hran, hready, fun t ht hwhen => ?_⟩
      rcases hheap (by rw [hdrain]; rfl) t ht with hold | hnew
      · exact htimers t hold hwhen
      · exact hnew

theorem callAt (hI : s.Inv) (when : Int) :
    ({ s with
        timers := Heapq.heappush TimerHandle.key s.timers ⟨when, s.sequence, s.birth⟩
        sequence := s.sequence + 1 } : State).Inv := by
  have hpush := push_perm s.timers ⟨when, s.sequence, s.birth⟩
  have hlive : (s.due ++ (Heapq.heappush TimerHandle.key s.timers ⟨when, s.sequence, s.birth⟩).toList).Perm
      (⟨when, s.sequence, s.birth⟩ :: s.live) := (hpush.append_left s.due).trans perm_middle
  refine ⟨Heapq.heappush_ordered hI.heap _, hI.queue, hI.account.add rfl hlive, hI.early,
    hI.cancel_le, hI.cancelled,
    ⟨hI.born.1, fun t ht d hd => ?_⟩, hI.later, hI.order, hI.phase_heap fun hdrain t ht => ?_⟩
  · rcases mem_cons.1 (hlive.subset ht) with rfl | ht
    · exact birth_le hd
    · exact hI.born.2 t ht d hd
  · rcases mem_cons.1 (hpush.subset (Array.mem_toList_iff.2 ht)) with rfl | ht
    · refine .inr ?_
      rcases Option.isSome_iff_exists.1 hdrain with ⟨phase, hsome⟩
      simp [birth, hsome]
    · exact .inl (Array.mem_toList_iff.1 ht)

theorem cancel (hI : s.Inv) (q : Nat) :
    ({ s with cancels := s.cancels ++ [(q, s.log.length)] } : State).Inv := by
  have hmore : ∀ t, s.cancelled t →
      ({ s with cancels := s.cancels ++ [(q, s.log.length)] } : State).cancelled t :=
    fun t ⟨p, hp, heq⟩ => ⟨p, mem_append_left _ hp, heq⟩
  refine ⟨hI.heap, hI.queue, hI.account.cancel _, hI.early, fun p hp => ?_,
    fun p hp r hr t ht => ?_, hI.born,
    hI.later, hI.order, ?_⟩
  · rcases mem_append.1 hp with hp | hp
    · exact hI.cancel_le p hp
    · exact Nat.le_of_eq (congrArg Prod.snd (mem_singleton.1 hp))
  · rcases mem_append.1 hp with hp | hp
    · exact hI.cancelled p hp r hr t ht
    · rw [mem_singleton.1 hp] at hr
      simp at hr
  · have hphase := hI.phase
    change State.PhaseOk _ s.drain
    cases hdrain : s.drain with
    | none =>
      rw [hdrain] at hphase
      exact hphase
    | some phase =>
      rw [hdrain] at hphase
      cases phase with
      | ready n => exact hphase
      | due now rest =>
        rcases hphase with ⟨hnow, hrest, hother⟩
        exact ⟨hnow, fun t ht => ⟨(hrest t ht).1, fun hb => hmore t ((hrest t ht).2 hb)⟩, hother⟩

theorem tick (hI : s.Inv) (d : Nat) : ({ s with clock := s.clock + d } : State).Inv := by
  refine ⟨hI.heap, hI.queue, hI.account, hI.early, hI.cancel_le, hI.cancelled,
    hI.born, hI.later, hI.order, ?_⟩
  have hphase := hI.phase
  change State.PhaseOk _ s.drain
  cases hdrain : s.drain with
  | none =>
    rw [hdrain] at hphase
    exact hphase
  | some phase =>
    rw [hdrain] at hphase
    cases phase with
    | ready n => exact hphase
    | due now rest =>
      rcases hphase with ⟨hnow, hother⟩
      refine ⟨?_, hother⟩
      change now ≤ s.clock + d
      omega

theorem prune {t u : TimerHandle} {heap : Array TimerHandle} (hI : s.Inv) (hhead : s.timers[0]? = some t)
    (hcancelled : s.cancelled t) (hpop : Heapq.heappop TimerHandle.key s.timers = some (u, heap)) :
    ({ s with timers := heap } : State).Inv := by
  rcases Heapq.heappop_spec hI.heap hpop with ⟨hord, hperm, hmin⟩
  rcases Array.getElem?_eq_some_iff.1 hhead with ⟨hpos, hget⟩
  have hperm' : s.timers.toList.Perm (u :: heap.toList) := by
    have hpush := hperm.toList
    simp only [Array.toList_push] at hpush
    exact hpush.symm.trans (perm_append_singleton u heap.toList)
  have hu : u ∈ s.timers := Array.mem_toList_iff.1 (hperm'.symm.subset (mem_cons_self ..))
  have hkey : t.key = u.key := by
    rcases Array.getElem_of_mem hu with ⟨i, hi, hui⟩
    have hle : t.key ≤ u.key := by
      rw [← hget, ← hui]
      exact hI.heap.root_le hpos i hi
    exact le_antisymm hle (hmin t (Array.mem_of_getElem? hhead))
  have hseq : t.sequence = u.sequence := congrArg (fun p : Int ×ₗ Nat => (ofLex p).2) hkey
  have hlive : s.live.Perm (u :: (s.due ++ heap.toList)) := (hperm'.append_left s.due).trans perm_middle
  have hsub : ∀ v ∈ heap, v ∈ s.timers := fun v hv =>
    Array.mem_toList_iff.1 (hperm'.symm.subset (mem_cons_of_mem _ (Array.mem_toList_iff.2 hv)))
  refine ⟨hord, hI.queue, hI.account.drop hlive (hseq ▸ hcancelled), hI.early, hI.cancel_le, hI.cancelled,
    ⟨hI.born.1, fun v hv => hI.born.2 v (hlive.symm.subset (mem_cons_of_mem _ hv))⟩, hI.later, hI.order,
    hI.phase_heap (n := s.sequence) fun _ v hv => .inl (hsub v hv)⟩

/-! ## The drain -/

theorem begin (hI : s.Inv) (hdrain : s.drain = none) :
    ({ s with drain := some (.ready s.ready.length), drains := s.drains + 1 } : State).Inv := by
  have hlive : s.live = s.timers.toList := live_eq hdrain (by simp)
  have hrun : s.running = false := by
    have hphase := hI.phase
    rw [hdrain] at hphase
    exact hphase
  refine ⟨hI.heap, hI.queue, ?_, hI.early, hI.cancel_le, hI.cancelled,
    ⟨fun c hc d hd => ?_, fun t ht d hd => ?_⟩,
    fun r hr => ?_, hI.order, Nat.le_refl _, fun c hc => ?_, fun c hc => ?_, fun r hr hlast => ?_⟩
  · change Account s.sequence s.cancels s.timers.toList s.ranTimers
    rw [← hlive]
    exact hI.account
  · exact Nat.le_succ_of_le (hI.born.1 c hc d hd)
  · change t ∈ s.timers.toList at ht
    rw [← hlive] at ht
    exact Nat.le_succ_of_le (hI.born.2 t ht d hd)
  · exact ⟨Nat.le_succ_of_le (hI.later r hr).1, (hI.later r hr).2⟩
  · intro heq
    have hle := hI.born.1 c (mem_of_mem_take hc) _ heq
    change s.drains + 1 ≤ s.drains at hle
    omega
  · change c ∈ s.ready.drop s.ready.length at hc
    rw [drop_length] at hc
    cases hc
  · have hle := (hI.later r hr).1
    change r.drain = s.drains + 1 at hlast
    omega

theorem pop {n : Nat} {c : Callback} {rest : List Callback} (hI : s.Inv)
    (hdrain : s.drain = some (.ready (n + 1)))
    (hready : s.ready = c :: rest) :
    (({ s with ready := rest, drain := some (.ready n) } : State).call (.soon c)).Inv := by
  have hphase := hI.phase
  rw [hdrain] at hphase
  rcases hphase with ⟨hn, hold, hnew, hnone⟩
  rw [hready] at hn hold hnew
  have hlive : s.live = s.timers.toList := live_eq hdrain (by simp)
  have hborn : c.born ≠ some s.drains := hold c (mem_cons_self ..)
  refine ⟨hI.heap, ?_, ?_, fun r hr t ht => ?_, fun p hp => ?_, fun p hp r hr t ht => ?_,
    ⟨fun c' hc' => ?_, fun t ht => ?_⟩, fun r hr => ?_, ?_, ?_, ?_, ?_, fun r hr hlast => ?_⟩
  · have hqueue := hI.queue
    rw [hready] at hqueue
    simpa [call, ranSoon, Item.soon?] using hqueue
  · have haccount := hI.account
    rw [hlive] at haccount
    simpa [call, ranTimers, Item.timer?, live, due] using haccount
  · rcases mem_append.1 hr with hr | hr
    · exact hI.early r hr t ht
    · rw [mem_singleton.1 hr] at ht
      cases ht
  · refine Nat.le_trans (hI.cancel_le p hp) ?_
    exact length_append ▸ Nat.le_add_right ..
  · have hdrop : (s.log ++ [(⟨.soon c, s.clock, s.drains⟩ : Run)]).drop p.2 =
        s.log.drop p.2 ++ [⟨.soon c, s.clock, s.drains⟩] :=
      drop_append_of_le_length (hI.cancel_le p hp)
    rcases mem_append.1 (hdrop ▸ hr) with hr | hr
    · exact hI.cancelled p hp r hr t ht
    · rw [mem_singleton.1 hr] at ht
      cases ht
  · exact hI.born.1 c' (hready ▸ mem_cons_of_mem _ hc')
  · exact hI.born.2 t (hlive ▸ ht)
  · rcases mem_append.1 hr with hr | hr
    · exact hI.later r hr
    · rw [mem_singleton.1 hr]
      exact ⟨Nat.le_refl _, hborn⟩
  · refine pairwise_append.2 ⟨hI.order, pairwise_singleton _ _, fun a _ b hb _ t u _ hu => ?_⟩
    rw [mem_singleton.1 hb] at hu
    cases hu
  · exact Nat.le_of_succ_le_succ hn
  · exact fun c' hc' => hold c' (mem_cons_of_mem _ hc')
  · exact hnew
  · rcases mem_append.1 hr with hr | hr
    · exact hnone r hr hlast
    · rw [mem_singleton.1 hr]
      rfl

theorem collect (hI : s.Inv) (hdrain : s.drain = some (.ready 0)) (hok : s.Timely .collect) :
    ({ s with
        timers := (popDue s.clock s.timers.size s.timers).2
        drain := some (.due s.clock (popDue s.clock s.timers.size s.timers).1) } : State).Inv := by
  have hphase := hI.phase
  rw [hdrain] at hphase
  rcases hphase with ⟨-, -, hnew, hnone⟩
  have hT := popDue_taken s.clock s.timers.size s.timers hI.heap (Nat.le_refl _)
  have hlive : s.live = s.timers.toList := live_eq hdrain (by simp)
  generalize popDue s.clock s.timers.size s.timers = r at hT
  refine ⟨hT.ordered, hI.queue, ?_, hI.early, hI.cancel_le, hI.cancelled,
    ⟨hI.born.1, fun t ht => ?_⟩, hI.later,
    hI.order, Int.le_refl _, fun t ht => ⟨hT.early t ht, ?_⟩, hT.sorted, fun r hr hlast t ht => ?_, hnew,
    fun t ht hwhen => ?_⟩
  · have haccount := hI.account
    rw [hlive] at haccount
    exact haccount.perm (hT.perm.append_right _)
  · exact hI.born.2 t (hlive ▸ hT.perm.subset ht)
  · have hmem : t ∈ s.timers := Array.mem_toList_iff.1 (hT.perm.subset (mem_append_left _ ht))
    exact hok t hmem (hT.early t ht)
  · have htimer := hnone r hr hlast
    rw [ht] at htimer
    cases htimer
  · exact absurd hwhen (Int.not_le.2 (hT.late t ht))

theorem skip {now : Int} {t : TimerHandle} {rest : List TimerHandle} (hI : s.Inv)
    (hdrain : s.drain = some (.due now (t :: rest))) (hcancelled : s.cancelled t) :
    ({ s with drain := some (.due now rest) } : State).Inv := by
  have hphase := hI.phase
  rw [hdrain] at hphase
  rcases hphase with ⟨hnow, hrest, hsorted, hran, hready, htimers⟩
  have hlive : s.live = t :: (rest ++ s.timers.toList) := by simp [live, due, hdrain]
  refine ⟨hI.heap, hI.queue, ?_, hI.early, hI.cancel_le, hI.cancelled,
    ⟨hI.born.1, fun u hu => ?_⟩, hI.later,
    hI.order, hnow, fun u hu => hrest u (mem_cons_of_mem _ hu), (pairwise_cons.1 hsorted).2,
    fun r hr hlast u hu v hv => hran r hr hlast u hu v (mem_cons_of_mem _ hv), hready, htimers⟩
  · exact hI.account.drop (t := t) (by rw [hlive]; exact List.Perm.refl _) hcancelled
  · exact hI.born.2 u (hlive ▸ mem_cons_of_mem _ hu)

theorem fire {now : Int} {t : TimerHandle} {rest : List TimerHandle} (hI : s.Inv)
    (hdrain : s.drain = some (.due now (t :: rest))) (hnot : ¬ s.cancelled t) :
    (({ s with drain := some (.due now rest) } : State).call (.timer t)).Inv := by
  have hphase := hI.phase
  rw [hdrain] at hphase
  rcases hphase with ⟨hnow, hrest, hsorted, hran, hready, htimers⟩
  have hlive : s.live = t :: (rest ++ s.timers.toList) := by simp [live, due, hdrain]
  have ht := hrest t (mem_cons_self ..)
  have hborn : t.born ≠ some s.drains := fun heq => hnot (ht.2 heq)
  have hfirst := (pairwise_cons.1 hsorted).1
  have hmem : t ∈ s.live := by
    rw [hlive]
    exact mem_cons_self ..
  refine ⟨hI.heap, ?_, ?_, fun r hr u hu => ?_, fun p hp => ?_, fun p hp r hr u hu => ?_,
    ⟨hI.born.1, fun u hu => ?_⟩, fun r hr => ?_, ?_, hnow, fun u hu => hrest u (mem_cons_of_mem _ hu),
    (pairwise_cons.1 hsorted).2, fun r hr hlast u hu v hv => ?_, hready, htimers⟩
  · simpa [call, ranSoon, Item.soon?] using hI.queue
  · have hperm : s.live.Perm (t :: (rest ++ s.timers.toList)) := by rw [hlive]
    have hrun := hI.account.run hperm
    simpa [call, ranTimers, Item.timer?, live, due] using hrun
  · rcases mem_append.1 hr with hr | hr
    · exact hI.early r hr u hu
    · rw [mem_singleton.1 hr] at hu ⊢
      cases hu
      exact Int.le_trans ht.1 hnow
  · refine Nat.le_trans (hI.cancel_le p hp) ?_
    exact length_append ▸ Nat.le_add_right ..
  · have hdrop : (s.log ++ [(⟨.timer t, s.clock, s.drains⟩ : Run)]).drop p.2 =
        s.log.drop p.2 ++ [⟨.timer t, s.clock, s.drains⟩] := drop_append_of_le_length (hI.cancel_le p hp)
    rcases mem_append.1 (hdrop ▸ hr) with hr | hr
    · exact hI.cancelled p hp r hr u hu
    · rw [mem_singleton.1 hr] at hu
      cases hu
      exact fun heq => hnot ⟨p, hp, heq.symm⟩
  · exact hI.born.2 u (hlive ▸ mem_cons_of_mem _ hu)
  · rcases mem_append.1 hr with hr | hr
    · exact hI.later r hr
    · rw [mem_singleton.1 hr]
      exact ⟨Nat.le_refl _, hborn⟩
  · refine pairwise_append.2 ⟨hI.order, pairwise_singleton _ _, fun a ha b hb hsame u v hu hv => ?_⟩
    rw [mem_singleton.1 hb] at hsame hv
    cases hv
    refine key_lt (hran a ha hsame u hu t (mem_cons_self ..)) (hI.account.not_ran hmem ?_)
    exact mem_filterMap.2 ⟨a, ha, by rw [hu]; rfl⟩
  · rcases mem_append.1 hr with hr | hr
    · exact hran r hr hlast u hu v (mem_cons_of_mem _ hv)
    · rw [mem_singleton.1 hr] at hu
      cases hu
      exact hfirst v hv

theorem leave {heap : Array TimerHandle} (hI : s.Inv) (hheap : Heapq.Ordered TimerHandle.key heap)
    (hperm : heap.toList.Perm s.live) :
      ({ s with timers := heap, drain := none, running := false } : State).Inv :=
  ⟨hheap, hI.queue, hI.account.perm (hperm.append_right _), hI.early, hI.cancel_le, hI.cancelled,
    ⟨hI.born.1, fun t ht => hI.born.2 t (hperm.subset ht)⟩, hI.later, hI.order, rfl⟩

theorem back (hI : s.Inv) (hdrain : s.drain.isSome = true) : ({ s with running := false } : State).Inv := by
  refine ⟨hI.heap, hI.queue, hI.account, hI.early, hI.cancel_le, hI.cancelled,
    hI.born, hI.later, hI.order, ?_⟩
  have hphase := hI.phase
  change State.PhaseOk _ s.drain
  cases hd : s.drain with
  | none =>
    rw [hd] at hdrain
    cases hdrain
  | some phase =>
    rw [hd] at hphase
    cases phase with
    | ready n => exact hphase
    | due now rest => exact hphase

theorem step {a : Action} (hI : s.Inv) (hok : s.Timely a) (hs : step s a = some s') : s'.Inv := by
  cases a with
  | callSoon =>
    cases hs
    exact hI.callSoon
  | callAt when =>
    cases hs
    exact hI.callAt when
  | cancel q =>
    simp only [Timers.step] at hs
    split_ifs at hs
    cases hs
    exact hI.cancel q
  | tick d =>
    cases hs
    exact hI.tick d
  | prune =>
    simp only [Timers.step] at hs
    split at hs
    · rename_i t hhead
      split_ifs at hs with hcancelled
      rcases Option.map_eq_some_iff.1 hs with ⟨r, hpop, rfl⟩
      exact hI.prune hhead hcancelled hpop
    · cases hs
  | begin =>
    simp only [Timers.step] at hs
    split at hs
    · rename_i hdrain
      cases hs
      exact hI.begin hdrain
    · cases hs
  | pop =>
    simp only [Timers.step] at hs
    split at hs
    · rename_i n hdrain hrunning
      split at hs
      · rename_i hready
        have hphase := hI.phase
        rw [hdrain] at hphase
        have hle := hphase.1
        simp [hready] at hle
      · rename_i c rest hready
        cases hs
        exact hI.pop hdrain hready
    · cases hs
  | collect =>
    simp only [Timers.step] at hs
    split at hs
    · rename_i hdrain hrunning
      cases hs
      exact hI.collect hdrain hok
    · cases hs
  | fire =>
    simp only [Timers.step] at hs
    split at hs
    · rename_i now t rest hdrain hrunning
      split_ifs at hs with hcancelled
      · cases hs
        exact hI.skip hdrain hcancelled
      · cases hs
        exact hI.fire hdrain hcancelled
    · cases hs
  | back =>
    simp only [Timers.step] at hs
    split_ifs at hs with hrunning
    cases hs
    refine hI.back ?_
    cases hdrain : s.drain with
    | none =>
      have hphase := hI.phase
      rw [hdrain] at hphase
      rw [show s.running = false from hphase] at hrunning
      cases hrunning
    | some phase => rfl
  | raise =>
    simp only [Timers.step] at hs
    split at hs
    · rename_i n hdrain hrunning
      cases hs
      refine hI.leave hI.heap ?_
      rw [live_eq hdrain (by simp)]
    · rename_i now rest hdrain hrunning
      cases hs
      refine hI.leave (pushAll_ordered hI.heap rest) ?_
      have hlive : s.live = rest ++ s.timers.toList := by simp [live, due, hdrain]
      rw [hlive]
      exact pushAll_perm s.timers rest
    · cases hs
  | finish =>
    simp only [Timers.step] at hs
    split at hs
    · rename_i now hdrain hrunning
      cases hs
      have hlive : s.live = s.timers.toList := by simp [live, due, hdrain]
      have hleave := hI.leave hI.heap (by rw [hlive])
      rw [← hrunning] at hleave
      exact hleave
    · cases hs

theorem init : init.Inv where
  heap := by simp [Timers.init, Heapq.Ordered]
  queue := rfl
  account := ⟨nodup_nil, nofun, nofun⟩
  early := nofun
  cancel_le := nofun
  cancelled := nofun
  born := ⟨nofun, nofun⟩
  later := nofun
  order := List.Pairwise.nil
  phase := rfl

end Inv

/-! ## What is promised -/

structure Sound (s : State) : Prop where
  once : (s.log.map Run.item).Nodup
  /-- no timer before its deadline -/
  early : ∀ r ∈ s.log, ∀ t, r.item = .timer t → t.when ≤ r.time
  /-- nothing that has been cancelled is run afterwards -/
  cancelled : ∀ p ∈ s.cancels, ∀ r ∈ s.log.drop p.2, ∀ t, r.item = .timer t → t.sequence ≠ p.1
  /-- callbacks run in the order in which they were scheduled -/
  fifo : (s.ranSoon.map Callback.id).Pairwise (· < ·)
  /-- timers of one drain run in the order of their deadlines, then of their creation -/
  order : s.log.Pairwise fun a b => a.drain = b.drain → ∀ t u, a.item = .timer t →
    b.item = .timer u → t.key < u.key
  /-- what is scheduled during a drain is not run by it -/
  later : ∀ r ∈ s.log, r.item.born ≠ some r.drain
  /-- nothing is lost: a callback has run or waits -/
  soon : ∀ id < s.callbacks, ∃ c ∈ s.ranSoon ++ s.ready, c.id = id
  /-- a timer has run, waits, or has been cancelled; with no drain going on it waits on the heap -/
  timer : ∀ q < s.sequence, (∃ t ∈ s.live ++ s.ranTimers, t.sequence = q) ∨ ∃ p ∈ s.cancels, p.1 = q
  rest : s.drain = none → s.live = s.timers.toList
  /-- a drain that is not cut short leaves nothing that was scheduled before it and is due -/
  complete : ∀ now, s.drain = some (.due now []) →
    (∀ c ∈ s.ready, c.born = some s.drains) ∧ ∀ t ∈ s.timers, t.when ≤ now → t.born = some s.drains

theorem nodup_log : ∀ (log : List Run), ((log.filterMap fun r => r.item.soon?).map Callback.id).Nodup →
    ((log.filterMap fun r => r.item.timer?).map TimerHandle.sequence).Nodup → (log.map Run.item).Nodup := by
  intro log
  induction log with
  | nil =>
    intro _ _
    exact nodup_nil
  | cons r log ih =>
    intro hsoon htimer
    cases hitem : r.item with
    | soon c =>
      simp only [filterMap_cons, hitem, Item.soon?, Item.timer?, map_cons, nodup_cons] at hsoon htimer ⊢
      refine ⟨fun hmem => hsoon.1 ?_, ih hsoon.2 htimer⟩
      rcases mem_map.1 hmem with ⟨r', hr', heq⟩
      exact mem_map.2 ⟨c, mem_filterMap.2 ⟨r', hr', by rw [heq]⟩, rfl⟩
    | timer t =>
      simp only [filterMap_cons, hitem, Item.soon?, Item.timer?, map_cons, nodup_cons] at hsoon htimer ⊢
      refine ⟨fun hmem => htimer.1 ?_, ih hsoon htimer.2⟩
      rcases mem_map.1 hmem with ⟨r', hr', heq⟩
      exact mem_map.2 ⟨t, mem_filterMap.2 ⟨r', hr', by rw [heq]⟩, rfl⟩

theorem Inv.sound (hI : s.Inv) : s.Sound where
  once := by
    refine nodup_log s.log ?_ ?_
    · have hnodup : (List.range s.callbacks).Nodup := nodup_range
      rw [← hI.queue, map_append] at hnodup
      exact (nodup_append.1 hnodup).1
    · have hnodup := hI.account.nodup
      rw [map_append] at hnodup
      exact (nodup_append.1 hnodup).2.1
  early := hI.early
  cancelled := hI.cancelled
  fifo := by
    have hpairwise : (List.range s.callbacks).Pairwise (· < ·) := pairwise_lt_range
    rw [← hI.queue, map_append] at hpairwise
    exact (pairwise_append.1 hpairwise).1
  order := hI.order
  later := fun r hr => (hI.later r hr).2
  soon := fun id hid => by
    have hmem : id ∈ (s.ranSoon ++ s.ready).map Callback.id := by
      rw [hI.queue]
      exact mem_range.2 hid
    exact mem_map.1 hmem
  timer := hI.account.kept
  rest := fun hdrain => live_eq hdrain (by simp)
  complete := fun now hdrain => by
    have hphase := hI.phase
    rw [hdrain] at hphase
    rcases hphase with ⟨-, -, -, -, hready, htimers⟩
    exact ⟨hready, htimers⟩

end State

/-! ## Runs -/

theorem callbacks_and_timers (as : List Action) (hok : Along step State.Timely init as) :
    Always step State.Sound init as :=
  always_of_along (fun _ hI => hI.sound) (fun _ _ _ hI hC hs => hI.step hC hs) as init State.Inv.init hok

/-- Two timers are due; the first raises, and the second runs in the next drain. -/
def raisingTimer : List Action :=
  [.callAt 1, .callAt 0, .tick 2, .begin, .collect, .fire, .callAt 0, .raise, .begin,
    .collect, .fire, .back, .fire,
    .back, .finish]

theorem callbacks_and_timers_raisingTimer : Played step (Always step State.Sound) init raisingTimer :=
  ⟨callbacks_and_timers raisingTimer (by decide), by decide⟩

/-- A callback of `call_soon` calls `call_later(0)`, and the drain that runs the callback runs the
timer. -/
def timerFromCallback : List Action :=
  [.callSoon, .begin, .pop, .callAt 0, .back, .collect, .fire]

theorem timer_from_callback_not_later :
    ∃ s, exec step init timerFromCallback = some s ∧ ¬ s.Sound := by
  refine ⟨_, rfl, fun hsound => ?_⟩
  have hlater := hsound.later ⟨.timer ⟨0, 0, some 1⟩, 0, 1⟩ (by decide)
  exact hlater rfl

end Pytealet.Scheduler.Timers
