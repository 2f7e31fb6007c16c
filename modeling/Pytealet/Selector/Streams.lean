import Pytealet.Selector.StreamView

/-!
# Selector.Streams — the deliveries of a stream are numbered, and one of them is the end

`Stage h` says where a stream stands.  It waits in the table; one of its deliveries is being made;
or it has been taken out, and its end is about to be delivered.  A stream goes through these stages
as long as nothing disturbs it: `poll_many` advances `_next_index` only after its callback has
returned, so another step or a stop from inside the callback uses the same index again, and
`recv_many` and `accept_many` are taken out of the table only after the callback of their one
delivery.
-/

namespace Pytealet.Selector

open Lib Lib.Transition List

/-- The deliveries of a stream that goes on; `next` is its next index. -/
abbrev Handle.Going (h : Handle) (next : Nat) (ds : List Delivery) : Prop :=
  Ordinal.Going Delivery.index Delivery.more h.op.baseSequence next ds

abbrev Handle.Over (h : Handle) (ds : List Delivery) : Prop :=
  Ordinal.Over Delivery.index Delivery.more h.op.baseSequence ds

inductive Stage (h : Handle) : View → Prop
  /-- not submitted yet, or refused -/
  | new {n : Nat} : Stage h ⟨false, [], false, n, []⟩
  | live {a : Bool} {n : Nat} {ds : List Delivery} :
      h.Going n ds → (h.op.repeats = false → ds = []) → Stage h ⟨a, [], true, n, ds⟩
  /-- `poll_many`'s callback runs -/
  | delivering {a : Bool} {n : Nat} {ds : List Delivery} :
      h.Going (n + 1) ds → h.op.repeats = true →
        Stage h ⟨a, [.advance h n, .streamTail h false], true, n, ds⟩
  | advanced {a : Bool} {n : Nat} {ds : List Delivery} :
      h.Going n ds → h.op.repeats = true → Stage h ⟨a, [.streamTail h false], true, n, ds⟩
  /-- the callback of the only delivery runs, or has returned -/
  | delivered {a : Bool} {n : Nat} {ds : List Delivery} :
      h.Over ds → Stage h ⟨a, [.streamTail h true], true, n, ds⟩
  | failing {a : Bool} {n : Nat} {ds : List Delivery} :
      h.Going n ds → Stage h ⟨a, [.failStream h], true, n, ds⟩
  | stopping {a : Bool} {n : Nat} {ds : List Delivery} :
      h.Going n ds → Stage h ⟨a, [.stopTail h true], false, n, ds⟩
  | ending {a : Bool} {n : Nat} {ds : List Delivery} :
      h.Going n ds → Stage h ⟨a, [.endStream h], false, n, ds⟩
  | ended {a : Bool} {n : Nat} {ds : List Delivery} :
      h.Over ds → Stage h ⟨a, [], false, n, ds⟩

namespace Stage

variable {h : Handle} {a held : Bool} {n i : Nat} {ds : List Delivery} {own : List Frame}

theorem of_advance (hs : Stage h ⟨a, .advance h i :: own, held, n, ds⟩) :
    i = n ∧ own = [.streamTail h false] ∧ held = true ∧ h.Going (n + 1) ds ∧ h.op.repeats = true := by
  cases hs with
  | delivering hgoing hrepeats => exact ⟨rfl, rfl, rfl, hgoing, hrepeats⟩

theorem of_streamTail_false (hs : Stage h ⟨a, .streamTail h false :: own, held, n, ds⟩) :
    own = [] ∧ held = true ∧ h.Going n ds ∧ h.op.repeats = true := by
  cases hs with
  | advanced hgoing hrepeats => exact ⟨rfl, rfl, hgoing, hrepeats⟩

theorem of_streamTail_true (hs : Stage h ⟨a, .streamTail h true :: own, held, n, ds⟩) :
    own = [] ∧ held = true ∧ h.Over ds := by
  cases hs with
  | delivered hover => exact ⟨rfl, rfl, hover⟩

theorem of_failStream (hs : Stage h ⟨a, .failStream h :: own, held, n, ds⟩) :
    own = [] ∧ held = true ∧ h.Going n ds := by
  cases hs with
  | failing hgoing => exact ⟨rfl, rfl, hgoing⟩

theorem of_stopTail (hs : Stage h ⟨a, .stopTail h true :: own, held, n, ds⟩) :
    own = [] ∧ held = false ∧ h.Going n ds := by
  cases hs with
  | stopping hgoing => exact ⟨rfl, rfl, hgoing⟩

theorem of_mem_endStream {v : View} (hs : Stage h v) (hmem : .endStream h ∈ v.own) :
    v.own = [.endStream h] ∧ v.held = false ∧ h.Going v.next v.deliveries := by
  cases hs with
  | ending hgoing => exact ⟨rfl, rfl, hgoing⟩
  | _ => simp at hmem

end Stage

namespace State

structure StreamInv (s : State) : Prop where
  stage : ∀ h, h.op.stream = true → Stage h (s.view h)
  fresh : ∀ h, h.op.stream = true → s.count ≤ h.id → ∃ n, s.view h = ⟨false, [], false, n, []⟩
  queue : s.QueueFree

namespace StreamInv

variable {s s' : State} {h : Handle}

theorem apart (hI : s.StreamInv) (ha : Apart none s s') : s'.StreamInv where
  stage := by
    intro h hstream
    rw [ha.view h hstream nofun]
    exact hI.stage h hstream
  fresh := by
    intro h hstream hle
    rw [ha.view h hstream nofun]
    exact hI.fresh h hstream (Nat.le_trans ha.count hle)
  queue := ha.queue hI.queue

theorem advance (hI : s.StreamInv) (ha : Apart (some h) s s') (hlt : h.id < s'.count)
    (hstage : h.op.stream = true → Stage h (s'.view h)) : s'.StreamInv where
  stage := by
    intro k hstream
    by_cases hk : h = k
    · subst hk
      exact hstage hstream
    · rw [ha.view k hstream (by simpa using hk)]
      exact hI.stage k hstream
  fresh := by
    intro k hstream hle
    have hk : h ≠ k := by
      rintro rfl
      omega
    rw [ha.view k hstream (by simpa using hk)]
    exact hI.fresh k hstream (Nat.le_trans ha.count hle)
  queue := ha.queue hI.queue

theorem lt_of_own (hI : s.StreamInv) (hstream : h.op.stream = true) (hown : s.own h ≠ []) :
    h.id < s.count := by
  by_contra hge
  rcases hI.fresh h hstream (Nat.le_of_not_lt hge) with ⟨n, hview⟩
  exact hown (congrArg View.own hview)

theorem lt_of_held (hI : s.StreamInv) (hstream : h.op.stream = true) (hin : s.inTable h) :
    h.id < s.count := by
  by_contra hge
  rcases hI.fresh h hstream (Nat.le_of_not_lt hge) with ⟨n, hview⟩
  have hheld : decide (s.inTable h) = false := congrArg View.held hview
  simp [hin] at hheld

end StreamInv

/-! ## Views after a change -/

theorem view_push (s : State) (h : Handle) (fs : List Frame) :
    (s.push fs).view h = { s.view h with own := fs.filter (fun f => f.stream = some h) ++ s.own h } := by
  rw [view, own_push]
  rfl

theorem view_emit (s : State) (h : Handle) (d : Delivery) :
    (s.emit h d).view h = { s.view h with deliveries := s.deliveries h ++ [d] } := by
  simp only [view, emit, Function.update_self]
  rfl

theorem view_deliver {s : State} {h : Handle} {d : Delivery} {fs : List Frame} (hown : s.own h = [])
    (hin : s.inTable h) : ((s.emit h d).push fs).view h =
      ⟨s.accepted h, fs.filter fun f => f.stream = some h, true, s.nextIndex h, s.deliveries h ++ [d]⟩ := by
  have hown' : (s.emit h d).own h = [] := hown
  rw [view_push, view_emit, hown', append_nil]
  simp [view, hin]

theorem view_removeHandle {s : State} {h : Handle} {k : Bool → List Frame} (hin : s.inTable h) :
    (s.removeHandle h k).view h =
      { s.view h with own := (k true).filter (fun f => f.stream = some h) ++ s.own h, held := false } := by
  rcases removeHandle_cases s h k with ⟨hnot, -⟩ | ⟨e, hslot, -, heq⟩
  · exact absurd hin hnot
  · have hout : ¬ ({ s with table := s.table.clear e h } : State).inTable h := by
      change ¬ ((s.table.clear e h).entryAt h.fd).Has h
      rw [show (s.table.clear e h).entryAt = _ from Table.entryAt_shrink hslot, Function.update_self]
      exact Entry.not_has_clear
    rw [heq, view_push]
    have hdrain : ((if (s.table.entryAt h.fd).writer = some h then [Frame.drain e] else []) ++
        Frame.removeTail h.fd :: k true).filter (fun f => f.stream = some h) =
          (k true).filter fun f => f.stream = some h := by
      split_ifs <;> simp [Frame.stream]
    rw [hdrain]
    simp only [view, hout]
    rfl

theorem removeHandle_of_not_in {s : State} {h : Handle} {k : Bool → List Frame} (hout : ¬ s.inTable h) :
    s.removeHandle h k = s.push (k false) := by
  rcases removeHandle_cases s h k with ⟨-, heq⟩ | ⟨e, -, hhas, -⟩
  · exact heq
  · exact absurd hhas hout

variable {st : List Frame}

theorem own_pop {s : State} {h : Handle} {f : Frame} (hstack : s.stack = f :: st)
    (hf : f.stream = some h) : s.own h = f :: ({ s with stack := st } : State).own h := by
  simp [own, frames, hstack, hf]

/-! ## What keeps a stream undisturbed -/

/-- A step of the stream is in progress. -/
def stepping (s : State) (h : Handle) : Prop :=
  ∃ f ∈ s.frames, f.steps = some h

instance (s : State) (h : Handle) : Decidable (s.stepping h) :=
  inferInstanceAs (Decidable (∃ f ∈ s.frames, f.steps = some h))

/-- The handle in the slot an event is for. -/
def slot (s : State) (fd : Nat) : Event → Option Handle
  | .read => (s.table.entryAt fd).reader
  | .write => (s.table.entryAt fd).writer

/-- No step of a stream delivers, and no stop is made, from inside a callback of that stream's own
step, and no exception takes away a frame of a stream. -/
def Undisturbed (s : State) : Action → Prop
  | .stop h => ¬ s.stepping h
  | .ready fd event t _ =>
    match s.slot fd event with
    | some h => t.outcome ≠ .blocked → ¬ s.stepping h
    | none => True
  | .throw e => Undamaged e s.stack.tail
  | .go _ fails =>
    match s.stack with
    | .removeTail fd :: st => (s.updateSelectorRegistration fd fails).2 = true → Undamaged .os st
    | .streamTail h _ :: st => (s.updateSelectorRegistration h.fd fails).2 = true → Undamaged .os st
    | _ => True
  | _ => True

instance (s : State) (a : Action) : Decidable (s.Undisturbed a) := by
  induction a using Action.casesOn with
  | ready fd event t fails =>
    dsimp only [Undisturbed]
    generalize s.slot fd event = o
    induction o using Option.casesOn <;> exact inferInstance
  | go t fails =>
    dsimp only [Undisturbed]
    generalize s.stack = stack
    induction stack using List.casesOn with
    | nil => exact instDecidableTrue
    | cons f st => induction f using Frame.casesOn <;> exact inferInstance
  | _ =>
    dsimp only [Undisturbed]
    exact inferInstance

namespace StreamInv

variable {s s' : State} {h : Handle}

theorem live_of_held (hI : s.StreamInv) (hstream : h.op.stream = true) (hin : s.inTable h)
    (hidle : ¬ s.stepping h) :
    s.own h = [] ∧ h.Going (s.nextIndex h) (s.deliveries h) ∧
      (h.op.repeats = false → s.deliveries h = []) := by
  have hstage := hI.stage h hstream
  have hstep : ∀ f, f.steps = some h → f ∉ s.own h := fun f hf hmem =>
    hidle ⟨f, (mem_filter.1 hmem).1, hf⟩
  generalize hv : s.view h = v at hstage
  have hown : s.own h = v.own := congrArg View.own hv
  have hheld : decide (s.inTable h) = v.held := congrArg View.held hv
  have hnext : s.nextIndex h = v.next := congrArg View.next hv
  have hds : s.deliveries h = v.deliveries := congrArg View.deliveries hv
  rw [hown] at hstep
  simp only [hin, decide_true] at hheld
  rw [hown, hnext, hds]
  cases hstage with
  | live hgoing hone => exact ⟨rfl, hgoing, hone⟩
  | delivering hgoing hrepeats => exact absurd (mem_cons_self ..) (hstep (.advance h _) rfl)
  | advanced hgoing hrepeats => exact absurd (mem_cons_self ..) (hstep (.streamTail h _) rfl)
  | delivered hover => exact absurd (mem_cons_self ..) (hstep (.streamTail h _) rfl)
  | failing hgoing => exact absurd (mem_cons_self ..) (hstep (.failStream h) rfl)
  | _ => cases hheld

theorem stepContinuous (hI : s.StreamInv) (hcall : s.callable = true) (hstream : h.op.stream = true)
    (hin : s.inTable h) (t : Try) (fails : Bool) (hidle : t.outcome ≠ .blocked → ¬ s.stepping h) :
    (s.stepContinuous h t fails).StreamInv := by
  have hlt := hI.lt_of_held hstream hin
  have hlast : h.op.repeats = false → ¬ s.stepping h →
      ((s.emit h ⟨h.op.baseSequence, false⟩).push [.user, .streamTail h true]).StreamInv := by
    intro hrepeats hidle
    rcases hI.live_of_held hstream hin hidle with ⟨hown, hgoing, hone⟩
    have hnext : s.nextIndex h = h.op.baseSequence := by
      have hnext := hgoing.next_eq
      rw [hone hrepeats] at hnext
      exact hnext
    refine hI.advance ((apart_emit _).trans (apart_push (by simp [Frame.stream]))) hlt fun _ => ?_
    rw [view_deliver hown hin]
    simpa [Frame.stream] using Stage.delivered (a := s.accepted h) (n := s.nextIndex h)
      (hgoing.close (d := ⟨h.op.baseSequence, false⟩) hnext.symm rfl)
  unfold State.stepContinuous
  cases hout : t.outcome with
  | blocked => exact hI.apart (apart_update fun _ => undamaged_of_callable hcall)
  | finished =>
    have hidle' := hidle (by simp [hout])
    simp only
    split
    · rename_i fd m hop
      rcases hI.live_of_held hstream hin hidle' with ⟨hown, hgoing, -⟩
      refine hI.advance ((apart_emit _).trans (apart_push (by simp [Frame.stream]))) hlt fun _ => ?_
      rw [view_deliver hown hin]
      simpa [Frame.stream] using Stage.delivering (a := s.accepted h)
        (hgoing.push (d := ⟨s.nextIndex h, true⟩) rfl rfl) (by simp [hop, Op.repeats])
    · rename_i hop
      refine hlast ?_ hidle'
      cases hop' : h.op with
      | pollMany fd m => exact absurd hop' (hop fd m)
      | _ => rfl
  | failed =>
    have hidle' := hidle (by simp [hout])
    simp only
    split
    · rename_i k b hop
      exact hlast (by simp [hop, Op.repeats]) hidle'
    · rcases hI.live_of_held hstream hin hidle' with ⟨hown, hgoing, -⟩
      refine hI.advance (apart_push (by simp [Frame.stream])) hlt fun _ => ?_
      rw [view_push, hown]
      simpa [view, hin, Frame.stream] using Stage.failing (a := s.accepted h) hgoing

theorem stop (hI : s.StreamInv) (hidle : ¬ s.stepping h) : (s.selectorStopHandle h).StreamInv := by
  unfold selectorStopHandle
  split_ifs with hdone
  · exact hI
  have hk : ∀ b, ∀ f ∈ [Frame.stopTail h b], f.stream = none ∨ f.stream = some h := by
    intro b f hf
    rw [mem_singleton.1 hf]
    cases b with
    | false => exact .inl rfl
    | true =>
      simp only [Frame.stream]
      split_ifs
      · exact .inr rfl
      · exact .inl rfl
  have hapart := apart_removeHandle (s := s) hk
  cases hstream : h.op.stream with
  | false => exact hI.apart (hapart.of_plain hstream)
  | true =>
    by_cases hin : s.inTable h
    · rcases hI.live_of_held hstream hin hidle with ⟨hown, hgoing, -⟩
      refine hI.advance hapart ?_ fun _ => ?_
      · rcases removeHandle_eq s h fun removed => [Frame.stopTail h removed] with ⟨table, stack, heq⟩
        rw [heq]
        exact hI.lt_of_held hstream hin
      · rw [view_removeHandle hin, hown]
        simpa [view, Frame.stream, hstream] using Stage.stopping hgoing
    · rw [removeHandle_of_not_in hin]
      exact hI.apart (apart_push (by simp [Frame.stream]))

/-! ## The frames -/

theorem stage_of_top {f : Frame} (hI : s.StreamInv) (hstream : h.op.stream = true)
    (hstack : s.stack = f :: st) (hf : f.stream = some h) :
    Stage h ⟨s.accepted h, f :: ({ s with stack := st } : State).own h, s.inTable h, s.nextIndex h,
      s.deliveries h⟩ := by
  have hstage := hI.stage h hstream
  unfold view at hstage
  rw [own_pop hstack hf] at hstage
  exact hstage

theorem goAdvance {i : Nat} (hI : s.StreamInv) (hstream : h.op.stream = true)
    (hstack : s.stack = .advance h i :: st) :
    ({ s with stack := st, nextIndex := Function.update s.nextIndex h (i + 1) } : State).StreamInv := by
  rcases (hI.stage_of_top hstream hstack rfl).of_advance with ⟨rfl, hown, hheld, hgoing, hrepeats⟩
  have hlt := hI.lt_of_own hstream (by rw [own_pop hstack rfl]; simp)
  refine hI.advance ((apart_pop (x := some h) hstack (.inr rfl)).trans (Apart.of_eq (Nat.le_refl _)
    (fun _ _ => rfl) (fun _ _ _ => rfl) rfl (fun k hk => ?_) fun _ _ => rfl)) hlt fun _ => ?_
  · exact Function.update_of_ne (fun heq => hk (by rw [heq])) ..
  · change Stage h ⟨s.accepted h, ({ s with stack := st } : State).own h, s.inTable h,
      Function.update s.nextIndex h (s.nextIndex h + 1) h, s.deliveries h⟩
    rw [Function.update_self, hown, hheld]
    exact Stage.advanced hgoing hrepeats

theorem goContinue {fails : Bool} (hI : s.StreamInv) (hstream : h.op.stream = true)
    (hstack : s.stack = .streamTail h false :: st)
    (hok : (s.updateSelectorRegistration h.fd fails).2 = true → Undamaged .os st) :
    (({ s with stack := st } : State).update h.fd fails).StreamInv := by
  rcases (hI.stage_of_top hstream hstack rfl).of_streamTail_false with ⟨hown, hheld, hgoing, hrepeats⟩
  have hlt := hI.lt_of_own hstream (by rw [own_pop hstack rfl]; simp)
  have hpop : ({ s with stack := st } : State).StreamInv := by
    refine hI.advance (apart_pop hstack (.inr rfl)) hlt fun _ => ?_
    change Stage h ⟨s.accepted h, ({ s with stack := st } : State).own h, s.inTable h, s.nextIndex h,
      s.deliveries h⟩
    rw [hown, hheld]
    refine Stage.live hgoing fun hnot => ?_
    rw [hrepeats] at hnot
    cases hnot
  refine hpop.apart (apart_update fun hfails => ?_)
  rw [updateSelectorRegistration_stack] at hfails
  exact hok hfails

theorem goRemove {f : Frame} {fs st : List Frame} (hI : s.StreamInv) (hstream : h.op.stream = true)
    (hstack : s.stack = f :: st) (hf : f.stream = some h) (hfs : ∀ g ∈ fs, g.stream = some h)
    (hnext : ∀ a own held n ds, Stage h ⟨a, f :: own, held, n, ds⟩ →
      own = [] ∧ held = true ∧ Stage h ⟨a, fs, false, n, ds⟩) :
    (({ s with stack := st } : State).removeHandle h fun _ => fs).StreamInv := by
  have hlt := hI.lt_of_own hstream (by rw [own_pop hstack hf]; simp)
  rcases hnext _ _ _ _ _ (hI.stage_of_top hstream hstack hf) with ⟨hown, hheld, hafter⟩
  have hin : ({ s with stack := st } : State).inTable h := of_decide_eq_true hheld
  refine hI.advance ((apart_pop hstack (.inr hf)).trans (apart_removeHandle fun _ g hg => .inr (hfs g hg)))
    ?_ fun _ => ?_
  · rcases removeHandle_eq { s with stack := st } h fun _ => fs with ⟨table, stack, heq⟩
    rw [heq]
    exact hlt
  · have hall : fs.filter (fun f => f.stream = some h) = fs := by
      rw [filter_eq_self]
      intro g hg
      simp [hfs g hg]
    rw [view_removeHandle hin, hall, hown, append_nil]
    exact hafter

theorem goStopTail {r : Bool} (hI : s.StreamInv) (hstack : s.stack = .stopTail h r :: st) :
    (({ s with stack := st } : State).outside (stopReport h r)).StreamInv := by
  cases hstream : h.op.stream with
  | false =>
    refine hI.apart ((apart_pop hstack (.inl ?_)).trans (apart_outside ?_))
    · cases r <;> simp [Frame.stream, hstream]
    · simp [stopReport, hstream, Frame.stream]
  | true =>
    cases r with
    | false =>
      exact hI.apart ((apart_pop hstack (.inl rfl)).trans (apart_outside (by simp [stopReport, hstream])))
    | true =>
      have hf : (Frame.stopTail h true).stream = some h := by simp [Frame.stream, hstream]
      have hreport : stopReport h true = [.endStream h] := by simp [stopReport, hstream]
      have hlt := hI.lt_of_own hstream (by rw [own_pop hstack hf]; simp)
      rcases (hI.stage_of_top hstream hstack hf).of_stopTail with ⟨hown, hheld, hgoing⟩
      rcases outside_eq (s := { s with stack := st }) [.endStream h] with ⟨stack, loose, heq⟩
      have hown' : (({ s with stack := st } : State).outside [.endStream h]).own h = [.endStream h] := by
        have hframes := own_outside_perm (s := { s with stack := st }) [.endStream h]
        unfold own at hown ⊢
        rcases hframes with hframes | hframes
        · rw [hframes, filter_append, hown]
          simp [Frame.stream]
        · rw [hframes, filter_append, hown]
          simp [Frame.stream]
      rw [hreport]
      refine hI.advance ((apart_pop hstack (.inr hf)).trans (apart_outside (by simp [Frame.stream]))) ?_
        fun _ => ?_
      · rw [heq]
        exact hlt
      · rw [view, hown', heq]
        change Stage h ⟨s.accepted h, [.endStream h], s.inTable h, s.nextIndex h, s.deliveries h⟩
        rw [hheld]
        exact Stage.ending hgoing

theorem report {f : Frame} {t : Try} {fs : List Frame} (hI : s.StreamInv)
    (hr : s.report f t = some (s', fs))
    (hmem : f ∈ s.frames) (st lo : List Frame)
    (hother : ∀ h, f.stream ≠ some h →
      (st ++ lo).filter (fun g => g.stream = some h) = s.own h)
    (hsame : ∀ h, f.stream = some h → s.own h = [f] → (st ++ lo).filter (fun g => g.stream = some h) = []) :
    ({ s' with stack := st, loose := lo } : State).StreamInv := by
  have hplain : ∀ s₁ : State, Apart none s s₁ → f.stream = none →
      ({ s₁ with stack := st, loose := lo } : State).StreamInv := by
    intro s₁ ha hf
    refine hI.apart ⟨fun h hstream _ => ?_, ha.count, ha.queue⟩
    have hview := ha.view h hstream nofun
    have hown : ({ s₁ with stack := st, loose := lo } : State).own h = s₁.own h :=
      (hother h (by simp [hf])).trans (congrArg View.own hview).symm
    rw [← hview]
    simp only [view, hown]
    rfl
  cases f with
  | finish h =>
    simp only [State.report, Option.some.injEq] at hr
    split at hr
    · cases hr
      exact hplain s (Apart.refl s) rfl
    · cases hr
      exact hplain s (Apart.refl s) rfl
  | invoke h =>
    cases hr
    exact hplain _ (apart_plain rfl rfl rfl rfl rfl rfl rfl) rfl
  | run h =>
    have hcall : s.callSync h t = (s', fs) := Option.some.inj hr
    have ha := apart_callSync (s := s) (h := h) t
    rw [hcall] at ha
    exact hplain s' ha rfl
  | endStream h =>
    cases hr
    have ha : Apart (some h) s
        ({ s.emit h ⟨s.nextIndex h, false⟩ with stack := st, loose := lo } : State) := by
      refine ⟨fun k hk hne => ?_, Nat.le_refl _, id⟩
      have hkeep : (st ++ lo).filter (fun g => g.stream = some k) = s.own k :=
        hother k (by simpa [Frame.stream] using hne)
      refine Eq.trans ?_ ((apart_emit (s := s) ⟨s.nextIndex h, false⟩).view k hk hne)
      change View.mk _ ((st ++ lo).filter fun g => g.stream = some k) _ _ _ = _
      rw [hkeep]
      rfl
    cases hstream : h.op.stream with
    | false => exact hI.apart (ha.of_plain hstream)
    | true =>
      have hown : Frame.endStream h ∈ s.own h := mem_filter.2 ⟨hmem, by simp [Frame.stream]⟩
      have hlt := hI.lt_of_own hstream (ne_nil_of_mem hown)
      rcases (hI.stage h hstream).of_mem_endStream hown with ⟨hone, hheld, hgo⟩
      have hgoing : h.Going (s.nextIndex h) (s.deliveries h) := hgo
      refine hI.advance ha hlt fun _ => ?_
      change Stage h ⟨s.accepted h, (st ++ lo).filter (fun g => g.stream = some h), s.inTable h,
        s.nextIndex h, Function.update s.deliveries h (s.deliveries h ++ [⟨s.nextIndex h, false⟩]) h⟩
      have hheld' : decide (s.inTable h) = false := hheld
      rw [hsame h rfl hone, Function.update_self, hheld']
      exact Stage.ended (hgoing.close (d := ⟨s.nextIndex h, false⟩) rfl rfl)
  | _ => cases hr

theorem drainWriteQueue {e : Nat} (hI : s.StreamInv) (hstack : s.stack = .drain e :: st)
    (t : Try) (fails : Bool) : (s.drainWriteQueue e st t fails).StreamInv := by
  unfold State.drainWriteQueue
  split
  · rename_i k q hqueue _
    have hslot : s.table.slots k.fd = some e := s.table.home (.inr (.inr (by rw [hqueue]; simp)))
    have hplain : k.op.stream = false := hI.queue k.fd k (by
      rw [Table.entryAt_of_slots hslot, hqueue]
      exact mem_cons_self ..)
    have hpop := apart_popleft hqueue hplain
    refine hI.apart (hpop.trans ?_)
    unfold runItem
    split_ifs with hdirect hdone
    · refine (apart_callSync t).trans (apart_push fun f hf => .inl ?_)
      rw [(callSync_eq _ k t).2 f hf]
      rfl
    · exact Apart.refl _
    · have hprep := apart_prepareOperation (s := { s with table := s.table.popleft e }) hplain t fails
      split
      · rename_i s₁ heq
        rw [heq] at hprep
        exact hprep
      · rename_i s₁ out _ heq
        rw [heq] at hprep
        exact hprep.trans (apart_push (by simp [Frame.stream]))
  · exact hI.apart (apart_pop hstack (.inl rfl))

theorem go {t : Try} {fails : Bool} (hI : s.StreamInv) (hok : s.Undisturbed (.go t fails))
    (hgo : s.go t fails = some s') : s'.StreamInv := by
  rcases hstack : s.stack with - | ⟨f, st⟩
  · simp [State.go, hstack] at hgo
  have hreport : (s.report f t).map (fun x => { x.1 with stack := x.2 ++ st }) = some s' →
      s'.StreamInv := by
    intro hmap
    rw [Option.map_eq_some_iff] at hmap
    rcases hmap with ⟨⟨s₁, fs⟩, hr, rfl⟩
    have hloose : s₁.loose = s.loose := (report_frame hr).2.1
    have hframes : s.frames = f :: (st ++ s.loose) := by
      simp [frames, hstack]
    -- what a report leaves belongs to no stream
    have hnil : ∀ h, fs.filter (fun g => g.stream = some h) = [] := by
      intro h
      rw [filter_eq_nil_iff]
      intro g hg
      rcases (report_frame hr).2.2.2.2.2 g hg with rfl | ⟨k, -, rfl⟩
      · simp [Frame.stream]
      · simp [Frame.stream]
    refine hI.report hr (by rw [hframes]; exact mem_cons_self ..) (fs ++ st) s₁.loose
      (fun h hne => ?_) (fun h heq hown => ?_)
    · unfold own
      rw [hloose, hframes, append_assoc, filter_append, hnil, nil_append,
        filter_cons_of_neg (by simpa using hne)]
    · unfold own at hown
      rw [hframes, filter_cons_of_pos (by simpa using heq)] at hown
      rw [hloose, append_assoc, filter_append, hnil, nil_append]
      exact (List.cons.inj hown).2
  cases f with
  | user => simp [State.go, hstack] at hgo
  | drain e =>
    simp only [State.go, hstack, Option.some.injEq] at hgo
    subst hgo
    exact hI.drainWriteQueue hstack t fails
  | removeTail fd =>
    simp only [State.go, hstack, Option.some.injEq] at hgo
    subst hgo
    simp only [Undisturbed, hstack] at hok
    refine hI.apart ((apart_pop hstack (.inl rfl)).trans (apart_removeTail fun hfails => hok ?_))
    rw [← updateSelectorRegistration_stack s st]
    exact hfails
  | stopTail h r =>
    simp only [State.go, hstack, Option.some.injEq] at hgo
    subst hgo
    exact hI.goStopTail hstack
  | advance h i =>
    simp only [State.go, hstack, Option.some.injEq] at hgo
    subst hgo
    cases hstream : h.op.stream with
    | false =>
      refine hI.apart (Apart.of_plain (h := h) ?_ hstream)
      refine (apart_pop hstack (.inr rfl)).trans (Apart.of_eq (Nat.le_refl _) (fun _ _ => rfl)
        (fun _ _ _ => rfl) rfl (fun k hk => ?_) fun _ _ => rfl)
      exact Function.update_of_ne (fun heq => hk (by rw [heq]; rfl)) ..
    | true => exact hI.goAdvance hstream hstack
  | streamTail h done =>
    cases done with
    | true =>
      simp only [State.go, hstack, Option.some.injEq] at hgo
      subst hgo
      cases hstream : h.op.stream with
      | false =>
        exact hI.apart (((apart_pop hstack (.inr rfl)).trans
          (apart_removeHandle (by simp))).of_plain hstream)
      | true =>
        refine hI.goRemove hstream hstack rfl (by simp) fun a own held n ds hs => ?_
        rcases hs.of_streamTail_true with ⟨hown, hheld, hover⟩
        exact ⟨hown, hheld, Stage.ended hover⟩
    | false =>
      simp only [State.go, hstack, Option.some.injEq] at hgo
      subst hgo
      simp only [Undisturbed, hstack] at hok
      cases hstream : h.op.stream with
      | false =>
        refine hI.apart (Apart.of_plain (h := h) ((apart_pop hstack (.inr rfl)).trans ?_) hstream)
        refine (apart_update fun hfails => hok ?_).only
        rw [← updateSelectorRegistration_stack s st]
        exact hfails
      | true => exact hI.goContinue hstream hstack hok
  | failStream h =>
    simp only [State.go, hstack, Option.some.injEq] at hgo
    subst hgo
    cases hstream : h.op.stream with
    | false =>
      exact hI.apart (((apart_pop hstack (.inr rfl)).trans
        (apart_removeHandle (by simp [Frame.stream]))).of_plain hstream)
    | true =>
      refine hI.goRemove hstream hstack rfl (by simp [Frame.stream]) fun a own held n ds hs => ?_
      rcases hs.of_failStream with ⟨hown, hheld, hgoing⟩
      exact ⟨hown, hheld, Stage.ending hgoing⟩
  | finish h =>
    simp only [State.go, hstack] at hgo
    exact hreport hgo
  | invoke h =>
    simp only [State.go, hstack] at hgo
    exact hreport hgo
  | run h =>
    simp only [State.go, hstack] at hgo
    exact hreport hgo
  | endStream h =>
    simp only [State.go, hstack] at hgo
    exact hreport hgo

theorem goLoose {i : Nat} {t : Try} (hI : s.StreamInv) (hgo : s.goLoose i t = some s') : s'.StreamInv := by
  unfold State.goLoose at hgo
  split at hgo
  · cases hgo
  · rename_i f hf
    rw [Option.map_eq_some_iff] at hgo
    rcases hgo with ⟨⟨s₁, fs⟩, hr, rfl⟩
    rcases List.getElem?_eq_some_iff.1 hf with ⟨hi, hget⟩
    have hstack : s₁.stack = s.stack := (report_frame hr).1
    have hloose : s.loose = s.loose.take i ++ f :: s.loose.drop (i + 1) := by
      rw [← hget, getElem_cons_drop, take_append_drop]
    have hnil : ∀ h, (fs.filter (· ≠ .user)).filter (fun g => g.stream = some h) = [] := by
      intro h
      rw [filter_eq_nil_iff]
      intro g hg
      rcases (report_frame hr).2.2.2.2.2 g (mem_filter.1 hg).1 with rfl | ⟨k, -, rfl⟩
      · simp [Frame.stream]
      · simp [Frame.stream]
    have hleft : ∀ h, (s.stack ++ (s.loose.eraseIdx i ++ fs.filter (· ≠ .user))).filter
        (fun g => g.stream = some h) = s.stack.filter (fun g => g.stream = some h) ++
          ((s.loose.take i).filter (fun g => g.stream = some h) ++
            (s.loose.drop (i + 1)).filter fun g => g.stream = some h) := by
      intro h
      rw [filter_append, filter_append, hnil, append_nil, eraseIdx_eq_take_drop_succ,
        filter_append]
    have hown : ∀ h, s.own h = s.stack.filter (fun g => g.stream = some h) ++
        ((s.loose.take i).filter (fun g => g.stream = some h) ++
          (f :: s.loose.drop (i + 1)).filter fun g => g.stream = some h) := by
      intro h
      rw [own, frames, filter_append, ← filter_append (s.loose.take i), ← hloose]
    have hmem : f ∈ s.frames := mem_append_right _ (by rw [hloose]; simp)
    refine hI.report hr hmem s₁.stack _ (fun h hne => ?_) (fun h heq hone => ?_)
    · rw [hstack, hleft, hown, filter_cons_of_neg (by simpa using hne)]
    · rw [hown, filter_cons_of_pos (by simpa using heq)] at hone
      rw [hstack, hleft]
      -- the frame is the only one, so nothing stands before or behind it
      have hlen := congrArg List.length hone
      simp only [length_append, length_cons, length_nil] at hlen
      have hzero : ∀ l : List Frame, l.length = 0 → l = [] := fun l => length_eq_zero_iff.1
      rw [hzero _ (by omega : (s.stack.filter fun g => g.stream = some h).length = 0),
        hzero _ (by omega : ((s.loose.take i).filter fun g => g.stream = some h).length = 0),
        hzero _ (by omega : ((s.loose.drop (i + 1)).filter fun g => g.stream = some h).length = 0)]
      rfl

theorem refused (hI : s.StreamInv) (hid : h.id = s.count) : (s.issue h false).StreamInv := by
  refine hI.advance (apart_issue false) (by simp [issue, hid]) fun hstream => ?_
  rcases hI.fresh h hstream (Nat.le_of_eq hid.symm) with ⟨n, hview⟩
  have hown : s.own h = [] := congrArg View.own hview
  have hheld : decide (s.inTable h) = false := congrArg View.held hview
  have hds : s.deliveries h = [] := congrArg View.deliveries hview
  change Stage h ⟨Function.update s.accepted h false h, s.own h, s.inTable h, _, s.deliveries h⟩
  rw [Function.update_self, hown, hheld, hds]
  exact Stage.new

theorem registered (hI : s.StreamInv) (hid : h.id = s.count) (hopen : s.refuses h = false)
    (hstream : h.op.stream = true) (keys : Nat → Option Mask) (ok : Bool) :
    (({ s.reserve h with keys := keys } : State).issue h ok).StreamInv := by
  have hfree : s.slotTaken h = false := by
    simp only [refuses, Bool.or_eq_false_iff] at hopen
    exact hopen.2
  refine hI.advance ((apart_reserve hfree).trans ((apart_keys keys).only.trans (apart_issue ok)))
    (by simp [issue, reserve, hid]) fun _ => ?_
  rcases hI.fresh h hstream (Nat.le_of_eq hid.symm) with ⟨n, hview⟩
  have hown : s.own h = [] := congrArg View.own hview
  have hds : s.deliveries h = [] := congrArg View.deliveries hview
  have hdirect : h.op.direct = false := by
    cases hop : h.op <;> simp_all [Op.stream, Op.direct]
  have hin : (s.reserve h).inTable h := inTable_reserve (nonzero_of_open hopen hdirect)
  change Stage h ⟨Function.update s.accepted h ok h, s.own h, (s.reserve h).inTable h,
    Function.update s.nextIndex h h.op.baseSequence h, s.deliveries h⟩
  rw [hown, hds, decide_eq_true hin]
  simp only [Function.update_self]
  exact Stage.live Ordinal.Going.nil fun _ => rfl

theorem submitStream (hI : s.StreamInv) (hcall : s.callable = true) (hid : h.id = s.count)
    (hstream : h.op.stream = true) (t : Try) (fails : Bool) : (s.submitStream h t fails).StreamInv := by
  have hstep : ∀ fd m, h.op = .pollMany fd m → (if s.refuses h then s.issue h false
      else ((s.reserve h).issue h true).stepContinuous h t fails).StreamInv := by
    intro fd m hop
    split_ifs with hrefuses
    · exact hI.refused hid
    · have hopen : s.refuses h = false := by simpa using hrefuses
      have hlive : ((s.reserve h).issue h true).StreamInv := hI.registered hid hopen hstream s.keys true
      have hin : ((s.reserve h).issue h true).inTable h :=
        inTable_reserve (nonzero_of_open hopen (by simp [hop, Op.direct]))
      refine hlive.stepContinuous hcall hstream hin t fails fun _ hstepping => ?_
      rcases hstepping with ⟨f, hf, hsteps⟩
      rcases hI.fresh h hstream (Nat.le_of_eq hid.symm) with ⟨n, hview⟩
      have hown : s.own h = [] := congrArg View.own hview
      have hmem : f ∈ s.own h := mem_filter.2 ⟨hf, by simpa using Frame.stream_of_steps hsteps⟩
      rw [hown] at hmem
      cases hmem
  unfold State.submitStream
  split
  · rename_i k b hop hout
    refine hI.advance (((apart_issue true).trans (apart_emit _)).trans apart_userOutside.only)
      ?_ fun _ => ?_
    · rcases userOutside_eq ((s.issue h true).emit h ⟨b, false⟩) with ⟨stack, heq⟩
      rw [heq]
      simp [issue, emit, hid]
    · rw [apart_userOutside.view h hstream (by rintro ⟨⟩), view_emit]
      rcases hI.fresh h hstream (Nat.le_of_eq hid.symm) with ⟨n, hview⟩
      have hown : s.own h = [] := congrArg View.own hview
      have hheld : decide (s.inTable h) = false := congrArg View.held hview
      have hds : s.deliveries h = [] := congrArg View.deliveries hview
      change Stage h ⟨_, s.own h, s.inTable h, _, s.deliveries h ++ [⟨b, false⟩]⟩
      rw [hown, hheld, hds]
      have hbase : h.op.baseSequence = b := by rw [hop]; rfl
      have hnil : h.Going h.op.baseSequence [] := Ordinal.Going.nil
      exact Stage.ended (hnil.close (d := ⟨b, false⟩) hbase.symm rfl)
  · rename_i fd m hop hout
    exact hstep fd m hop
  · rename_i fd m hop hout
    exact hstep fd m hop
  · split_ifs with hrefuses
    · exact hI.refused hid
    · have hopen : s.refuses h = false := by simpa using hrefuses
      rcases updateSelectorRegistration_eq (s.reserve h) h.fd fails with ⟨keys, hkeys⟩
      split
      · rename_i s₁ heq
        rw [heq] at hkeys
        simp only at hkeys
        subst hkeys
        exact (hI.registered hid hopen hstream keys false).apart
          (apart_unwind (undamaged_of_callable hcall))
      · rename_i s₁ heq
        rw [heq] at hkeys
        simp only at hkeys
        subst hkeys
        exact hI.registered hid hopen hstream keys true

theorem submitOneshot (hI : s.StreamInv) (hcall : s.callable = true) (hid : h.id = s.count)
    (hplain : h.op.stream = false) (t : Try) (fails : Bool) : (s.submitOneshot h t fails).StreamInv := by
  have hprep := apart_prepareOperation (s := s) hplain t fails
  unfold State.submitOneshot
  split
  · rename_i s₁ heq
    rw [heq] at hprep
    exact hI.apart (hprep.trans ((apart_issue true).of_plain hplain))
  · rename_i s₁ heq
    rw [heq] at hprep
    exact hI.apart ((hprep.trans ((apart_issue true).of_plain hplain)).trans
      (apart_push (by simp [Frame.stream])))
  · rename_i s₁ e heq
    have hstack : s₁.stack = s.stack := by
      rcases prepareOperation_cases s h t fails with ⟨-, hp⟩ | ⟨-, keys, hp | hp⟩ | ⟨-, hp⟩
      all_goals
        exact congrArg (fun x => x.1.stack) (heq.symm.trans hp)
    rw [heq] at hprep
    refine hI.apart ((hprep.trans ((apart_issue false).of_plain hplain)).trans (apart_unwind ?_))
    change Undamaged e s₁.stack
    rw [hstack]
    exact undamaged_of_callable hcall

theorem submit (hI : s.StreamInv) (hcall : s.callable = true) (op : Op) (t : Try) (fails : Bool) :
    (s.submit op t fails).StreamInv := by
  have hissue : ∀ (h : Handle) (ok : Bool), h.op.stream = false → (s.issue h ok).StreamInv :=
    fun h ok hplain =>
    hI.apart ((apart_issue ok).of_plain hplain)
  have hqueue : ∀ h : Handle, h.op.stream = false → ((s.enqueueWrite h).issue h true).StreamInv :=
    fun h hplain =>
    hI.apart ((apart_enqueueWrite hplain).trans ((apart_issue true).of_plain hplain))
  have hrun : ∀ h : Handle, h.op.stream = false → ((s.issue h true).outside [.run h]).StreamInv :=
    fun h hplain =>
    (hissue h true hplain).apart (apart_outside (by simp [Frame.stream]))
  have hsend : ∀ h : Handle, h.id = s.count → h.op.stream = false → (s.submitSend h t fails).StreamInv := by
    intro h hid hplain
    unfold submitSend
    split_ifs
    · exact hissue h false hplain
    · exact hqueue h hplain
    · exact hI.submitOneshot hcall hid hplain t fails
  have hdirect : ∀ h : Handle, h.op.stream = false → (s.runOrEnqueueWrite h).StreamInv := by
    intro h hplain
    unfold runOrEnqueueWrite
    split_ifs
    · exact hrun h hplain
    · exact hissue h false hplain
    · exact hqueue h hplain
    · exact hrun h hplain
  unfold State.submit
  cases op with
  | send k data =>
    cases data with
    | nil => exact hI.apart apart_userOutside
    | cons b data => exact hsend _ rfl rfl
  | sendAll k data => exact hsend _ rfl rfl
  | shutdown k how c => exact hdirect _ rfl
  | closeSocket k c => exact hdirect _ rfl
  | oneshot k event => exact hI.submitOneshot hcall rfl rfl t fails
  | poll fd m => exact hI.submitOneshot hcall rfl rfl t fails
  | single k pooled b => exact hI.submitStream hcall rfl rfl t fails
  | pollMany fd m => exact hI.submitStream hcall rfl rfl t fails

theorem stepFdOperation_eq (s : State) (fd : Nat) (event : Event) (t : Try) (fails : Bool) :
    s.stepFdOperation fd event t fails = (s.slot fd event).elim s fun h =>
      if h.op.stream then s.stepContinuous h t fails
      else if s.done h then s
      else s.stepOneshot h t fails := by
  unfold stepFdOperation slot
  cases event
  · cases (s.table.entryAt fd).reader <;> rfl
  · cases (s.table.entryAt fd).writer <;> rfl

theorem ready {fd : Nat} {event : Event} {t : Try} {fails : Bool} (hI : s.StreamInv)
    (hcall : s.callable = true)
    (hok : s.Undisturbed (.ready fd event t fails)) : (s.stepFdOperation fd event t fails).StreamInv := by
  rw [stepFdOperation_eq]
  cases hslot : s.slot fd event with
  | none => exact hI
  | some h =>
    simp only [Undisturbed, hslot] at hok
    have hhas : (s.table.entryAt fd).Has h := by
      cases event with
      | read => exact .inl hslot
      | write => exact .inr (.inl hslot)
    have hin : s.inTable h := by
      unfold inTable
      rw [Table.fd_of_has hhas]
      exact hhas
    dsimp only [Option.elim]
    split_ifs with hstream hdone
    · exact hI.stepContinuous hcall hstream hin t fails hok
    · exact hI
    · have hplain : h.op.stream = false := by simpa using hstream
      have ha := apart_attempt (s := s) (h := h) t
      unfold stepOneshot
      split
      · rename_i s₁ heq
        have hstack : s₁.stack = s.stack := by
          rw [show s₁ = (s.attempt h t).1 by rw [heq]]
          rfl
        rw [heq] at ha
        refine hI.apart (ha.trans (apart_update fun _ => ?_))
        rw [hstack]
        exact undamaged_of_callable hcall
      · rename_i s₁ out hout heq
        rw [heq] at ha
        exact hI.apart (ha.trans ((apart_removeHandle (by simp [Frame.stream])).of_plain hplain))

theorem step {a : Action} (hI : s.StreamInv) (hok : s.Undisturbed a) (hs : step s a = some s') :
    s'.StreamInv := by
  cases a with
  | submit op t fails =>
    simp only [Selector.step] at hs
    split at hs
    · rename_i hcall
      cases hs
      exact hI.submit hcall op t fails
    · cases hs
  | ready fd event t fails =>
    simp only [Selector.step] at hs
    split at hs
    · rename_i hcall
      cases hs
      exact hI.ready hcall hok
    · cases hs
  | stop h =>
    simp only [Selector.step] at hs
    split at hs
    · cases hs
      exact hI.stop hok
    · cases hs
  | go t fails => exact hI.go hok hs
  | back =>
    simp only [Selector.step] at hs
    split at hs
    · rename_i st hstack
      cases hs
      exact hI.apart (apart_pop hstack (.inl rfl))
    · cases hs
  | throw e =>
    simp only [Selector.step] at hs
    split at hs
    · rename_i st hstack
      cases hs
      simp only [Undisturbed, hstack, tail_cons] at hok
      exact hI.apart ((apart_pop hstack (.inl rfl)).trans (apart_unwind (s := { s with stack := st }) hok))
    · cases hs
  | loose i t => exact hI.goLoose hs
  | closeSock k =>
    cases hs
    exact hI.apart (apart_plain rfl rfl rfl rfl rfl rfl rfl)
  | close =>
    simp only [Selector.step] at hs
    split at hs
    · cases hs
      exact hI.apart (apart_plain rfl rfl rfl rfl rfl rfl rfl)
    · cases hs

theorem init : init.StreamInv where
  stage := fun h _ => by
    have hview : Selector.init.view h = ⟨false, [], false, 0, []⟩ := by
      simp [view, own, frames, inTable, Selector.init, Table.entryAt, Table.empty, Entry.Has]
    rw [hview]
    exact Stage.new
  fresh := fun h _ _ => ⟨0, by
    simp [view, own, frames, inTable, Selector.init, Table.entryAt, Table.empty, Entry.Has]⟩
  queue := by
    simp [QueueFree, Selector.init, Table.entryAt, Table.empty]

end StreamInv

/-! ## What is delivered -/

/-- Every stream numbers its deliveries from its base without a gap, and ends once. -/
structure Ordinals (s : State) : Prop where
  consecutive : ∀ h, h.op.stream = true →
    (s.deliveries h).map Delivery.index = List.range' h.op.baseSequence (s.deliveries h).length
  distinct : ∀ h, h.op.stream = true → ((s.deliveries h).map Delivery.index).Nodup
  /-- only the last delivery can be an end -/
  terminalLast : ∀ h, h.op.stream = true → ∀ d ∈ (s.deliveries h).dropLast, d.more = true
  /-- a stream that has left the table, with nothing about it in progress, has been ended -/
  ended : ∀ h, h.op.stream = true → s.accepted h = true → ¬ s.inTable h →
    (∀ f ∈ s.frames, f.stream ≠ some h) →
    ∃ d, (s.deliveries h).getLast? = some d ∧ d.more = false
  /-- a stream that waits in the table has not -/
  live : ∀ h, h.op.stream = true → s.inTable h → ¬ s.stepping h → ∀ d ∈ s.deliveries h, d.more = true

theorem StreamInv.ordinals {s : State} (hI : s.StreamInv) : s.Ordinals := by
  have hnumbered : ∀ h, h.op.stream = true →
      Ordinal.Consecutive Delivery.index h.op.baseSequence (s.deliveries h) ∧
        ∀ d ∈ (s.deliveries h).dropLast, d.more = true := by
    intro h hstream
    have hstage := hI.stage h hstream
    generalize hv : s.view h = v at hstage
    have hds : s.deliveries h = v.deliveries := congrArg View.deliveries hv
    rw [hds]
    cases hstage with
    | new => exact ⟨rfl, by simp⟩
    | live hgoing _ | delivering hgoing _ | advanced hgoing _ | failing hgoing | stopping hgoing | ending hgoing =>
      exact ⟨hgoing.consecutive, hgoing.before⟩
    | delivered hover | ended hover => exact ⟨hover.consecutive, hover.before⟩
  refine ⟨fun h hs => (hnumbered h hs).1, fun h hs => (hnumbered h hs).1.nodup,
    fun h hs => (hnumbered h hs).2,
    fun h hs haccepted hout hidle => ?_, fun h hs hin hidle => (hI.live_of_held hs hin hidle).2.1.more⟩
  have hown : s.own h = [] := by
    unfold own
    rw [filter_eq_nil_iff]
    intro f hf
    simpa using hidle f hf
  have hstage := hI.stage h hs
  unfold view at hstage
  rw [hown, haccepted, decide_eq_false hout] at hstage
  cases hstage with
  | ended hover => exact hover.last

end State
end Pytealet.Selector
