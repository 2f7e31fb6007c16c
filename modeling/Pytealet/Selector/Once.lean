import Mathlib.Data.List.Perm.Basic
import Pytealet.Selector.Callbacks

/-!
# Selector.Once — every one-shot operation is reported once

The account of `Selector.Callbacks` over whole runs.  It can be lost in two ways only, and
`Reported` excludes them step by step: an exception leaves a call that still owes a callback, or two
threads are past the test of `_done` for one handle.  The first is what the end of `_remove_handle`
does when the selector refuses the update: `_step_fd_operation` has taken the operation out by then,
and never gets to its callback.
-/

namespace Pytealet.Selector

open Lib Lib.Transition List
open Function (update_of_ne update_self)

namespace State

/-- Two threads would both pass the test of `_done`. -/
def Contended (s : State) (h : Handle) : Prop :=
  s.done h = false ∧ Frame.invoke h ∈ s.frames
deriving Decidable

/-- The account, but for an operation that is being handed over. -/
structure OnceBut (x : Option Handle) (s : State) : Prop where
  sane : s.Sane
  accepted_lt : ∀ h, s.accepted h = true → h.id < s.count
  done_lt : ∀ h, s.done h = true → h.id < s.count
  invoked_lt : ∀ h, s.invoked h ≠ 0 → h.id < s.count
  /-- `_done` says whether the callback has been called -/
  handled : ∀ h, h.op.direct = false → s.invoked h = (s.done h).toNat
  pending : ∀ h, Frame.invoke h ∈ s.frames → s.done h = false
  single : ∀ h, s.frames.count (.invoke h) ≤ 1
  whole : ∀ h, h.op.direct = true → s.places h + s.invoked h ≤ 1
  leaving : ∀ h, some h ≠ x → s.accepted h = true → h.op.stream = false → h.op.callback = true →
    s.inTable h ∨ s.invoked h = 1 ∨ h ∈ s.owed

def OnceInv (s : State) : Prop :=
  s.OnceBut none

namespace OnceBut

variable {s s' : State} {h : Handle} {x : Option Handle}

theorem keeps (hI : s.OnceBut x) (hk : Keeps s s') : s'.OnceBut x where
  sane := hk.sane hI.sane
  accepted_lt := by
    rw [hk.accepted, hk.count]
    exact hI.accepted_lt
  done_lt := by
    rw [hk.done, hk.count]
    exact hI.done_lt
  invoked_lt := by
    rw [hk.invoked, hk.count]
    exact hI.invoked_lt
  handled := by
    rw [hk.invoked, hk.done]
    exact hI.handled
  pending := by
    intro h hmem
    rw [hk.done]
    refine hI.pending h (count_pos_iff.1 ?_)
    exact Nat.lt_of_lt_of_le (count_pos_iff.2 hmem) (hk.invokes h)
  single := fun h => Nat.le_trans (hk.invokes h) (hI.single h)
  whole := by
    intro h hdirect
    rw [hk.invoked]
    rcases hk.places h with hle | hone
    · exact Nat.le_trans (Nat.add_le_add_right hle _) (hI.whole h hdirect)
    · exact hone
  leaving := by
    intro h hx haccepted hstream hcallback
    rw [hk.accepted] at haccepted
    rw [hk.invoked]
    rcases hI.leaving h hx haccepted hstream hcallback with hin | hone | ho
    · exact (hk.left h hstream hin).imp_right .inr
    · exact .inr (.inl hone)
    · exact .inr (.inr (hk.owed h ho))

/-! ### Submission -/

theorem fresh (hI : s.OnceBut x) (hid : h.id = s.count) :
    ¬ s.inTable h ∧ s.accepted h = false ∧ s.invoked h = 0 ∧ s.places h = 0 := by
  have hlt : ¬ h.id < s.count := by omega
  have htable : ¬ s.inTable h := fun hin => hlt (hI.sane.held h hin)
  refine ⟨htable, ?_, ?_, ?_⟩
  · cases haccepted : s.accepted h with
    | false => rfl
    | true => exact absurd (hI.accepted_lt h haccepted) hlt
  · by_contra hne
    exact hlt (hI.invoked_lt h hne)
  · have hqueue : (s.table.entryAt h.fd).writeQueue.count h = 0 := by
      rw [count_eq_zero]
      exact fun hmem => htable (.inr (.inr hmem))
    have hrun : s.frames.count (.run h) = 0 := by
      rw [count_eq_zero]
      exact fun hmem => hlt (hI.sane.known _ hmem h rfl)
    unfold places
    omega

theorem refuse (hI : s.OnceBut x) (hid : h.id = s.count) : (s.issue h false).OnceBut x := by
  rcases hI.fresh hid with ⟨-, haccepted, -, -⟩
  have hsame : Function.update s.accepted h false = s.accepted := by
    rw [← haccepted, Function.update_eq_self]
  have hlt : ∀ {n}, n < s.count → n < s.count + 1 := Nat.lt_succ_of_lt
  refine ⟨⟨hI.sane.proper, fun f hf h' ho => hlt (hI.sane.known f hf h' ho), hI.sane.reader,
    hI.sane.writer, fun h' hin => hlt (hI.sane.held h' hin)⟩, fun h' ha => ?_,
    fun h' hd => hlt (hI.done_lt h' hd), fun h' hi => hlt (hI.invoked_lt h' hi), hI.handled, hI.pending,
    hI.single, hI.whole, fun h' hx ha => ?_⟩
  · simp only [issue, hsame] at ha
    exact hlt (hI.accepted_lt h' ha)
  · simp only [issue, hsame] at ha
    exact hI.leaving h' hx ha

theorem issue_true (s : State) (h : Handle) :
    s.issue h true = { s.issue h false with accepted := Function.update (s.issue h false).accepted h true } := by
  simp [issue, Function.update_idem]

theorem accept (hI : s.OnceBut x) (hlt : h.id < s.count)
    (hheld : h.op.stream = false → h.op.callback = true → s.inTable h ∨ h ∈ s.owed) :
    ({ s with accepted := Function.update s.accepted h true } : State).OnceBut x := by
  refine ⟨⟨hI.sane.proper, hI.sane.known, hI.sane.reader, hI.sane.writer, hI.sane.held⟩, fun h' ha => ?_,
    hI.done_lt, hI.invoked_lt, hI.handled, hI.pending, hI.single, hI.whole,
    fun h' hx ha hstream hcallback => ?_⟩
  · by_cases hh : h' = h
    · subst hh
      exact hlt
    · simp only [update_of_ne hh] at ha
      exact hI.accepted_lt h' ha
  · by_cases hh : h' = h
    · subst hh
      exact (hheld hstream hcallback).imp_right .inr
    · simp only [update_of_ne hh] at ha
      exact hI.leaving h' hx ha hstream hcallback

theorem settle (hI : s.OnceBut (some h))
    (hheld : s.accepted h = true → h.op.stream = false → h.op.callback = true →
      s.inTable h ∨ s.invoked h = 1 ∨ h ∈ s.owed) : s.OnceInv :=
  { hI with
    leaving := by
      intro h' _ haccepted hstream hcallback
      by_cases hh : h' = h
      · subst hh
        exact hheld haccepted hstream hcallback
      · exact hI.leaving h' (fun heq => hh (Option.some.inj heq)) haccepted hstream hcallback }

theorem settle_done (hI : s.OnceBut (some h)) (hdirect : h.op.direct = false) (hdone : s.done h = true) :
    s.OnceInv := by
  refine hI.settle fun _ _ _ => .inr (.inl ?_)
  rw [hI.handled h hdirect, hdone]
  rfl

end OnceBut

/-! ## Submission -/

namespace OnceInv

variable {s s' : State} {h : Handle}

theorem submitOneshot (hI : s.OnceInv) (hid : h.id = s.count) (hdirect : h.op.direct = false)
    (hcall : s.callable = true) (t : Try) (fails : Bool) : (s.submitOneshot h t fails).OnceInv := by
  have hlt : h.id < s.count + 1 := by omega
  have hrefused : (s.issue h false).OnceInv := hI.refuse hid
  have htried : ((s.attempt h t).1.issue h false).OnceInv :=
    hrefused.keeps (Keeps.of_frames rfl rfl rfl rfl rfl (fun _ => id)
      (fun f hf => .inr ⟨f, hf, rfl, rfl⟩) (fun _ _ => Nat.le_refl _))
  have hparked : s.refuses h = false → ∀ keys,
      (({ (s.attempt h t).1.reserve h with keys := keys } : State).issue h false).OnceInv := by
    intro hrefuses keys
    simp only [refuses, Bool.or_eq_false_iff] at hrefuses
    exact htried.keeps ((keeps_reserve (s := (s.attempt h t).1.issue h false) hrefuses.2 hdirect hlt).trans
      (keeps_keys keys))
  unfold State.submitOneshot
  rcases prepareOperation_cases s h t fails with
    ⟨hrefuses, heq⟩ | ⟨hrefuses, keys, heq | heq⟩ | ⟨hrefuses, heq⟩
  · rw [heq]
    exact hrefused.keeps (keeps_raise (held_of_callable hcall))
  · rw [heq]
    exact (hparked hrefuses keys).keeps (keeps_raise (held_of_callable hcall))
  · rw [heq]
    change (({ (s.attempt h t).1.reserve h with keys := keys } : State).issue h true).OnceInv
    rw [OnceBut.issue_true]
    refine (hparked hrefuses keys).accept hlt fun _ _ => .inl ?_
    exact inTable_reserve (s := (s.attempt h t).1) (nonzero_of_open hrefuses hdirect)
  · rw [heq]
    have hle : h.id ≤ s.count := Nat.le_of_eq hid
    have hpush : Keeps ((s.attempt h t).1.issue h false)
        (((s.attempt h t).1.issue h false).push [.finish h]) :=
      keeps_push
        (by simp [Frame.Later, Frame.calls, Frame.about, Frame.proper, hdirect, issue, attempt, hlt, hle])
    have hpushed := (htried.keeps hpush).accept (h := h) hlt fun _ _ =>
      .inr (mem_owed.2 ⟨.finish h, mem_append_left _ (mem_cons_self ..), rfl⟩)
    change (((s.attempt h t).1.issue h true).push [.finish h]).OnceInv
    rw [OnceBut.issue_true]
    exact hpushed

theorem enqueue (hI : s.OnceInv) (hid : h.id = s.count) : ((s.enqueueWrite h).issue h true).OnceInv := by
  have hlt : h.id < s.count + 1 := by omega
  rcases hI.fresh hid with ⟨-, -, hinvoked, hplaces⟩
  rcases keeps_enqueueWrite (s := s.issue h false) hlt (by
    change s.places h + s.invoked h = 0
    omega) with ⟨hkeeps, hin⟩
  rw [OnceBut.issue_true]
  exact ((hI.refuse hid).keeps hkeeps).accept hlt fun _ _ => .inl hin

theorem runOutside (hI : s.OnceInv) (hid : h.id = s.count) (hdirect : h.op.direct = true) :
    ((s.issue h true).outside [.run h]).OnceInv := by
  have hlt : h.id < s.count + 1 := by omega
  rcases hI.fresh hid with ⟨-, -, hinvoked, hplaces⟩
  rcases keeps_runOutside (s := s.issue h false) hdirect hlt (by
    change s.places h + s.invoked h = 0
    omega) with ⟨hkeeps, howed⟩
  have haccept := ((hI.refuse hid).keeps hkeeps).accept (h := h) (by
    rw [hkeeps.count]
    exact hlt) fun _ _ => .inr howed
  rw [OnceBut.issue_true]
  have hsame :
      ({ s.issue h false with accepted := Function.update (s.issue h false).accepted h true } :
        State).outside
      [.run h] = { (s.issue h false).outside [.run h] with
        accepted := Function.update ((s.issue h false).outside [.run h]).accepted h true } := by
    rw [hkeeps.accepted]
    unfold outside
    split_ifs <;> rfl
  rw [hsame]
  exact haccept

theorem submitSend (hI : s.OnceInv) (hid : h.id = s.count) (hdirect : h.op.direct = false)
    (hcall : s.callable = true) (t : Try) (fails : Bool) : (s.submitSend h t fails).OnceInv := by
  unfold State.submitSend
  split_ifs
  · exact hI.refuse hid
  · exact hI.enqueue hid
  · exact hI.submitOneshot hid hdirect hcall t fails

theorem runOrEnqueueWrite (hI : s.OnceInv) (hid : h.id = s.count) (hdirect : h.op.direct = true) :
    (s.runOrEnqueueWrite h).OnceInv := by
  unfold State.runOrEnqueueWrite
  split_ifs
  · exact hI.runOutside hid hdirect
  · exact hI.refuse hid
  · exact hI.enqueue hid
  · exact hI.runOutside hid hdirect

theorem submitStream (hI : s.OnceInv) (hid : h.id = s.count) (hstream : h.op.stream = true)
    (hcall : s.callable = true) (t : Try) (fails : Bool) : (s.submitStream h t fails).OnceInv := by
  have hlt : h.id < s.count + 1 := by omega
  have hdirect : h.op.direct = false := by
    cases hop : h.op <;> simp_all [Op.stream, Op.direct]
  have hrefused : (s.issue h false).OnceInv := hI.refuse hid
  have hfree : ¬ s.refuses h = true → s.slotTaken h = false := by
    intro hrefuses
    simp only [refuses, Bool.or_eq_true, not_or, Bool.not_eq_true] at hrefuses
    exact hrefuses.2
  have haccepted : ∀ {s₁ : State}, s₁.OnceInv → s₁.count = s.count + 1 →
      ({ s₁ with accepted := Function.update s₁.accepted h true } : State).OnceInv := by
    intro s₁ h₁ hcount
    refine h₁.accept (by omega) fun hno => ?_
    rw [hstream] at hno
    cases hno
  have hreserved : ¬ s.refuses h = true → ((s.reserve h).issue h false).OnceInv := fun hrefuses =>
    hrefused.keeps (keeps_reserve (s := s.issue h false) (hfree hrefuses) hdirect hlt)
  have hstep : (if s.refuses h then s.issue h false
      else ((s.reserve h).issue h true).stepContinuous h t fails).OnceInv := by
    split_ifs with hrefuses
    · exact hrefused
    · rw [OnceBut.issue_true]
      exact (haccepted (hreserved hrefuses) rfl).keeps
        (keeps_stepContinuous hstream (held_of_callable hcall))
  unfold State.submitStream
  split
  · rename_i b _ _
    rw [OnceBut.issue_true]
    exact (haccepted hrefused rfl).keeps (keeps_emit.trans keeps_userOutside)
  · exact hstep
  · exact hstep
  · split_ifs with hrefuses
    · exact hrefused
    · rcases updateSelectorRegistration_eq (s.reserve h) h.fd fails with ⟨keys, hkeys⟩
      have hupdated := (hreserved hrefuses).keeps (keeps_keys keys)
      split
      · rename_i s' heq
        rw [heq] at hkeys
        simp only at hkeys
        subst hkeys
        exact hupdated.keeps (keeps_raise (held_of_callable hcall))
      · rename_i s' heq
        rw [heq] at hkeys
        simp only at hkeys
        subst hkeys
        rw [OnceBut.issue_true]
        exact haccepted hupdated rfl

theorem submit (hI : s.OnceInv) (hcall : s.callable = true) (op : Op) (t : Try) (fails : Bool) :
    (s.submit op t fails).OnceInv := by
  unfold State.submit
  split
  · exact hI.keeps keeps_userOutside
  · exact hI.submitSend rfl rfl hcall t fails
  · exact hI.submitSend rfl rfl hcall t fails
  · exact hI.runOrEnqueueWrite rfl rfl
  · exact hI.runOrEnqueueWrite rfl rfl
  · exact hI.submitOneshot rfl rfl hcall t fails
  · exact hI.submitOneshot rfl rfl hcall t fails
  · exact hI.submitStream rfl rfl hcall t fails
  · exact hI.submitStream rfl rfl hcall t fails

/-! ## Events and cancellations -/

theorem stepFdOperation (hI : s.OnceInv) (hcall : s.callable = true) (fd : Nat) (event : Event) (t : Try)
    (fails : Bool) : (s.stepFdOperation fd event t fails).OnceInv := by
  unfold State.stepFdOperation
  split
  · exact hI
  · rename_i h hslot
    have hhas : (s.table.entryAt fd).Has h ∧ h.op.direct = false := by
      cases event with
      | read => exact ⟨.inl hslot, hI.sane.reader fd h hslot⟩
      | write => exact ⟨.inr (.inl hslot), hI.sane.writer fd h hslot⟩
    have hfd : h.fd = fd := Table.fd_of_has hhas.1
    have hlt : h.id < s.count := by
      refine hI.sane.held h ?_
      unfold inTable
      rw [hfd]
      exact hhas.1
    split_ifs with hstream hdone
    · exact hI.keeps (keeps_stepContinuous hstream (held_of_callable hcall))
    · exact hI
    · have htried : (s.attempt h t).1.OnceInv :=
        hI.keeps (Keeps.of_frames rfl rfl rfl rfl rfl (fun _ => id)
          (fun f hf => .inr ⟨f, hf, rfl, rfl⟩) (fun _ _ => Nat.le_refl _))
      have hframe : (s.attempt h t).1.stack = s.stack ∧ (s.attempt h t).1.count = s.count := ⟨rfl, rfl⟩
      unfold State.stepOneshot
      split
      · rename_i s₁ heq
        rw [heq] at htried hframe
        exact htried.keeps (keeps_update fun _ => hframe.1 ▸ held_of_callable hcall)
      · rename_i s₁ out hout heq
        rw [heq] at htried hframe
        refine htried.keeps (keeps_removeHandle (fun _ f hf => ?_) fun _ _ =>
          ⟨_, mem_singleton_self _, rfl⟩)
        rw [mem_singleton] at hf
        subst hf
        refine ⟨rfl, by simp [Frame.proper, hhas.2], fun h' ho => ?_⟩
        cases ho
        exact hframe.2 ▸ hlt

theorem selectorStopHandle (hI : s.OnceInv) (hdirect : h.op.direct = false) (hlt : h.id < s.count) :
    (s.selectorStopHandle h).OnceInv := by
  unfold State.selectorStopHandle
  split_ifs
  · exact hI
  · refine hI.keeps (keeps_removeHandle (fun _ f hf => ?_) fun hstream _ =>
      ⟨_, mem_singleton_self _, by simp [Frame.owes, hstream]⟩)
    rw [mem_singleton] at hf
    subst hf
    refine ⟨rfl, by simp [Frame.proper, hdirect], fun h' ho => ?_⟩
    cases ho
    exact hlt

/-! ## Hand-overs -/

end OnceInv

namespace OnceBut

variable {s s' : State} {h : Handle} {x : Option Handle}

theorem callBack (hI : s.OnceBut (some h)) (hdirect : h.op.direct = true) (hlt : h.id < s.count)
    (hnone : s.places h + s.invoked h = 0) : (s.callBack h).OnceInv := by
  have hself : Function.update s.invoked h (s.invoked h + 1) h = 1 := by
    rw [update_self]
    omega
  refine settle (h := h) ⟨⟨hI.sane.proper, hI.sane.known, hI.sane.reader, hI.sane.writer, hI.sane.held⟩,
    hI.accepted_lt, hI.done_lt, fun h' hi => ?_, fun h' hd => ?_, hI.pending, hI.single, fun h' hd => ?_,
    fun h' hx ha hs hc => ?_⟩ fun _ _ _ => .inr (.inl hself)
  · by_cases hh : h' = h
    · exact hh ▸ hlt
    · simp only [State.callBack, update_of_ne hh] at hi
      exact hI.invoked_lt h' hi
  · have hh : h' ≠ h := by
      rintro rfl
      rw [hdirect] at hd
      cases hd
    simp only [State.callBack, update_of_ne hh]
    exact hI.handled h' hd
  · change s.places h' + Function.update s.invoked h (s.invoked h + 1) h' ≤ 1
    by_cases hh : h' = h
    · subst hh
      rw [hself]
      omega
    · rw [update_of_ne hh]
      exact hI.whole h' hd
  · have hh : h' ≠ h := fun heq => hx (by rw [heq])
    simp only [State.callBack, update_of_ne hh]
    exact hI.leaving h' hx ha hs hc

theorem callSync (hI : s.OnceBut (some h)) (hdirect : h.op.direct = true) (hlt : h.id < s.count)
    (hnone : s.places h + s.invoked h = 0) (t : Try) : (s.callSync h t).1.OnceInv := by
  rcases runDirect_eq s h t with ⟨effects, closed, hrun, -⟩
  have hran : (s.runDirect h t).OnceBut (some h) := by
    rw [hrun]
    exact hI.keeps (Keeps.of_users (u := []) rfl rfl rfl rfl rfl (by simp) (List.Perm.refl _))
  rw [callSync_fst]
  split_ifs with hcallback
  · rw [hrun] at hran ⊢
    exact hran.callBack hdirect hlt hnone
  · refine hran.settle fun _ _ hc => ?_
    rw [hc] at hcallback
    exact absurd rfl hcallback

end OnceBut

namespace OnceInv

variable {s s' : State} {h : Handle}

theorem popleft {e : Nat} {q : List Handle} (hI : s.OnceInv)
    (hqueue : (s.table.entries e).writeQueue = h :: q) :
    ({ s with table := s.table.popleft e } : State).OnceBut (some h) ∧
      (h.op.direct = true → ({ s with table := s.table.popleft e } : State).places
        h + s.invoked h = 0) := by
  have hentry := entryAt_popleft hqueue
  have hcount : ∀ h', ((s.table.popleft e).entryAt h'.fd).writeQueue.count h' ≤
      (s.table.entryAt h'.fd).writeQueue.count h' := by
    intro h'
    rcases hentry h'.fd with ⟨hsame, -⟩ | ⟨-, hq, hpop⟩
    · exact Nat.le_of_eq (by rw [hsame])
    · rw [hpop, hq]
      exact (sublist_cons_self h q).count_le h'
  refine ⟨⟨⟨hI.sane.proper, hI.sane.known, fun fd h' hreader => ?_, fun fd h' hwriter => ?_,
    fun h' hin => ?_⟩, hI.accepted_lt, hI.done_lt, hI.invoked_lt, hI.handled, hI.pending, hI.single,
    fun h' hd => ?_, fun h' hx ha hs hc => ?_⟩, fun hdirect => ?_⟩
  · change ((s.table.popleft e).entryAt fd).reader = some h' at hreader
    rcases hentry fd with ⟨hsame, -⟩ | ⟨-, -, hpop⟩
    · rw [hsame] at hreader
      exact hI.sane.reader fd h' hreader
    · rw [hpop] at hreader
      exact hI.sane.reader fd h' hreader
  · change ((s.table.popleft e).entryAt fd).writer = some h' at hwriter
    rcases hentry fd with ⟨hsame, -⟩ | ⟨-, -, hpop⟩
    · rw [hsame] at hwriter
      exact hI.sane.writer fd h' hwriter
    · rw [hpop] at hwriter
      exact hI.sane.writer fd h' hwriter
  · refine hI.sane.held h' ?_
    change ((s.table.popleft e).entryAt h'.fd).Has h' at hin
    rcases hentry h'.fd with ⟨hsame, -⟩ | ⟨-, hq, hpop⟩
    · rw [hsame] at hin
      exact hin
    · rw [hpop] at hin
      refine hin.imp_right (Or.imp_right fun hmem => ?_)
      rw [hq]
      exact mem_cons_of_mem _ hmem
  · exact Nat.le_trans (Nat.add_le_add_right (Nat.add_le_add_right (hcount h') _) _) (hI.whole h' hd)
  · have hh : h' ≠ h := fun heq => hx (by rw [heq])
    refine (hI.leaving h' (by simp) ha hs hc).imp_left fun hin => ?_
    change ((s.table.popleft e).entryAt h'.fd).Has h'
    rcases hentry h'.fd with ⟨hsame, -⟩ | ⟨-, hq, hpop⟩
    · rw [hsame]
      exact hin
    · rw [hpop]
      refine hin.imp_right (Or.imp_right fun hmem => ?_)
      rw [hq] at hmem
      exact (mem_cons.1 hmem).resolve_left hh
  · have hwhole := hI.whole h hdirect
    rcases hentry h.fd with ⟨-, hne⟩ | ⟨-, hq, hpop⟩
    · exact absurd rfl hne
    · change ((s.table.popleft e).entryAt h.fd).writeQueue.count h + s.frames.count
          (.run h) + s.invoked h = 0
      unfold places at hwhole
      rw [hq, count_cons_self] at hwhole
      rw [hpop]
      simp only
      omega

theorem drainWriteQueue {e : Nat} {st : List Frame} (hI : s.OnceInv) (hstack : s.stack = .drain e :: st)
    (t : Try) (fails : Bool) : (s.drainWriteQueue e st t fails).OnceInv := by
  unfold State.drainWriteQueue
  split
  · rename_i h q hqueue hwriter
    have hhas : (s.table.entries e).Has h := .inr (.inr (by rw [hqueue]; simp))
    have hlt : h.id < s.count := hI.sane.held h (by
      unfold inTable
      rw [Table.entryAt_of_has hhas]
      exact hhas)
    rcases hI.popleft hqueue with ⟨hpop, hnone⟩
    unfold State.runItem
    split_ifs with hdirect hdone
    · refine (hpop.callSync hdirect hlt (hnone hdirect) t).keeps (keeps_push fun f hf => ?_)
      rw [(callSync_eq _ h t).2 f hf]
      exact ⟨rfl, rfl, fun h' ho => by cases ho⟩
    · exact hpop.settle_done (by simpa using hdirect) hdone
    · have hnot : h.op.direct = false := by simpa using hdirect
      have htried : (({ s with table := s.table.popleft e } : State).attempt h t).1.OnceBut (some h) :=
        hpop.keeps (Keeps.of_users (u := []) rfl rfl rfl rfl rfl (by simp) (List.Perm.refl _))
      have hparked : ({ s with table := s.table.popleft e } : State).refuses h = false → ∀ keys,
          ({ (({ s with table := s.table.popleft e } : State).attempt h t).1.reserve h with
            keys := keys } : State).OnceBut (some h) := by
        intro hrefuses keys
        simp only [refuses, Bool.or_eq_false_iff] at hrefuses
        exact htried.keeps
          ((keeps_reserve (s := (({ s with table := s.table.popleft e } : State).attempt h t).1)
          hrefuses.2 hnot hlt).trans (keeps_keys keys))
      have hfinish : ∀ {s₁ : State}, s₁.OnceBut (some h) → s₁.count = s.count →
          (s₁.push [.finish h]).OnceInv := by
        intro s₁ h₁ hcount
        have hpush : Keeps s₁ (s₁.push [.finish h]) := by
          refine keeps_push fun f hf => ?_
          rw [mem_singleton] at hf
          subst hf
          refine ⟨rfl, by simp [Frame.proper, hnot], fun h' ho => ?_⟩
          cases ho
          rw [hcount]
          exact hlt
        refine (h₁.keeps hpush).settle fun _ _ _ => .inr (.inr ?_)
        exact mem_owed.2 ⟨.finish h, mem_append_left _ (mem_cons_self ..), rfl⟩
      rcases prepareOperation_cases { s with table := s.table.popleft e } h t fails with
        ⟨-, heq⟩ | ⟨hrefuses, keys, heq | heq⟩ | ⟨-, heq⟩
      · rw [heq]
        exact hfinish hpop rfl
      all_goals rw [heq]
      · exact hfinish (hparked hrefuses keys) rfl
      · refine (hparked hrefuses keys).settle fun _ _ _ => .inl ?_
        exact inTable_reserve (s := (({ s with table := s.table.popleft e } : State).attempt h t).1)
          (nonzero_of_open hrefuses hnot)
      · exact hfinish htried rfl
  · exact hI.keeps (keeps_pop hstack rfl)

/-! ## Reports -/

theorem drop (hI : s.OnceInv) {f : Frame} {rest : List Frame} (hperm : s.frames.Perm (f :: rest)) :
    ({ s with stack := rest, loose := [] } : State).OnceBut f.owes := by
  have hframes : ({ s with stack := rest, loose := [] } : State).frames = rest := append_nil rest
  have hmem : ∀ {g}, g ∈ rest → g ∈ s.frames := fun hg => hperm.mem_iff.2 (mem_cons_of_mem _ hg)
  have hcount : ∀ g, rest.count g ≤ s.frames.count g := by
    intro g
    rw [hperm.count_eq]
    exact (sublist_cons_self f rest).count_le g
  refine ⟨⟨fun g hg => ?_, fun g hg h' ho => ?_, hI.sane.reader, hI.sane.writer, hI.sane.held⟩,
    hI.accepted_lt, hI.done_lt, hI.invoked_lt, hI.handled, fun h' hg => ?_, fun h' => ?_, fun h' hd => ?_,
    fun h' hx ha hs hc => ?_⟩
  · rw [hframes] at hg
    exact hI.sane.proper g (hmem hg)
  · rw [hframes] at hg
    exact hI.sane.known g (hmem hg) h' ho
  · rw [hframes] at hg
    exact hI.pending h' (hmem hg)
  · rw [hframes]
    exact Nat.le_trans (hcount _) (hI.single h')
  · refine Nat.le_trans (Nat.add_le_add_right (Nat.add_le_add_left ?_ _) _) (hI.whole h' hd)
    rw [hframes]
    exact hcount _
  · rcases hI.leaving h' (by simp) ha hs hc with hin | hone | ho
    · exact .inl hin
    · exact .inr (.inl hone)
    · right
      right
      rcases mem_owed.1 ho with ⟨g, hg, ho⟩
      rcases mem_cons.1 (hperm.mem_iff.1 hg) with rfl | hg
      · exact absurd ho.symm hx
      · refine mem_owed.2 ⟨g, ?_, ho⟩
        rw [hframes]
        exact hg

end OnceInv

namespace OnceBut

variable {s s' : State} {h : Handle}

theorem invoke (hI : s.OnceBut (some h)) (hdirect : h.op.direct = false) (hlt : h.id < s.count)
    (hdone : s.done h = false) (hfree : Frame.invoke h ∉ s.frames) {st lo : List Frame}
    (hperm : (st ++ lo).Perm (.invoke h :: s.frames)) :
    ({ s with stack := st, loose := lo } : State).OnceInv := by
  have hframes : ({ s with stack := st, loose := lo } : State).frames = st ++ lo := rfl
  have hcases : ∀ {g}, g ∈ st ++ lo → g = .invoke h ∨ g ∈ s.frames := fun hg =>
    mem_cons.1 (hperm.mem_iff.1 hg)
  refine settle (h := h) ⟨⟨fun g hg => ?_, fun g hg h' ho => ?_, hI.sane.reader,
    hI.sane.writer, hI.sane.held⟩,
    hI.accepted_lt, hI.done_lt, hI.invoked_lt, hI.handled, fun h' hg => ?_, fun h' => ?_, fun h' hd => ?_,
    fun h' hx ha hs hc => ?_⟩ fun _ _ _ => .inr (.inr (mem_owed.2
      ⟨.invoke h, hperm.mem_iff.2 (mem_cons_self ..), rfl⟩))
  · rcases hcases hg with rfl | hg
    · simp [Frame.proper, hdirect]
    · exact hI.sane.proper g hg
  · rcases hcases hg with rfl | hg
    · cases ho
      exact hlt
    · exact hI.sane.known g hg h' ho
  · rcases hcases hg with heq | hg
    · cases heq
      exact hdone
    · exact hI.pending h' hg
  · rw [hframes, hperm.count_eq]
    by_cases hh : h' = h
    · subst hh
      exact Nat.le_of_eq (by rw [count_cons_self, count_eq_zero.2 hfree])
    · rw [count_cons_of_ne (by simpa using fun heq => hh heq.symm)]
      exact hI.single h'
  · refine Nat.le_trans (Nat.add_le_add_right (Nat.add_le_add_left ?_ _) _) (hI.whole h' hd)
    exact Nat.le_of_eq (by rw [hframes, hperm.count_eq, count_cons_of_ne (by simp)])
  · refine (hI.leaving h' hx ha hs hc).imp_right (Or.imp_right fun ho => ?_)
    rcases mem_owed.1 ho with ⟨g, hg, ho⟩
    exact mem_owed.2 ⟨g, hperm.mem_iff.2 (mem_cons_of_mem _ hg), ho⟩

theorem called (hI : s.OnceBut (some h)) (hdirect : h.op.direct = false) (hlt : h.id < s.count)
    (hdone : s.done h = false) (hfree : Frame.invoke h ∉ s.frames) :
    (({ s with done := Function.update s.done h true } : State).callBack h).OnceInv := by
  have hzero : s.invoked h = 0 := by
    rw [hI.handled h hdirect, hdone]
    rfl
  have hself : Function.update s.invoked h (s.invoked h + 1) h = 1 := by
    rw [update_self, hzero]
  refine settle (h := h) ⟨⟨hI.sane.proper, hI.sane.known, hI.sane.reader, hI.sane.writer, hI.sane.held⟩,
    hI.accepted_lt, fun h' hd => ?_, fun h' hi => ?_, fun h' hd => ?_, fun h' hg => ?_, hI.single,
    fun h' hd => ?_, fun h' hx ha hs hc => ?_⟩ fun _ _ _ => .inr (.inl hself)
  · by_cases hh : h' = h
    · exact hh ▸ hlt
    · simp only [State.callBack, update_of_ne hh] at hd
      exact hI.done_lt h' hd
  · by_cases hh : h' = h
    · exact hh ▸ hlt
    · simp only [State.callBack, update_of_ne hh] at hi
      exact hI.invoked_lt h' hi
  · by_cases hh : h' = h
    · subst hh
      simp [State.callBack, hzero]
    · simp only [State.callBack, update_of_ne hh]
      exact hI.handled h' hd
  · have hh : h' ≠ h := by
      rintro rfl
      exact hfree hg
    simp only [State.callBack, update_of_ne hh]
    exact hI.pending h' hg
  · have hh : h' ≠ h := by
      rintro rfl
      rw [hdirect] at hd
      cases hd
    change s.places h' + Function.update s.invoked h (s.invoked h + 1) h' ≤ 1
    rw [update_of_ne hh]
    exact hI.whole h' hd
  · have hh : h' ≠ h := fun heq => hx (by rw [heq])
    simp only [State.callBack, update_of_ne hh]
    exact hI.leaving h' hx ha hs hc

end OnceBut

namespace OnceInv

variable {s s' : State} {h : Handle}

theorem report (hI : s.OnceInv) {f : Frame} {t : Try} {fs us rest st lo : List Frame}
    (hr : s.report f t = some (s', fs)) (hperm : s.frames.Perm (f :: rest))
    (hus : us = fs ∨ us = fs.filter (· ≠ .user)) (hframes : (st ++ lo).Perm (us ++ rest))
    (hfree : ∀ h, f = .finish h → ¬ s.Contended h) :
    ({ s' with stack := st, loose := lo } : State).OnceInv := by
  have hmem : f ∈ s.frames := hperm.mem_iff.2 (mem_cons_self ..)
  have hproper := hI.sane.proper f hmem
  have hdrop := hI.drop hperm
  have hrest : ({ s with stack := rest, loose := [] } : State).frames = rest := append_nil rest
  have husers : (∀ g ∈ fs, g = .user) → ∀ g ∈ us, g = .user := by
    intro hall g hg
    rcases hus with rfl | rfl
    · exact hall g hg
    · exact hall g (mem_filter.1 hg).1
  cases f with
  | finish h =>
    have hdirect : h.op.direct = false := by simpa [Frame.proper] using hproper
    have hlt := hI.sane.known _ hmem h rfl
    simp only [State.report, Option.some.injEq] at hr
    split at hr
    · rename_i hdone
      cases hr
      refine (hdrop.settle_done hdirect hdone).keeps (Keeps.of_users (u := us) rfl rfl rfl rfl rfl
        (husers (by simp)) ?_)
      rw [hrest]
      exact hframes
    · rename_i hdone
      cases hr
      have hnot : s.done h = false := by simpa using hdone
      have hus' : us = [.invoke h] := by
        rcases hus with rfl | rfl <;> simp
      refine hdrop.invoke hdirect hlt hnot (fun hin => ?_) ?_
      · rw [hrest] at hin
        exact hfree h rfl ⟨hnot, hperm.mem_iff.2 (mem_cons_of_mem _ hin)⟩
      · rw [hrest]
        rw [hus'] at hframes
        exact hframes
  | invoke h =>
    cases hr
    have hdirect : h.op.direct = false := by simpa [Frame.proper] using hproper
    have hlt := hI.sane.known _ hmem h rfl
    have hfree : Frame.invoke h ∉ rest := by
      have hone := hI.single h
      rw [hperm.count_eq, count_cons_self] at hone
      rw [← count_eq_zero]
      omega
    refine (hdrop.called hdirect hlt (hI.pending h hmem) (by rwa [hrest])).keeps
      (Keeps.of_users (u := us) rfl rfl rfl rfl rfl (husers (by simp)) ?_)
    change (st ++ lo).Perm (us ++ (rest ++ []))
    rw [append_nil]
    exact hframes
  | run h =>
    have hcall : s.callSync h t = (s', fs) := Option.some.inj hr
    have hlt := hI.sane.known _ hmem h rfl
    have hnone : ({ s with stack := rest, loose := [] } : State).places h + s.invoked h = 0 := by
      have hwhole := hI.whole h hproper
      unfold places at hwhole ⊢
      rw [hperm.count_eq, count_cons_self] at hwhole
      rw [hrest]
      simp only
      omega
    have hcalled := hdrop.callSync hproper hlt hnone t
    -- `run()` does not look at the code in progress
    have hsame : ∀ stack loose, ({ s with stack := stack, loose := loose } : State).callSync h t =
        ({ (s.callSync h t).1 with stack := stack, loose := loose }, (s.callSync h t).2) := by
      intro stack loose
      exact callSync_frames s h t stack loose
    rw [hsame, hcall] at hcalled
    refine hcalled.keeps (Keeps.of_users (u := us) rfl rfl rfl rfl rfl (husers ?_) ?_)
    · have hall := (callSync_eq s h t).2
      rw [hcall] at hall
      exact hall
    · change (st ++ lo).Perm (us ++ (rest ++ []))
      rw [append_nil]
      exact hframes
  | endStream h =>
    cases hr
    refine hdrop.keeps (Keeps.of_users (u := us) rfl rfl rfl rfl rfl (husers (by simp)) ?_)
    change (st ++ lo).Perm (us ++ (rest ++ []))
    rw [append_nil]
    exact hframes
  | _ => cases hr

/-! ## Steps -/

end OnceInv

/-- What keeps the account over a step: no exception leaves a call that still owes a callback,
neither the error of a registration update nor one of a callback, and nobody passes the test of
`_done` of a handle while another call is past it. -/
def Reported (s : State) : Action → Prop
  | .throw e => Held e s.stack.tail
  | .go _ fails =>
    match s.stack with
    | .removeTail fd :: st => (s.updateSelectorRegistration fd fails).2 = true → Held .os st
    | .streamTail h _ :: st => (s.updateSelectorRegistration h.fd fails).2 = true → Held .os st
    | .finish h :: _ => ¬ s.Contended h
    | _ => True
  | .loose i _ =>
    match s.loose[i]? with
    | some (.finish h) => ¬ s.Contended h
    | _ => True
  | _ => True

instance (s : State) (a : Action) : Decidable (s.Reported a) := by
  unfold Reported
  split
  · infer_instance
  · split <;> infer_instance
  · split <;> infer_instance
  · infer_instance

namespace OnceInv

variable {s s' : State}

theorem go {t : Try} {fails : Bool} (hI : s.OnceInv) (hok : s.Reported (.go t fails))
    (hgo : s.go t fails = some s') : s'.OnceInv := by
  rcases hstack : s.stack with - | ⟨f, st⟩
  · simp [State.go, hstack] at hgo
  have hperm : s.frames.Perm (f :: (st ++ s.loose)) := by
    unfold frames
    rw [hstack]
    exact List.Perm.refl _
  have hreport : (∀ h, f = .finish h → ¬ s.Contended h) →
      (s.report f t).map (fun x => { x.1 with stack := x.2 ++ st }) = some s' → s'.OnceInv := by
    intro hfree hmap
    rw [Option.map_eq_some_iff] at hmap
    rcases hmap with ⟨⟨s₁, fs⟩, hr, rfl⟩
    have hloose : s₁.loose = s.loose := (report_frame hr).2.1
    have hframes : ((fs ++ st) ++ s₁.loose).Perm (fs ++ (st ++ s.loose)) := by
      rw [hloose, append_assoc]
    exact hI.report hr hperm (.inl rfl) hframes hfree
  have hpop : f.about = none → ({ s with stack := st } : State).OnceInv := fun hf =>
    hI.keeps (keeps_pop hstack hf)
  cases f with
  | user => simp [State.go, hstack] at hgo
  | drain e =>
    simp only [State.go, hstack, Option.some.injEq] at hgo
    subst hgo
    exact hI.drainWriteQueue hstack t fails
  | removeTail fd =>
    simp only [State.go, hstack, Option.some.injEq] at hgo
    subst hgo
    simp only [Reported, hstack] at hok
    exact (hpop rfl).keeps (keeps_removeTail (s := { s with stack := st }) fun hfails => hok (by
      rw [← updateSelectorRegistration_stack s st]
      exact hfails))
  | stopTail h removed =>
    simp only [State.go, hstack, Option.some.injEq] at hgo
    subst hgo
    exact hI.keeps (keeps_stopTail hstack hI.sane)
  | advance h i =>
    simp only [State.go, hstack, Option.some.injEq] at hgo
    subst hgo
    exact (hpop rfl).keeps (Keeps.of_users (u := []) rfl rfl rfl rfl rfl (by simp) (List.Perm.refl _))
  | streamTail h done =>
    have hstream : h.op.stream = true := hI.sane.proper (.streamTail h done) (by
      unfold frames
      rw [hstack]
      exact mem_cons_self ..)
    cases done with
    | true =>
      simp only [State.go, hstack, Option.some.injEq] at hgo
      subst hgo
      refine (hpop rfl).keeps (keeps_removeHandle (by simp) fun hno => ?_)
      rw [hstream] at hno
      cases hno
    | false =>
      simp only [State.go, hstack, Option.some.injEq] at hgo
      subst hgo
      simp only [Reported, hstack] at hok
      exact (hpop rfl).keeps (keeps_update (s := { s with stack := st }) fun hfails => hok (by
        rw [← updateSelectorRegistration_stack s st]
        exact hfails))
  | failStream h =>
    have hstream : h.op.stream = true := hI.sane.proper (.failStream h) (by
      unfold frames
      rw [hstack]
      exact mem_cons_self ..)
    simp only [State.go, hstack, Option.some.injEq] at hgo
    subst hgo
    refine (hpop rfl).keeps (keeps_removeHandle
      (by simp [Frame.Later, Frame.calls, Frame.about, Frame.proper]) fun hno => ?_)
    rw [hstream] at hno
    cases hno
  | finish h =>
    simp only [State.go, hstack] at hgo
    simp only [Reported, hstack] at hok
    refine hreport (fun h' heq => ?_) hgo
    cases heq
    exact hok
  | invoke h =>
    simp only [State.go, hstack] at hgo
    exact hreport (by simp) hgo
  | run h =>
    simp only [State.go, hstack] at hgo
    exact hreport (by simp) hgo
  | endStream h =>
    simp only [State.go, hstack] at hgo
    exact hreport (by simp) hgo

theorem goLoose {i : Nat} {t : Try} (hI : s.OnceInv) (hok : s.Reported (.loose i t))
    (hgo : s.goLoose i t = some s') : s'.OnceInv := by
  unfold State.goLoose at hgo
  split at hgo
  · cases hgo
  · rename_i f hf
    rw [Option.map_eq_some_iff] at hgo
    rcases hgo with ⟨⟨s₁, fs⟩, hr, rfl⟩
    rcases List.getElem?_eq_some_iff.1 hf with ⟨hi, hget⟩
    have herase : s.loose.Perm (f :: s.loose.eraseIdx i) := by
      rw [← hget]
      exact (getElem_cons_eraseIdx_perm hi).symm
    have hperm : s.frames.Perm (f :: (s.stack ++ s.loose.eraseIdx i)) :=
      (herase.append_left s.stack).trans perm_middle
    have hstack : s₁.stack = s.stack := (report_frame hr).1
    refine hI.report hr hperm (.inr rfl) ?_ fun h heq => ?_
    · rw [hstack, ← append_assoc]
      exact perm_append_comm
    · simp only [Reported, hf, heq] at hok
      exact hok

/-- A frame of the selector calls its operation back at most once. -/
theorem step {a : Action} (hI : s.OnceInv) (hok : s.Reported a) (hs : step s a = some s') : s'.OnceInv := by
  cases a with
  | submit op t fails =>
    simp only [Selector.step] at hs
    split at hs
    · rename_i hcall
      cases hs
      exact hI.submit hcall op t fails
    · cases hs
  | ready fd event t fails =>
    simp only [Selector.step] at hs
    split at hs
    · rename_i hcall
      cases hs
      exact hI.stepFdOperation hcall fd event t fails
    · cases hs
  | stop h =>
    simp only [Selector.step] at hs
    split at hs
    · rename_i hguard
      cases hs
      simp only [Bool.and_eq_true, Bool.not_eq_true', decide_eq_true_eq] at hguard
      exact hI.selectorStopHandle hguard.1.2 hguard.2
    · cases hs
  | go t fails => exact hI.go hok hs
  | back =>
    simp only [Selector.step] at hs
    split at hs
    · rename_i st hstack
      cases hs
      exact hI.keeps (keeps_pop hstack rfl)
    · cases hs
  | throw e =>
    simp only [Selector.step] at hs
    split at hs
    · rename_i st hstack
      cases hs
      simp only [Reported, hstack, tail_cons] at hok
      exact hI.keeps (keeps_unwind ⟨.user, .inl ⟨hstack, rfl⟩⟩ hok)
    · cases hs
  | loose i t => exact hI.goLoose hok hs
  | closeSock k =>
    cases hs
    exact hI.keeps (Keeps.of_users (u := []) rfl rfl rfl rfl rfl (by simp) (List.Perm.refl _))
  | close =>
    simp only [Selector.step] at hs
    split at hs
    · cases hs
      exact hI.keeps (Keeps.of_users (u := []) rfl rfl rfl rfl rfl (by simp) (List.Perm.refl _))
    · cases hs

theorem init : init.OnceInv where
  sane := ⟨by simp [frames, Selector.init], by simp [frames, Selector.init],
    nofun, nofun, fun h hin => by
      rcases hin with hreader | hwriter | hqueue
      · cases hreader
      · cases hwriter
      · cases hqueue⟩
  accepted_lt := by simp [Selector.init]
  done_lt := by simp [Selector.init]
  invoked_lt := by simp [Selector.init]
  handled := by simp [Selector.init]
  pending := by simp [frames, Selector.init]
  single := by simp [frames, Selector.init]
  whole := fun h _ => Nat.zero_le _
  leaving := by simp [Selector.init]

end OnceInv

/-- Every one-shot operation is reported once, by the call that takes it out of the table. -/
structure OnceEach (s : State) : Prop where
  atMostOnce : ∀ h, h.op.stream = false → s.invoked h ≤ 1
  byLeaving : ∀ h, h.op.stream = false → h.op.callback = true → s.accepted h = true → ¬ s.inTable h →
    s.invoked h = 1 ∨ h ∈ s.owed
  /-- with no call in progress there is nothing owed -/
  atRest : s.stack = [] → s.loose = [] → ∀ h, h.op.stream = false → h.op.callback = true →
    s.accepted h = true → ¬ s.inTable h → s.invoked h = 1

theorem OnceInv.onceEach {s : State} (hI : s.OnceInv) : s.OnceEach := by
  have hleaving : ∀ h, h.op.stream = false → h.op.callback = true → s.accepted h = true → ¬ s.inTable h →
      s.invoked h = 1 ∨ h ∈ s.owed := fun h hstream hcallback haccepted hout =>
    (hI.leaving h (by simp) haccepted hstream hcallback).resolve_left hout
  refine ⟨fun h _ => ?_, hleaving, fun hstack hloose h hstream hcallback haccepted hout => ?_⟩
  · cases hdirect : h.op.direct with
    | false =>
      rw [hI.handled h hdirect]
      exact Bool.toNat_le _
    | true => exact Nat.le_trans (Nat.le_add_left ..) (hI.whole h hdirect)
  · refine (hleaving h hstream hcallback haccepted hout).resolve_right ?_
    simp [owed, frames, hstack, hloose]

end State

/-! ## Runs -/

theorem one_callback_each (as : List Action) (hok : Along step State.Reported init as) :
    Always step State.OnceEach init as :=
  always_of_along (fun _ hI => hI.onceEach) (fun _ _ _ hI hC hs => hI.step hC hs) as init
    State.OnceInv.init hok

/-- A reader waits on a descriptor; the close queued behind a `send_all` runs when that completes.
The selector is told that only the reader is left, and answers with `fails`. -/
def queuedClose (fails : Bool) : List Action :=
  let k : Sock := ⟨0, 3⟩
  [.submit (.recv k) ⟨[], .blocked⟩ false, .submit (.sendAll k [1, 2]) ⟨[1], .blocked⟩ false,
    .submit (.closeSocket k true) {} false, .ready 3 .write ⟨[1], .finished⟩ false, .go {} false, .back,
    .go {} false, .go {} fails]

theorem one_callback_each_queuedClose : Played step (Always step State.OnceEach) init (queuedClose false) :=
  ⟨one_callback_each (queuedClose false) (by decide), by decide⟩

/-- The descriptor is closed, so the selector refuses the update, and the callback of the `send_all`
is never called. -/
theorem queued_close_loses_callback :
    ∃ s, exec step init (queuedClose true) = some s ∧ ¬ s.OnceEach := by
  refine ⟨_, rfl, fun honce => ?_⟩
  have hlost :=
    honce.atRest (by decide) (by decide) ⟨1, .sendAll ⟨0, 3⟩ [1, 2]⟩ rfl rfl (by decide) (by decide)
  revert hlost
  decide

end Pytealet.Selector
