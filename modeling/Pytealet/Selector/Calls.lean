import Mathlib.Tactic.SplitIfs
import Pytealet.Selector.Machine

/-!
# Selector.Calls — what each call of the proactor can do

One lemma for each function of the machine, in the form of the states it can lead to.  Later modules
follow the calls through these and never unfold the functions.
-/

namespace Pytealet.Selector.State

variable {s : State} {h : Handle} {t : Try} {fd : Nat} {fails : Bool}

theorem updateSelectorRegistration_eq (s : State) (fd : Nat) (fails : Bool) :
    ∃ keys, (s.updateSelectorRegistration fd fails).1 = { s with keys := keys } := by
  simp only [updateSelectorRegistration]
  repeat' split
  all_goals exact ⟨_, rfl⟩

theorem update_eq (s : State) (fd : Nat) (fails : Bool) :
    ∃ keys, s.update fd fails =
      { s with
        keys := keys
        stack := if (s.updateSelectorRegistration fd fails).2 then unwind .os s.stack else s.stack } := by
  rcases updateSelectorRegistration_eq s fd fails with ⟨keys, hkeys⟩
  refine ⟨keys, ?_⟩
  unfold update
  split
  · rename_i s' heq
    rw [heq] at hkeys ⊢
    simp only at hkeys
    subst hkeys
    simp [raise]
  · rename_i s' heq
    rw [heq] at hkeys ⊢
    simp only at hkeys
    subst hkeys
    simp

theorem attempt_of_not_queued (h : Handle) (t : Try) (hq : h.op.queued = false) :
    (s.attempt h t).1 = s := by
  have hpure : h.op.attempt (s.offset h) t = (s.offset h, [], t.outcome) := by
    cases hop : h.op <;> simp_all [Op.attempt, Op.queued]
  simp [attempt, hpure, Function.update_eq_self]

theorem attempt_table (s : State) (h : Handle) (t : Try) (table : Table) :
    ({ s with table := table } : State).attempt h t =
      ({ (s.attempt h t).1 with table := table }, (s.attempt h t).2) :=
  rfl

theorem runDirect_of_closed (h : Handle) (t : Try) (hclosed : h.closedIn s.closedSocks = true) :
    s.runDirect h t = s := by
  unfold runDirect
  split
  · rename_i k how c hop
    simp only [Handle.closedIn, hop, Op.sock?] at hclosed
    simp [hclosed]
  · rename_i k c hop
    simp only [Handle.closedIn, hop, Op.sock?] at hclosed
    simp [hclosed]
  · rfl

theorem runDirect_eq (s : State) (h : Handle) (t : Try) :
    ∃ (effects : List Effect) (closed : Sock → Bool),
      s.runDirect h t =
        { s with wire := s.wire ++ effects.map (fun x => (h, x)), closedSocks := closed } ∧
      (∀ k, s.closedSocks k = true → closed k = true) := by
  unfold runDirect
  split
  · rename_i how _ _
    split
    · exact ⟨[.shutdown how], s.closedSocks, rfl, fun _ => id⟩
    · exact ⟨[], s.closedSocks, by simp, fun _ => id⟩
  · rename_i k₀ _ _
    split
    · exact ⟨[], s.closedSocks, by simp, fun _ => id⟩
    · refine ⟨[.close], _, rfl, fun k hk => ?_⟩
      by_cases hkk : k = k₀
      · subst hkk
        rw [Function.update_self]
      · rw [Function.update_of_ne hkk]
        exact hk
  · exact ⟨[], s.closedSocks, by simp, fun _ => id⟩

theorem callSync_table (s : State) (h : Handle) (t : Try) (table : Table) :
    ({ s with table := table } : State).callSync h t =
      ({ (s.callSync h t).1 with table := table }, (s.callSync h t).2) := by
  have hrun : ({ s with table := table } : State).runDirect h t =
      { s.runDirect h t with table := table } := by
    unfold runDirect
    split
    · split <;> rfl
    · split <;> rfl
    · rfl
  unfold callSync
  rw [hrun]
  split
  · rfl
  · split <;> rfl

theorem callSync_eq (s : State) (h : Handle) (t : Try) :
    ((s.callSync h t).1 = s.runDirect h t ∨ (s.callSync h t).1 = (s.runDirect h t).callBack h) ∧
      ∀ f ∈ (s.callSync h t).2, f = Frame.user := by
  unfold callSync
  split
  · exact ⟨.inr rfl, by simp⟩
  · split
    · exact ⟨.inl rfl, by simp⟩
    · exact ⟨.inl rfl, by simp⟩

theorem callSync_frames (s : State) (h : Handle) (t : Try) (stack loose : List Frame) :
    ({ s with stack := stack, loose := loose } : State).callSync h t =
      ({ (s.callSync h t).1 with stack := stack, loose := loose }, (s.callSync h t).2) := by
  have hrun : ({ s with stack := stack, loose := loose } : State).runDirect h t =
      { s.runDirect h t with stack := stack, loose := loose } := by
    unfold runDirect
    split
    · split <;> rfl
    · split <;> rfl
    · rfl
  unfold callSync
  rw [hrun]
  split
  · rfl
  · split <;> rfl

theorem callSync_fst (s : State) (h : Handle) (t : Try) :
    (s.callSync h t).1 = if h.op.callback then (s.runDirect h t).callBack h else s.runDirect h t := by
  unfold callSync
  split
  · rfl
  · split <;> rfl

theorem callSync_frame (s : State) (h : Handle) (t : Try) :
    (s.callSync h t).1.table = s.table ∧ (s.callSync h t).1.stack = s.stack ∧
      (s.callSync h t).1.loose = s.loose ∧ (s.callSync h t).1.count = s.count := by
  rcases runDirect_eq s h t with ⟨effects, closed, hrun, -⟩
  rcases (callSync_eq s h t).1 with heq | heq
  · rw [heq, hrun]
    exact ⟨rfl, rfl, rfl, rfl⟩
  · rw [heq, hrun]
    exact ⟨rfl, rfl, rfl, rfl⟩

theorem userOutside_eq (s : State) : ∃ stack, s.userOutside = { s with stack := stack } := by
  unfold userOutside
  split_ifs
  · exact ⟨s.stack, rfl⟩
  · exact ⟨_, rfl⟩

theorem stepContinuous_eq (s : State) (h : Handle) (t : Try) (fails : Bool) :
    ∃ keys deliveries stack, s.stepContinuous h t fails =
      { s with keys := keys, deliveries := deliveries, stack := stack } := by
  unfold stepContinuous
  split
  · rcases update_eq s h.fd fails with ⟨keys, heq⟩
    exact ⟨keys, s.deliveries, _, heq⟩
  · split
    · exact ⟨s.keys, _, _, rfl⟩
    · exact ⟨s.keys, _, _, rfl⟩
  · split
    · exact ⟨s.keys, _, _, rfl⟩
    · exact ⟨s.keys, s.deliveries, _, rfl⟩

theorem prepareOperation_cases (s : State) (h : Handle) (t : Try) (fails : Bool) :
    (s.refuses h = true ∧ s.prepareOperation h t fails = (s, .raised .exception)) ∨
    (s.refuses h = false ∧ ∃ keys,
      (s.prepareOperation h t fails = ({ (s.attempt h t).1.reserve h with keys := keys }, .raised .os) ∨
        s.prepareOperation h t fails = ({ (s.attempt h t).1.reserve h with keys := keys }, .parked))) ∨
    (s.refuses h = false ∧ s.prepareOperation h t fails = ((s.attempt h t).1, .ended)) := by
  unfold prepareOperation
  split_ifs with hrefuses
  · exact .inl ⟨hrefuses, rfl⟩
  · have hopen : s.refuses h = false := by simpa using hrefuses
    split
    · rename_i s₁ heq
      right
      left
      refine ⟨hopen, ?_⟩
      rcases updateSelectorRegistration_eq (s₁.reserve h) h.fd fails with ⟨keys, hkeys⟩
      refine ⟨keys, ?_⟩
      rw [heq]
      split
      · rename_i s₂ hupdate
        rw [hupdate] at hkeys
        exact .inl (by rw [← hkeys])
      · rename_i s₂ hupdate
        rw [hupdate] at hkeys
        exact .inr (by rw [← hkeys])
    · rename_i s₁ out hout heq
      exact .inr (.inr ⟨hopen, by rw [heq]⟩)

theorem removeHandle_cases (s : State) (h : Handle) (k : Bool → List Frame) :
    (¬ (s.table.entryAt h.fd).Has h ∧ s.removeHandle h k = s.push (k false)) ∨
    (∃ e, s.table.slots h.fd = some e ∧ (s.table.entryAt h.fd).Has h ∧
      s.removeHandle h k = ({ s with table := s.table.clear e h } : State).push
        ((if (s.table.entryAt h.fd).writer = some h then [Frame.drain e] else []) ++
          Frame.removeTail h.fd :: k true)) := by
  unfold removeHandle
  split
  · rename_i hslot
    left
    rw [Table.entryAt_of_none hslot]
    exact ⟨by simp [Entry.Has], rfl⟩
  · rename_i e hslot
    rw [Table.entryAt_of_slots hslot]
    by_cases hhas : (s.table.entries e).Has h
    · right
      refine ⟨e, hslot, hhas, ?_⟩
      rw [if_pos hhas]
    · left
      refine ⟨hhas, ?_⟩
      rw [if_neg hhas]

theorem removeHandle_eq (s : State) (h : Handle) (k : Bool → List Frame) :
    ∃ table stack, s.removeHandle h k = { s with table := table, stack := stack } := by
  rcases removeHandle_cases s h k with ⟨-, heq⟩ | ⟨e, -, -, heq⟩
  · exact ⟨s.table, _, heq⟩
  · exact ⟨_, _, heq⟩

theorem removeTail_cases (s : State) (fd : Nat) (fails : Bool) :
    (s.removeTail fd fails = s.update fd fails) ∨
    (∃ hempty : (s.table.entryAt fd).empty = true,
      s.removeTail fd fails = ({ s with table := s.table.delete fd hempty } : State).update fd fails) := by
  unfold removeTail
  split_ifs with hempty
  · exact .inr ⟨hempty, rfl⟩
  · exact .inl rfl

theorem removeTail_eq (s : State) (fd : Nat) (fails : Bool) :
    ∃ table keys stack, s.removeTail fd fails =
      { s with table := table, keys := keys, stack := stack } := by
  rcases removeTail_cases s fd fails with heq | ⟨hempty, heq⟩
  · rcases update_eq s fd fails with ⟨keys, hupdate⟩
    exact ⟨s.table, keys, _, heq.trans hupdate⟩
  · rcases update_eq { s with table := s.table.delete fd hempty } fd fails with ⟨keys, hupdate⟩
    exact ⟨_, keys, _, heq.trans hupdate⟩

theorem report_frame {s s' : State} {f : Frame} {t : Try} {fs : List Frame}
    (hr : s.report f t = some (s', fs)) :
    s'.stack = s.stack ∧ s'.loose = s.loose ∧ s'.count = s.count ∧ s'.table = s.table ∧
      (∀ e, f ≠ .drain e) ∧ ∀ g ∈ fs, g = .user ∨ ∃ h, f = .finish h ∧ g = .invoke h := by
  cases f with
  | finish h =>
    simp only [report, Option.some.injEq] at hr
    split at hr
    · cases hr
      exact ⟨rfl, rfl, rfl, rfl, by simp, by simp⟩
    · cases hr
      exact ⟨rfl, rfl, rfl, rfl, by simp, by simp⟩
  | invoke h =>
    cases hr
    exact ⟨rfl, rfl, rfl, rfl, by simp, by simp⟩
  | run h =>
    have hcall : s.callSync h t = (s', fs) := Option.some.inj hr
    rcases callSync_frame s h t with ⟨htable, hstack, hloose, hcount⟩
    have husers := (callSync_eq s h t).2
    rw [hcall] at htable hstack hloose hcount husers
    exact ⟨hstack, hloose, hcount, htable, by simp, fun g hg => .inl (husers g hg)⟩
  | endStream h =>
    cases hr
    exact ⟨rfl, rfl, rfl, rfl, by simp, by simp⟩
  | _ => cases hr

end Pytealet.Selector.State
