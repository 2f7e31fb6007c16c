import Pytealet.Lib.Line
import Pytealet.Selector.Calls

/-!
# Selector.WriteLine — who waits on the write side of a descriptor

`line s fd` lists, by their numbers, the write-side operations of `fd` that have been submitted and
may still take effect: the one in the writer slot, those in the queue, and those that found the
write side idle and are about to run.  `effects s fd` is what has been done to the descriptor.

Most of what the proactor does is `Quiet` here: it only takes operations out of the line.
-/

namespace Pytealet.Selector

open Lib List
open Function (update_of_ne update_self)

/-- The writer, when it is a queued operation, and the queue behind it. -/
def Entry.writeLine (en : Entry) : List Nat :=
  ((en.writer.toList.filter fun h => h.op.queued) ++ en.writeQueue).map (·.id)

/-- A `run()` on `fd` that is still to come, of a socket that is open. -/
def Frame.runOn (closed : Sock → Bool) (fd : Nat) : Frame → Option Nat
  | .run h => if h.fd = fd ∧ h.closedIn closed = false then some h.id else none
  | _ => none

def Frame.isDrain : Frame → Bool
  | .drain _ => true
  | _ => false

namespace State

def runs (s : State) (fd : Nat) : List Nat :=
  (s.stack ++ s.loose).filterMap (Frame.runOn s.closedSocks fd)

def line (s : State) (fd : Nat) : List Nat :=
  (s.table.entryAt fd).writeLine ++ s.runs fd

def effects (s : State) (fd : Nat) : List (Handle × Effect) :=
  s.wire.filter fun x => x.1.fd = fd

def log (s : State) (fd : Nat) : List Nat :=
  (s.effects fd).map (·.1.id)

/-- A `run()` that is still to come has the write side of its descriptor to itself. -/
def Alone (s : State) : Prop :=
  ∀ fd, s.runs fd = [] ∨ ((s.table.entryAt fd).writeLine = [] ∧ (s.runs fd).length ≤ 1)

/-- The reader slot never holds a queued operation. -/
def Tidy (s : State) : Prop :=
  ∀ fd h, (s.table.entryAt fd).reader = some h → h.op.queued = false

/-- A queue without a writer in front of it is being drained. -/
def Drained (s : State) : Prop :=
  ∀ fd e, s.table.slots fd = some e → (s.table.entryAt fd).writeQueue ≠ [] →
    (s.table.entryAt fd).writer ≠ none ∨ Frame.drain e ∈ s.stack

end State

/-! ## Exceptions on the stack -/

theorem runOn_unwind (closed : Sock → Bool) (fd : Nat) (e : Exc) (st : List Frame) :
    ((unwind e st).filterMap (Frame.runOn closed fd)).Sublist (st.filterMap (Frame.runOn closed fd)) := by
  induction st with
  | nil => exact List.Sublist.refl _
  | cons f st ih =>
    -- a frame is left, or it handles the exception and stays in another form
    have hleft := ih.trans ((sublist_cons_self f st).filterMap (Frame.runOn closed fd))
    cases f <;> cases e <;> first | exact hleft | exact List.Sublist.refl _

theorem drain_mem_unwind {e : Exc} {st : List Frame} {en : Nat} (he : e ≠ .base)
    (hmem : Frame.drain en ∈ st) : Frame.drain en ∈ unwind e st := by
  induction st with
  | nil => exact hmem
  | cons f st ih => cases f <;> cases e <;> simp_all [unwind]

/-! ## Quiet changes -/

/-- Nothing takes effect, and nobody joins a line. -/
structure Quiet (s s' : State) : Prop where
  wire : s'.wire = s.wire
  offset : s'.offset = s.offset
  line : ∀ fd, (s'.line fd).Sublist (s.line fd)
  alone : s.Alone → s'.Alone
  tidy : s.Tidy → s'.Tidy
  drained : s.Drained → s'.Drained

namespace Quiet

variable {s s' s'' : State}

theorem refl (s : State) : Quiet s s where
  wire := rfl
  offset := rfl
  line := fun _ => List.Sublist.refl _
  alone := id
  tidy := id
  drained := id

theorem trans (h : Quiet s s') (h' : Quiet s' s'') : Quiet s s'' where
  wire := h'.wire.trans h.wire
  offset := h'.offset.trans h.offset
  line := fun fd => (h'.line fd).trans (h.line fd)
  alone := h'.alone ∘ h.alone
  tidy := h'.tidy ∘ h.tidy
  drained := h'.drained ∘ h.drained

theorem of_sublists (hwire : s'.wire = s.wire) (hoffset : s'.offset = s.offset)
    (hline : ∀ fd, (s'.table.entryAt fd).writeLine.Sublist (s.table.entryAt fd).writeLine)
    (hruns : ∀ fd, (s'.runs fd).Sublist (s.runs fd)) (htidy : s.Tidy → s'.Tidy)
    (hdrained : s.Drained → s'.Drained) : Quiet s s' where
  wire := hwire
  offset := hoffset
  line := fun fd => (hline fd).append (hruns fd)
  alone := by
    intro h fd
    rcases h fd with hnone | ⟨hidle, hone⟩
    · left
      exact sublist_nil.1 (hnone ▸ hruns fd)
    · right
      exact ⟨sublist_nil.1 (hidle ▸ hline fd), (hruns fd).length_le.trans hone⟩
  tidy := htidy
  drained := hdrained

theorem of_frames (htable : s'.table = s.table) (hwire : s'.wire = s.wire)
    (hoffset : s'.offset = s.offset) (hruns : ∀ fd, (s'.runs fd).Sublist (s.runs fd))
    (hdrains : ∀ e, Frame.drain e ∈ s.stack → Frame.drain e ∈ s'.stack) : Quiet s s' := by
  refine of_sublists hwire hoffset (fun fd => ?_) hruns (fun h => ?_) ?_
  · rw [htable]
  · unfold State.Tidy
    rw [htable]
    exact h
  · intro h fd e hslot hqueue
    rw [htable] at hslot hqueue ⊢
    exact (h fd e hslot hqueue).imp_right (hdrains e)

end Quiet

/-! ## Entries -/

namespace Entry

variable {en : Entry} {h : Handle}

theorem writeLine_clear : (en.clear h).writeLine.Sublist en.writeLine := by
  refine List.Sublist.map _ (List.Sublist.append ?_ filter_sublist)
  refine List.Sublist.filter _ ?_
  simp only [clear]
  split_ifs
  · exact nil_sublist _
  · exact List.Sublist.refl _

theorem writeLine_reserve {q : List Handle} (hwriter : en.writer = none) (hqueue : en.writeQueue = h :: q) :
    (({ en with writeQueue := q } : Entry).reserve h).writeLine.Sublist en.writeLine := by
  simp only [writeLine, reserve, hwriter, hqueue]
  cases h.op.mask.write <;> cases hq : h.op.queued <;> simp [hq]

end Entry

theorem Op.not_queued_of_read {op : Op} (hread : op.mask.read = true) : op.queued = false := by
  cases op <;> simp_all [Op.mask, Op.queued]

/-! ## The calls that are quiet -/

namespace State

variable {s : State} {h : Handle} {fd : Nat} {fs st : List Frame}

theorem Drained.put (hdrained : s.Drained) {en : Entry} {own : ∀ h, en.Has h → h.fd = fd}
    (hen : en.writeQueue ≠ [] → en.writer ≠ none ∨
      (s.table.entryAt fd).writeQueue ≠ [] ∧ en.writer = (s.table.entryAt fd).writer) :
    ({ s with table := s.table.put fd en own } : State).Drained := by
  intro f e hs hqueue
  have hat : (s.table.put fd en own).entryAt = Function.update s.table.entryAt fd en := Table.entryAt_put
  -- the entry object is the one the descriptor had
  have hkept : (s.table.entryAt f).writeQueue ≠ [] → s.table.slots f = some e := by
    intro hq
    cases hslot : s.table.slots f with
    | none =>
      rw [Table.entryAt_of_none hslot] at hq
      exact absurd rfl hq
    | some e' =>
      have hs' : (s.table.put fd en own).slots f = some e := hs
      rw [Table.slots_put hslot] at hs'
      exact hs'
  change ((s.table.put fd en own).entryAt f).writeQueue ≠ [] at hqueue
  change ((s.table.put fd en own).entryAt f).writer ≠ none ∨ _
  rw [hat] at hqueue ⊢
  by_cases hf : f = fd
  · subst hf
    rw [update_self] at hqueue ⊢
    rcases hen hqueue with hwriter | ⟨hq, hsame⟩
    · exact .inl hwriter
    · rw [hsame]
      exact hdrained _ _ (hkept hq) hq
  · rw [update_of_ne hf] at hqueue ⊢
    exact hdrained _ _ (hkept hqueue) hqueue

theorem filterMap_runOn {closed : Sock → Bool} (hfs : ∀ f ∈ fs, ∀ h, f ≠ Frame.run h) :
    fs.filterMap (Frame.runOn closed fd) = [] := by
  rw [filterMap_eq_nil_iff]
  intro f hf
  cases f with
  | run h => exact absurd rfl (hfs _ hf h)
  | _ => rfl

theorem runs_push (hfs : ∀ f ∈ fs, ∀ h, f ≠ Frame.run h) : (s.push fs).runs fd = s.runs fd := by
  simp only [runs, push, append_assoc]
  rw [filterMap_append, filterMap_runOn hfs, nil_append]

theorem quiet_push (hfs : ∀ f ∈ fs, ∀ h, f ≠ Frame.run h) : Quiet s (s.push fs) := by
  refine Quiet.of_frames rfl rfl rfl (fun fd => ?_) (fun e he => mem_append_right _ he)
  rw [runs_push hfs]

theorem quiet_raise {e : Exc} (he : e ≠ .base) : Quiet s (s.raise e) := by
  refine Quiet.of_frames rfl rfl rfl (fun fd => ?_) (fun en hen => drain_mem_unwind he hen)
  simp only [runs, raise, filterMap_append]
  exact (runOn_unwind _ _ _ _).append (List.Sublist.refl _)

theorem quiet_keys (keys : Nat → Option Mask) : Quiet s { s with keys := keys } :=
  Quiet.of_frames rfl rfl rfl (fun _ => List.Sublist.refl _) (fun _ => id)

theorem quiet_update (fails : Bool) : Quiet s (s.update fd fails) := by
  rcases update_eq s fd fails with ⟨keys, hupdate⟩
  rw [hupdate]
  cases (s.updateSelectorRegistration fd fails).2 with
  | false => exact quiet_keys keys
  | true => exact (quiet_keys keys).trans (quiet_raise (by decide))

theorem quiet_issue (ok : Bool) : Quiet s (s.issue h ok) :=
  Quiet.of_frames rfl rfl rfl (fun _ => List.Sublist.refl _) (fun _ => id)

theorem quiet_callBack : Quiet s (s.callBack h) :=
  Quiet.of_frames rfl rfl rfl (fun _ => List.Sublist.refl _) (fun _ => id)

theorem quiet_emit {d : Delivery} : Quiet s (s.emit h d) :=
  Quiet.of_frames rfl rfl rfl (fun _ => List.Sublist.refl _) (fun _ => id)

theorem quiet_userOutside : Quiet s s.userOutside := by
  unfold userOutside
  split_ifs
  · exact Quiet.refl s
  · exact quiet_push (by simp)

theorem runs_outside (s : State) (fs : List Frame) (fd : Nat) :
    (s.outside fs).runs fd = s.runs fd ++ fs.filterMap (Frame.runOn s.closedSocks fd) ∨
      (s.outside fs).runs fd = fs.filterMap (Frame.runOn s.closedSocks fd) ++ s.runs fd := by
  unfold outside
  split_ifs
  · left
    simp only [runs, ← append_assoc]
    rw [filterMap_append]
  · right
    simp only [runs, push, append_assoc]
    rw [filterMap_append]

theorem outside_frame (s : State) (fs : List Frame) :
    ∃ stack loose, s.outside fs = { s with stack := stack, loose := loose } ∧
      ∀ f ∈ s.stack, f ∈ stack := by
  unfold outside
  split_ifs
  · exact ⟨s.stack, _, rfl, fun _ => id⟩
  · exact ⟨_, s.loose, rfl, fun _ => mem_append_right _⟩

theorem quiet_outside (hfs : ∀ f ∈ fs, ∀ h, f ≠ Frame.run h) : Quiet s (s.outside fs) := by
  rcases outside_frame s fs with ⟨stack, loose, heq, hstack⟩
  have hruns : ∀ fd, (s.outside fs).runs fd = s.runs fd := by
    intro fd
    rcases runs_outside s fs fd with h | h
    · rw [h, filterMap_runOn hfs, append_nil]
    · rw [h, filterMap_runOn hfs, nil_append]
  rw [heq] at hruns ⊢
  exact Quiet.of_frames rfl rfl rfl (fun fd => by rw [hruns fd]) (fun e he => hstack _ he)

theorem quiet_pop {f : Frame} (hstack : s.stack = f :: st) (hf : ∀ e, f ≠ .drain e) :
    Quiet s { s with stack := st } := by
  refine Quiet.of_frames rfl rfl rfl (fun fd => ?_) (fun e he => ?_)
  · simp only [runs, hstack]
    exact List.Sublist.filterMap _ (sublist_cons_self _ _)
  · rw [hstack] at he
    exact (mem_cons.1 he).resolve_left (fun heq => hf e heq.symm)

theorem quiet_removeHandle {k : Bool → List Frame} (hk : ∀ b, ∀ f ∈ k b, ∀ h, f ≠ Frame.run h) :
    Quiet s (s.removeHandle h k) := by
  rcases removeHandle_cases s h k with ⟨-, heq⟩ | ⟨e, hslot, hhas, heq⟩
  · rw [heq]
    exact quiet_push (hk false)
  · rw [heq]
    have hat : (s.table.clear e h).entryAt = Function.update s.table.entryAt h.fd
        ((s.table.entries e).clear h) :=
      Table.entryAt_shrink hslot
    rw [← Table.entryAt_of_slots hslot] at hat
    refine Quiet.of_sublists rfl rfl (fun fd => ?_) (fun fd => ?_) (fun htidy fd h' hreader => ?_)
      (fun hdrained fd e' hs hq => ?_)
    · simp only [State.push, hat]
      by_cases hfd : fd = h.fd
      · subst hfd
        rw [update_self]
        exact Entry.writeLine_clear
      · rw [update_of_ne hfd]
    · have hframes : ∀ f ∈ (if (s.table.entryAt h.fd).writer = some h then [Frame.drain e] else []) ++
          Frame.removeTail h.fd :: k true, ∀ h', f ≠ Frame.run h' := by
        intro f hf h'
        rcases mem_append.1 hf with hf | hf
        · split_ifs at hf
          · simp_all
          · simp at hf
        · rcases mem_cons.1 hf with rfl | hf
          · simp
          · exact hk true f hf h'
      rw [runs_push hframes]
      exact List.Sublist.refl _
    · simp only [State.push, hat] at hreader
      by_cases hfd : fd = h.fd
      · subst hfd
        rw [update_self] at hreader
        simp only [Entry.clear] at hreader
        split_ifs at hreader
        exact htidy _ h' hreader
      · rw [update_of_ne hfd] at hreader
        exact htidy fd h' hreader
    · simp only [State.push, hat] at hq ⊢
      by_cases hfd : fd = h.fd
      · subst hfd
        have he : e' = e := by
          have hs' : s.table.slots h.fd = some e' := hs
          rw [hslot] at hs'
          exact (Option.some.inj hs').symm
        subst he
        rw [update_self] at hq ⊢
        by_cases hwriter : (s.table.entryAt h.fd).writer = some h
        · right
          simp [hwriter]
        · have hq' : (s.table.entryAt h.fd).writeQueue ≠ [] := by
            intro hnil
            exact hq (by simp [Entry.clear, hnil])
          have hkeep : ((s.table.entryAt h.fd).clear h).writer = (s.table.entryAt h.fd).writer :=
            if_neg hwriter
          rw [hkeep]
          refine (hdrained _ _ hslot hq').imp_right fun hmem => ?_
          exact mem_append_right _ hmem
      · rw [update_of_ne hfd] at hq ⊢
        refine (hdrained fd e' hs hq).imp_right fun hmem => ?_
        exact mem_append_right _ hmem

theorem quiet_delete (hempty : (s.table.entryAt fd).empty = true) :
    Quiet s { s with table := s.table.delete fd hempty } := by
  have hat := Table.entryAt_delete hempty
  refine Quiet.of_sublists rfl rfl (fun f => ?_) (fun f => List.Sublist.refl _)
    (fun htidy f h hreader => ?_) (fun hdrained f e hs hq => ?_)
  · simp only [hat]
    exact List.Sublist.refl _
  · simp only [hat] at hreader
    exact htidy f h hreader
  · simp only [hat] at hq ⊢
    refine hdrained f e ?_ hq
    by_cases hf : f = fd
    · simp [Table.delete, hf] at hs
    · simpa [Table.delete, hf] using hs

theorem quiet_removeTail (fails : Bool) : Quiet s (s.removeTail fd fails) := by
  rcases removeTail_cases s fd fails with heq | ⟨hempty, heq⟩
  · rw [heq]
    exact quiet_update fails
  · rw [heq]
    exact (quiet_delete hempty).trans (quiet_update fails)

theorem tidy_reserve (htidy : s.Tidy) : (s.reserve h).Tidy := by
  intro fd h' hreader
  have hat : (s.table.reserve h).entryAt =
      Function.update s.table.entryAt h.fd ((s.table.entryAt h.fd).reserve h) := Table.entryAt_put
  simp only [reserve, hat] at hreader
  by_cases hfd : fd = h.fd
  · subst hfd
    rw [update_self] at hreader
    simp only [Entry.reserve] at hreader
    split_ifs at hreader with hmask
    · cases hreader
      exact Op.not_queued_of_read hmask
    · exact htidy _ h' hreader
  · rw [update_of_ne hfd] at hreader
    exact htidy fd h' hreader

theorem drained_reserve (hdrained : s.Drained) : (s.reserve h).Drained := by
  refine Drained.put hdrained fun hqueue => ?_
  simp only [Entry.reserve] at hqueue ⊢
  split_ifs
  · exact .inl (by simp)
  · exact .inr ⟨hqueue, rfl⟩

theorem quiet_reserve (hfree : s.slotTaken h = false) (hqueued : h.op.queued = false) :
    Quiet s (s.reserve h) := by
  have hat : (s.table.reserve h).entryAt =
      Function.update s.table.entryAt h.fd ((s.table.entryAt h.fd).reserve h) := Table.entryAt_put
  simp only [slotTaken, Bool.or_eq_false_iff, Bool.and_eq_false_iff, Option.isSome_eq_false_iff,
    Option.isNone_iff_eq_none] at hfree
  refine Quiet.of_sublists rfl rfl (fun fd => ?_) (fun fd => List.Sublist.refl _)
    tidy_reserve drained_reserve
  · simp only [reserve, hat]
    by_cases hfd : fd = h.fd
    · subst hfd
      rw [update_self]
      cases hmask : h.op.mask.write with
      | false => simp [Entry.writeLine, Entry.reserve, hmask]
      | true =>
        have hwriter : (s.table.entryAt h.fd).writer = none := hfree.2.resolve_left (by simp [hmask])
        simp [Entry.writeLine, Entry.reserve, hmask, hwriter, hqueued]
    · rw [update_of_ne hfd]

theorem quiet_popleft {e : Nat} {q : List Handle} (hqueue : (s.table.entries e).writeQueue = h :: q)
    (hdrain : Frame.drain e ∈ s.stack) : Quiet s { s with table := s.table.popleft e } := by
  have hslot : s.table.slots h.fd = some e := s.table.home (.inr (.inr (by rw [hqueue]; simp)))
  have hat : (s.table.popleft e).entryAt = Function.update s.table.entryAt h.fd
      { s.table.entries e with writeQueue := (s.table.entries e).writeQueue.tail } :=
    Table.entryAt_shrink hslot
  rw [← Table.entryAt_of_slots hslot] at hat
  refine Quiet.of_sublists rfl rfl (fun fd => ?_) (fun fd => List.Sublist.refl _)
    (fun htidy fd h' hreader => ?_) (fun hdrained fd e' hs hq => ?_)
  · simp only [hat]
    by_cases hfd : fd = h.fd
    · subst hfd
      rw [update_self]
      exact List.Sublist.map _ ((List.Sublist.refl _).append (tail_sublist _))
    · rw [update_of_ne hfd]
  · simp only [hat] at hreader
    by_cases hfd : fd = h.fd
    · subst hfd
      rw [update_self] at hreader
      exact htidy _ h' hreader
    · rw [update_of_ne hfd] at hreader
      exact htidy fd h' hreader
  · simp only [hat] at hq ⊢
    by_cases hfd : fd = h.fd
    · subst hfd
      have he : e = e' := Option.some.inj (hslot.symm.trans hs)
      exact .inr (he ▸ hdrain)
    · rw [update_of_ne hfd] at hq ⊢
      exact hdrained fd e' hs hq

theorem quiet_popReserve {e : Nat} {q : List Handle} (hqueue : (s.table.entries e).writeQueue = h :: q)
    (hwriter : (s.table.entries e).writer = none) (hdrain : Frame.drain e ∈ s.stack) :
    Quiet s (({ s with table := s.table.popleft e } : State).reserve h) := by
  have hpop := quiet_popleft hqueue hdrain
  have hslot : s.table.slots h.fd = some e := s.table.home (.inr (.inr (by rw [hqueue]; simp)))
  have hat : (s.table.popleft e).entryAt = Function.update s.table.entryAt h.fd
      { s.table.entries e with writeQueue := (s.table.entries e).writeQueue.tail } :=
    Table.entryAt_shrink hslot
  have hput : ((s.table.popleft e).reserve h).entryAt = Function.update (s.table.popleft e).entryAt h.fd
      (((s.table.popleft e).entryAt h.fd).reserve h) := Table.entryAt_put
  refine Quiet.of_sublists rfl rfl (fun fd => ?_) (fun fd => List.Sublist.refl _)
    (fun htidy => tidy_reserve (hpop.tidy htidy)) (fun hdrained => drained_reserve (hpop.drained hdrained))
  simp only [reserve, hput]
  by_cases hfd : fd = h.fd
  · subst hfd
    rw [update_self, hat, update_self, Table.entryAt_of_slots hslot]
    have hline := Entry.writeLine_reserve hwriter hqueue
    rw [show (s.table.entries e).writeQueue.tail = q by rw [hqueue]; rfl]
    exact hline
  · rw [update_of_ne hfd, hat, update_of_ne hfd]

theorem quiet_drained {e : Nat} (hstack : s.stack = Frame.drain e :: st)
    (hend : (s.table.entries e).writeQueue ≠ [] → (s.table.entries e).writer ≠ none) :
    Quiet s { s with stack := st } := by
  refine Quiet.of_sublists rfl rfl (fun fd => List.Sublist.refl _) (fun fd => ?_) id
    (fun hdrained fd e' hs hq => ?_)
  · simp only [runs, hstack]
    exact List.Sublist.filterMap _ (sublist_cons_self _ _)
  · have hslot : s.table.slots fd = some e' := hs
    rcases hdrained fd e' hs hq with hwriter | hmem
    · exact .inl hwriter
    · rw [hstack] at hmem
      rcases mem_cons.1 hmem with heq | hmem
      · cases heq
        rw [Table.entryAt_of_slots hslot] at hq
        left
        change (s.table.entryAt fd).writer ≠ none
        rw [Table.entryAt_of_slots hslot]
        exact hend hq
      · exact .inr hmem

theorem quiet_stepContinuous (t : Try) (fails : Bool) : Quiet s (s.stepContinuous h t fails) := by
  unfold stepContinuous
  split
  · exact quiet_update fails
  · split
    · exact quiet_emit.trans (quiet_push (by simp))
    · exact quiet_emit.trans (quiet_push (by simp))
  · split
    · exact quiet_emit.trans (quiet_push (by simp))
    · exact quiet_push (by simp)

end State

end Pytealet.Selector
