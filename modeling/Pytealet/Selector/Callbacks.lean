import Pytealet.Selector.Calls

/-!
# Selector.Callbacks — who still has to call the callback of an operation

`s.owed` lists the operations that have been taken out of the table, or were never in it, and whose
callback is called by a frame that is still on the stack or loose.  Most of what the proactor does
`Keeps` the account: an operation that leaves the table becomes owed, and what is owed stays owed.
-/

namespace Pytealet.Selector

open List

namespace Frame

/-- The operation whose callback the frame is going to see to. -/
def owes : Frame → Option Handle
  | .finish h | .invoke h | .run h => some h
  | .stopTail h _ => if h.op.stream then none else some h
  | _ => none

/-- The operation the frame reports on. -/
def about : Frame → Option Handle
  | .finish h | .invoke h | .run h | .stopTail h _ => some h
  | _ => none

/-- Only an operation with a handle is finished or stopped, and only one without is run; the tails
of a stream's step belong to streams. -/
def proper : Frame → Bool
  | .finish h | .invoke h | .stopTail h _ => !h.op.direct
  | .run h => h.op.direct
  | .streamTail h _ | .failStream h => h.op.stream
  | _ => true

/-- The frames from which a callback may be called in the next step. -/
def calls : Frame → Bool
  | .invoke _ | .run _ => true
  | _ => false

variable {f : Frame} {h : Handle}

theorem owes_of_plain (hf : f.about = none) : f.owes = none := by
  cases f <;> first | rfl | cases hf

end Frame

namespace State

def inTable (s : State) (h : Handle) : Prop :=
  (s.table.entryAt h.fd).Has h

instance (s : State) (h : Handle) : Decidable (s.inTable h) :=
  inferInstanceAs (Decidable ((s.table.entryAt h.fd).Has h))

def frames (s : State) : List Frame :=
  s.stack ++ s.loose

def owed (s : State) : List Handle :=
  s.frames.filterMap Frame.owes

/-- Where an operation without a handle still is: in the queue, or about to run. -/
def places (s : State) (h : Handle) : Nat :=
  (s.table.entryAt h.fd).writeQueue.count h + s.frames.count (.run h)

theorem mem_owed {s : State} {h : Handle} : h ∈ s.owed ↔ ∃ f ∈ s.frames, f.owes = some h :=
  mem_filterMap

/-- Slots and frames only hold operations they can serve, and nothing is held that was never
submitted. -/
structure Sane (s : State) : Prop where
  proper : ∀ f ∈ s.frames, f.proper = true
  known : ∀ f ∈ s.frames, ∀ h, f.about = some h → h.id < s.count
  reader : ∀ fd h, (s.table.entryAt fd).reader = some h → h.op.direct = false
  writer : ∀ fd h, (s.table.entryAt fd).writer = some h → h.op.direct = false
  held : ∀ h, s.inTable h → h.id < s.count

end State

/-! ## Exceptions on the stack -/

theorem unwind_mem {e : Exc} {st : List Frame} {f : Frame} (hf : f ∈ unwind e st) :
    ∃ g ∈ st, g.about = f.about ∧ g.proper = f.proper := by
  induction st with
  | nil => cases hf
  | cons g st ih =>
    have hleft : f ∈ unwind e st → ∃ g' ∈ g :: st, g'.about = f.about ∧ g'.proper = f.proper := by
      intro hmem
      rcases ih hmem with ⟨g', hg', hsame⟩
      exact ⟨g', mem_cons_of_mem _ hg', hsame⟩
    have hkept : ∀ g' : Frame, g.about = g'.about → g.proper = g'.proper → f ∈ g' :: st →
        ∃ g' ∈ g :: st, g'.about = f.about ∧ g'.proper = f.proper := by
      intro g' habout hproper hmem
      rcases mem_cons.1 hmem with rfl | hmem
      · exact ⟨g, mem_cons_self .., habout, hproper⟩
      · exact ⟨f, mem_cons_of_mem _ hmem, rfl, rfl⟩
    cases g with
    | user => exact hkept .user rfl rfl hf
    | drain en => cases e <;> first | exact hkept (.drain en) rfl rfl hf | exact hleft hf
    | stopTail h r => cases e <;> first | exact hleft hf | exact hkept (.stopTail h true) rfl rfl hf
    | streamTail h d =>
      cases e with
      | blocking => exact hkept (.streamTail h false) rfl rfl hf
      | os => exact hkept (.failStream h) rfl rfl hf
      | exception => exact hkept (.failStream h) rfl rfl hf
      | base => exact hleft hf
    | _ => exact hleft hf

theorem unwind_count {e : Exc} {st : List Frame} {f : Frame} (hf : f.calls = true) :
    (unwind e st).count f ≤ st.count f := by
  induction st with
  | nil => exact Nat.le_refl _
  | cons g st ih =>
    have htail : st.count f ≤ (g :: st).count f := (sublist_cons_self g st).count_le f
    have hleft : (unwind e st).count f ≤ (g :: st).count f := Nat.le_trans ih htail
    have hother : ∀ g' : Frame, g'.calls = false → (g' :: st).count f ≤ (g :: st).count f := by
      intro g' hcalls
      have hne : g' ≠ f := by
        rintro rfl
        rw [hf] at hcalls
        cases hcalls
      rw [count_cons_of_ne hne]
      exact htail
    cases g with
    | user => exact Nat.le_refl _
    | drain en => cases e <;> first | exact Nat.le_refl _ | exact hleft
    | stopTail h r => cases e <;> first | exact hleft | exact hother (.stopTail h true) rfl
    | streamTail h d =>
      cases e with
      | blocking => exact hother (.streamTail h false) rfl
      | os => exact hother (.failStream h) rfl
      | exception => exact hother (.failStream h) rfl
      | base => exact hleft
    | _ => exact hleft

/-! ## The account -/

structure Keeps (s s' : State) : Prop where
  accepted : s'.accepted = s.accepted
  done : s'.done = s.done
  invoked : s'.invoked = s.invoked
  count : s'.count = s.count
  left : ∀ h, h.op.stream = false → s.inTable h → s'.inTable h ∨ h ∈ s'.owed
  owed : ∀ h ∈ s.owed, h ∈ s'.owed
  sane : s.Sane → s'.Sane
  invokes : ∀ h, s'.frames.count (.invoke h) ≤ s.frames.count (.invoke h)
  /-- an operation without a handle is in no more places, or it has just arrived -/
  places : ∀ h, s'.places h ≤ s.places h ∨ s'.places h + s.invoked h ≤ 1

namespace Keeps

variable {s s' s'' : State}

theorem refl (s : State) : Keeps s s where
  accepted := rfl
  done := rfl
  invoked := rfl
  count := rfl
  left := fun _ _ => .inl
  owed := fun _ => id
  sane := id
  invokes := fun _ => Nat.le_refl _
  places := fun _ => .inl (Nat.le_refl _)

theorem trans (h : Keeps s s') (h' : Keeps s' s'') : Keeps s s'' where
  accepted := h'.accepted.trans h.accepted
  done := h'.done.trans h.done
  invoked := h'.invoked.trans h.invoked
  count := h'.count.trans h.count
  left := fun k hk hin => (h.left k hk hin).elim (h'.left k hk) fun ho => .inr (h'.owed k ho)
  owed := fun k hk => h'.owed k (h.owed k hk)
  sane := h'.sane ∘ h.sane
  invokes := fun k => Nat.le_trans (h'.invokes k) (h.invokes k)
  places := by
    intro k
    have hinvoked := congrFun h.invoked k
    rcases h'.places k with hle | hone
    · rcases h.places k with hle' | hone'
      · exact .inl (Nat.le_trans hle hle')
      · exact .inr (Nat.le_trans (Nat.add_le_add_right hle _) hone')
    · rw [hinvoked] at hone
      exact .inr hone

theorem of_frames (haccepted : s'.accepted = s.accepted) (hdone : s'.done = s.done)
    (hinvoked : s'.invoked = s.invoked) (hcount : s'.count = s.count) (htable : s'.table = s.table)
    (howed : ∀ h ∈ s.owed, h ∈ s'.owed)
    (hframes : ∀ f ∈ s'.frames, (f.proper = true ∧ ∀ h, f.about = some h → h.id < s.count) ∨
      ∃ g ∈ s.frames, g.about = f.about ∧ g.proper = f.proper)
    (hcounts : ∀ f : Frame, f.calls = true → s'.frames.count f ≤ s.frames.count f) :
    Keeps s s' where
  accepted := haccepted
  done := hdone
  invoked := hinvoked
  count := hcount
  left := by
    intro h _ hin
    left
    unfold State.inTable
    rw [htable]
    exact hin
  owed := howed
  sane := by
    intro hsane
    refine ⟨fun f hf => ?_, fun f hf h habout => ?_, ?_, ?_, ?_⟩
    · rcases hframes f hf with ⟨hproper, -⟩ | ⟨g, hg, -, hproper⟩
      · exact hproper
      · rw [← hproper]
        exact hsane.proper g hg
    · rw [hcount]
      rcases hframes f hf with ⟨-, hknown⟩ | ⟨g, hg, hsame, -⟩
      · exact hknown h habout
      · exact hsane.known g hg h (hsame.trans habout)
    · rw [htable]
      exact hsane.reader
    · rw [htable]
      exact hsane.writer
    · intro h hin
      unfold State.inTable at hin
      rw [htable] at hin
      rw [hcount]
      exact hsane.held h hin
  invokes := fun _ => hcounts _ rfl
  places := by
    intro h
    left
    unfold State.places
    rw [htable]
    exact Nat.add_le_add_left (hcounts _ rfl) _

theorem of_users {u : List Frame} (haccepted : s'.accepted = s.accepted) (hdone : s'.done = s.done)
    (hinvoked : s'.invoked = s.invoked) (hcount : s'.count = s.count) (htable : s'.table = s.table)
    (hu : ∀ f ∈ u, f = .user) (hperm : s'.frames.Perm (u ++ s.frames)) : Keeps s s' := by
  refine of_frames haccepted hdone hinvoked hcount htable (fun h hh => ?_) (fun f hf => ?_) (fun f hf => ?_)
  · rcases State.mem_owed.1 hh with ⟨f, hf, ho⟩
    exact State.mem_owed.2 ⟨f, hperm.mem_iff.2 (mem_append_right _ hf), ho⟩
  · rcases mem_append.1 (hperm.mem_iff.1 hf) with hf | hf
    · rw [hu f hf]
      exact .inl ⟨rfl, fun h ho => by cases ho⟩
    · exact .inr ⟨f, hf, rfl, rfl⟩
  · have hnone : u.count f = 0 := by
      rw [count_eq_zero]
      intro hmem
      rw [hu f hmem] at hf
      cases hf
    exact Nat.le_of_eq (by rw [hperm.count_eq, count_append, hnone, Nat.zero_add])

end Keeps

/-! ## The calls that keep the account -/

/-- The exception leaves no call that still owes a callback. -/
def Held (e : Exc) (st : List Frame) : Prop :=
  ∀ h ∈ st.filterMap Frame.owes, h ∈ (unwind e st).filterMap Frame.owes

instance (e : Exc) (st : List Frame) : Decidable (Held e st) :=
  inferInstanceAs (Decidable (∀ h ∈ st.filterMap Frame.owes, h ∈ (unwind e st).filterMap Frame.owes))

/-- Frames that may be pushed: they call nothing at once, and report on known operations. -/
def Frame.Later (f : Frame) (count : Nat) : Prop :=
  f.calls = false ∧ f.proper = true ∧ ∀ h, f.about = some h → h.id < count

namespace State

variable {s : State} {h : Handle} {fd : Nat} {fs st : List Frame}

theorem keeps_push (hfs : ∀ f ∈ fs, f.Later s.count) : Keeps s (s.push fs) := by
  have hframes : (s.push fs).frames = fs ++ s.frames := append_assoc ..
  refine Keeps.of_frames rfl rfl rfl rfl rfl (fun h hh => ?_) (fun f hf => ?_) (fun f hf => ?_)
  · unfold owed at hh ⊢
    rw [hframes, filterMap_append]
    exact mem_append_right _ hh
  · rw [hframes] at hf
    rcases mem_append.1 hf with hf | hf
    · exact .inl (hfs f hf).2
    · exact .inr ⟨f, hf, rfl, rfl⟩
  · have hnone : fs.count f = 0 := by
      rw [count_eq_zero]
      intro hmem
      rw [(hfs f hmem).1] at hf
      cases hf
    exact Nat.le_of_eq (by rw [hframes, count_append, hnone, Nat.zero_add])

theorem keeps_unwind {e : Exc} (hstack : ∃ f, s.stack = f :: st ∧ f.about = none ∨ s.stack = st)
    (hheld : Held e st) : Keeps s { s with stack := unwind e st } := by
  have hsub : st.Sublist s.stack := by
    rcases hstack with ⟨f, ⟨heq, -⟩ | heq⟩
    · rw [heq]
      exact sublist_cons_self ..
    · exact heq ▸ List.Sublist.refl _
  refine Keeps.of_frames rfl rfl rfl rfl rfl (fun h hh => ?_) (fun f hf => ?_) (fun f hf => ?_)
  · rcases mem_owed.1 hh with ⟨f, hf, ho⟩
    rcases mem_append.1 hf with hf | hf
    · have hst : h ∈ st.filterMap Frame.owes := by
        rcases hstack with ⟨g, ⟨heq, hplain⟩ | heq⟩
        · rw [heq] at hf
          rcases mem_cons.1 hf with rfl | hf
          · rw [Frame.owes_of_plain hplain] at ho
            cases ho
          · exact mem_filterMap.2 ⟨f, hf, ho⟩
        · rw [heq] at hf
          exact mem_filterMap.2 ⟨f, hf, ho⟩
      rcases mem_filterMap.1 (hheld h hst) with ⟨f', hf', ho'⟩
      exact mem_owed.2 ⟨f', mem_append_left _ hf', ho'⟩
    · exact mem_owed.2 ⟨f, mem_append_right _ hf, ho⟩
  · right
    rcases mem_append.1 hf with hf | hf
    · rcases unwind_mem hf with ⟨g, hg, hsame⟩
      exact ⟨g, mem_append_left _ (hsub.subset hg), hsame⟩
    · exact ⟨f, mem_append_right _ hf, rfl, rfl⟩
  · change (unwind e st ++ s.loose).count f ≤ (s.stack ++ s.loose).count f
    rw [count_append, count_append]
    exact Nat.add_le_add_right (Nat.le_trans (unwind_count hf) (hsub.count_le f)) _

theorem keeps_raise {e : Exc} (hheld : Held e s.stack) : Keeps s (s.raise e) :=
  keeps_unwind ⟨.user, .inr rfl⟩ hheld

theorem keeps_keys (keys : Nat → Option Mask) : Keeps s { s with keys := keys } :=
  Keeps.of_frames rfl rfl rfl rfl rfl (fun _ => id) (fun f hf => .inr ⟨f, hf, rfl, rfl⟩)
    (fun _ _ => Nat.le_refl _)

theorem keeps_update {fails : Bool}
    (hheld : (s.updateSelectorRegistration fd fails).2 = true → Held .os s.stack) :
    Keeps s (s.update fd fails) := by
  rcases update_eq s fd fails with ⟨keys, hupdate⟩
  rw [hupdate]
  cases hfails : (s.updateSelectorRegistration fd fails).2 with
  | false => exact keeps_keys keys
  | true => exact (keeps_keys keys).trans (keeps_raise (hheld hfails))

theorem keeps_emit {d : Delivery} : Keeps s (s.emit h d) :=
  Keeps.of_frames rfl rfl rfl rfl rfl (fun _ => id) (fun f hf => .inr ⟨f, hf, rfl, rfl⟩)
    (fun _ _ => Nat.le_refl _)

theorem keeps_userOutside : Keeps s s.userOutside := by
  unfold userOutside
  split_ifs
  · exact Keeps.refl s
  · exact keeps_push (by simp [Frame.Later, Frame.calls, Frame.about, Frame.proper])

theorem keeps_pop {f : Frame} (hstack : s.stack = f :: st) (hf : f.about = none) :
    Keeps s { s with stack := st } := by
  refine Keeps.of_frames rfl rfl rfl rfl rfl (fun h hh => ?_) (fun g hg => ?_) (fun g hg => ?_)
  · rcases mem_owed.1 hh with ⟨g, hg, ho⟩
    refine mem_owed.2 ⟨g, ?_, ho⟩
    simp only [frames, hstack, cons_append, mem_cons] at hg
    refine hg.resolve_left ?_
    rintro rfl
    rw [Frame.owes_of_plain hf] at ho
    cases ho
  · refine .inr ⟨g, ?_, rfl, rfl⟩
    simp only [frames, hstack, cons_append]
    exact mem_cons_of_mem _ hg
  · simp only [frames, hstack]
    exact (sublist_cons_self ..).count_le g

theorem held_of_callable {e : Exc} (hcall : s.callable = true) : Held e s.stack := by
  unfold callable at hcall
  split at hcall
  · rename_i heq
    rw [heq]
    exact fun _ => id
  · rename_i heq
    rw [heq]
    exact fun _ => id
  · cases hcall

theorem keeps_stepContinuous {t : Try} {fails : Bool} (hstream : h.op.stream = true)
    (hheld : Held .os s.stack) : Keeps s (s.stepContinuous h t fails) := by
  unfold stepContinuous
  split
  · exact keeps_update fun _ => hheld
  · split
    · exact keeps_emit.trans
        (keeps_push (by simp [Frame.Later, Frame.calls, Frame.about, Frame.proper, hstream]))
    · exact keeps_emit.trans
        (keeps_push (by simp [Frame.Later, Frame.calls, Frame.about, Frame.proper, hstream]))
  · split
    · exact keeps_emit.trans
        (keeps_push (by simp [Frame.Later, Frame.calls, Frame.about, Frame.proper, hstream]))
    · exact keeps_push (by simp [Frame.Later, Frame.calls, Frame.about, Frame.proper, hstream])

theorem keeps_removeHandle {k : Bool → List Frame} (hk : ∀ b, ∀ f ∈ k b, f.Later s.count)
    (howes : h.op.stream = false → ∀ b, ∃ f ∈ k b, f.owes = some h) : Keeps s (s.removeHandle h k) := by
  rcases removeHandle_cases s h k with ⟨-, heq⟩ | ⟨e, hslot, hhas, heq⟩
  · rw [heq]
    exact keeps_push (hk false)
  · rw [heq]
    have hat : (s.table.clear e h).entryAt = Function.update s.table.entryAt h.fd
        ((s.table.entryAt h.fd).clear h) := by
      rw [Table.entryAt_of_slots hslot]
      exact Table.entryAt_shrink hslot
    have hentry : ∀ fd, (s.table.clear e h).entryAt fd = s.table.entryAt fd ∨
        fd = h.fd ∧ (s.table.clear e h).entryAt fd = (s.table.entryAt fd).clear h := by
      intro fd
      rw [hat]
      by_cases hfd : fd = h.fd
      · subst hfd
        exact .inr ⟨rfl, Function.update_self ..⟩
      · exact .inl (Function.update_of_ne hfd ..)
    have hpush :
        Keeps s (s.push ((if (s.table.entryAt h.fd).writer = some h then [Frame.drain e] else []) ++
        Frame.removeTail h.fd :: k true)) := keeps_push (fun f hf => by
          rcases mem_append.1 hf with hf | hf
          · split_ifs at hf
            · rw [mem_singleton] at hf
              subst hf
              simp [Frame.Later, Frame.calls, Frame.about, Frame.proper]
            · cases hf
          · rcases mem_cons.1 hf with rfl | hf
            · simp [Frame.Later, Frame.calls, Frame.about, Frame.proper]
            · exact hk true f hf)
    -- the frames are those of a push; only the entry differs
    refine ⟨rfl, rfl, rfl, rfl, fun h' hstream hin => ?_, hpush.owed, fun hsane => ?_, hpush.invokes,
      fun h' => ?_⟩
    · by_cases hh : h' = h
      · subst hh
        right
        rcases howes hstream true with ⟨f, hf, ho⟩
        refine mem_owed.2 ⟨f, mem_append_left _ (mem_append_left _ ?_), ho⟩
        exact mem_append_right _ (mem_cons_of_mem _ hf)
      · left
        change ((s.table.clear e h).entryAt h'.fd).Has h'
        rcases hentry h'.fd with hsame | ⟨-, hclear⟩
        · rw [hsame]
          exact hin
        · rw [hclear]
          exact (Entry.has_clear_of_ne hh).2 hin
    · have hkept := hpush.sane hsane
      refine ⟨hkept.proper, hkept.known, fun fd h' hreader => ?_, fun fd h' hwriter => ?_, fun h' hin => ?_⟩
      · change ((s.table.clear e h).entryAt fd).reader = some h' at hreader
        rcases hentry fd with hsame | ⟨-, hclear⟩
        · rw [hsame] at hreader
          exact hsane.reader fd h' hreader
        · rw [hclear] at hreader
          simp only [Entry.clear] at hreader
          split_ifs at hreader
          exact hsane.reader fd h' hreader
      · change ((s.table.clear e h).entryAt fd).writer = some h' at hwriter
        rcases hentry fd with hsame | ⟨-, hclear⟩
        · rw [hsame] at hwriter
          exact hsane.writer fd h' hwriter
        · rw [hclear] at hwriter
          simp only [Entry.clear] at hwriter
          split_ifs at hwriter
          exact hsane.writer fd h' hwriter
      · refine hsane.held h' ?_
        change ((s.table.clear e h).entryAt h'.fd).Has h' at hin
        rcases hentry h'.fd with hsame | ⟨-, hclear⟩
        · rw [hsame] at hin
          exact hin
        · rw [hclear] at hin
          exact Entry.has_of_has_clear hin
    · refine (hpush.places h').imp (Nat.le_trans (Nat.add_le_add_right ?_ _))
        (Nat.le_trans (Nat.add_le_add_right (Nat.add_le_add_right ?_ _) _))
      all_goals
        change ((s.table.clear e h).entryAt h'.fd).writeQueue.count h' ≤ _
        rcases hentry h'.fd with hsame | ⟨-, hclear⟩
        · exact Nat.le_of_eq (by rw [hsame]; rfl)
        · rw [hclear]
          exact filter_sublist.count_le h'

theorem keeps_delete (hempty : (s.table.entryAt fd).empty = true) :
    Keeps s { s with table := s.table.delete fd hempty } := by
  have hat := Table.entryAt_delete hempty
  refine ⟨rfl, rfl, rfl, rfl, fun h _ hin => .inl ?_, fun _ => id, fun hsane => ?_,
    fun _ => Nat.le_refl _, fun h => .inl ?_⟩
  · unfold inTable
    rw [hat]
    exact hin
  · refine ⟨hsane.proper, hsane.known, ?_, ?_, fun h hin => ?_⟩
    · rw [hat]
      exact hsane.reader
    · rw [hat]
      exact hsane.writer
    · unfold inTable at hin
      rw [hat] at hin
      exact hsane.held h hin
  · unfold places
    exact Nat.le_of_eq (by rw [hat]; rfl)

theorem updateSelectorRegistration_flag_congr {s s' : State} {fd : Nat} (fails : Bool)
    (hmask : s'.selectorMaskForFd fd = s.selectorMaskForFd fd) (hclosed : s'.closed = s.closed)
    (hkeys : s'.keys = s.keys) :
    (s'.updateSelectorRegistration fd fails).2 = (s.updateSelectorRegistration fd fails).2 := by
  simp only [updateSelectorRegistration, hmask, hclosed, hkeys]
  split
  · rfl
  · split
    · split
      · split <;> rfl
      · rfl
    · split
      · split
        · rfl
        · split <;> rfl
      · rfl

theorem updateSelectorRegistration_delete (hempty : (s.table.entryAt fd).empty = true)
    (fd' : Nat) (fails : Bool) :
    (({ s with table := s.table.delete fd hempty } : State).updateSelectorRegistration fd' fails).2 =
      (s.updateSelectorRegistration fd' fails).2 := by
  refine updateSelectorRegistration_flag_congr fails ?_ rfl rfl
  unfold selectorMaskForFd
  rw [Table.entryAt_delete hempty]

theorem updateSelectorRegistration_stack (s : State) (stack : List Frame) (fd : Nat) (fails : Bool) :
    (({ s with stack := stack } : State).updateSelectorRegistration fd fails).2 =
      (s.updateSelectorRegistration fd fails).2 :=
  updateSelectorRegistration_flag_congr fails rfl rfl rfl

theorem keeps_removeTail {fails : Bool}
    (hheld : (s.updateSelectorRegistration fd fails).2 = true → Held .os s.stack) :
    Keeps s (s.removeTail fd fails) := by
  rcases removeTail_cases s fd fails with heq | ⟨hempty, heq⟩
  · rw [heq]
    exact keeps_update hheld
  · rw [heq]
    refine (keeps_delete hempty).trans (keeps_update fun hfails => ?_)
    rw [updateSelectorRegistration_delete] at hfails
    exact hheld hfails

theorem keeps_stopTail {r : Bool} (hstack : s.stack = .stopTail h r :: st) (hsane : s.Sane) :
    Keeps s (({ s with stack := st } : State).outside (stopReport h r)) := by
  have hmem : Frame.stopTail h r ∈ s.frames := by simp [frames, hstack]
  have hperm : ((({ s with stack := st } : State).outside (stopReport h r)).frames).Perm
      (stopReport h r ++ (st ++ s.loose)) := by
    unfold outside
    split_ifs with hst
    · have hst' : st = [] := hst
      subst hst'
      change (s.loose ++ stopReport h r).Perm (stopReport h r ++ s.loose)
      exact perm_append_comm
    · exact List.Perm.of_eq (append_assoc ..)
  have hreport : ∀ f ∈ stopReport h r, f = .finish h ∧ h.op.stream = false ∨ f = .endStream h := by
    intro f hf
    unfold stopReport at hf
    split_ifs at hf with hstream hr
    · exact .inr (mem_singleton.1 hf)
    · cases hf
    · exact .inl ⟨mem_singleton.1 hf, by simpa using hstream⟩
  have heq : ∃ stack loose, ({ s with stack := st } : State).outside (stopReport h r) =
      { s with stack := stack, loose := loose } := by
    unfold outside
    split_ifs
    · exact ⟨_, _, rfl⟩
    · exact ⟨_, _, rfl⟩
  rcases heq with ⟨stack, loose, heq⟩
  rw [heq] at hperm ⊢
  refine Keeps.of_frames rfl rfl rfl rfl rfl (fun h' hh => ?_) (fun f hf => ?_) (fun f hf => ?_)
  · rcases mem_owed.1 hh with ⟨f, hf, ho⟩
    simp only [frames, hstack, cons_append, mem_cons] at hf
    rcases hf with rfl | hf
    · -- the report takes the frame's debt over
      simp only [Frame.owes] at ho
      split_ifs at ho with hstream
      cases ho
      exact mem_owed.2 ⟨.finish h, hperm.mem_iff.2 (mem_append_left _ (by simp [stopReport, hstream])), rfl⟩
    · exact mem_owed.2 ⟨f, hperm.mem_iff.2 (mem_append_right _ hf), ho⟩
  · rcases mem_append.1 (hperm.mem_iff.1 hf) with hf | hf
    · left
      rcases hreport f hf with ⟨rfl, -⟩ | rfl
      · have hproper := hsane.proper _ hmem
        have hknown := hsane.known _ hmem h rfl
        refine ⟨hproper, fun h' ho => ?_⟩
        cases ho
        exact hknown
      · exact ⟨rfl, fun h' ho => by cases ho⟩
    · right
      refine ⟨f, ?_, rfl, rfl⟩
      simp only [frames, hstack, cons_append]
      exact mem_cons_of_mem _ hf
  · rw [show ({ s with stack := stack, loose := loose } : State).frames.count f = _ from hperm.count_eq f,
      count_append]
    have hnone : (stopReport h r).count f = 0 := by
      rw [count_eq_zero]
      intro hmem
      rcases hreport f hmem with ⟨rfl, -⟩ | rfl
      · cases hf
      · cases hf
    rw [hnone, Nat.zero_add]
    simp only [frames, hstack]
    exact (sublist_cons_self _ _).count_le f

/-! ## Putting in -/

theorem keeps_reserve (hfree : s.slotTaken h = false) (hdirect : h.op.direct = false)
    (hlt : h.id < s.count) :
    Keeps s (s.reserve h) := by
  have hentry : ∀ fd, (s.table.reserve h).entryAt fd = s.table.entryAt fd ∨
      fd = h.fd ∧ (s.table.reserve h).entryAt fd = (s.table.entryAt fd).reserve h := by
    intro fd
    have hat : (s.table.reserve h).entryAt =
        Function.update s.table.entryAt h.fd ((s.table.entryAt h.fd).reserve h) := Table.entryAt_put
    rw [hat]
    by_cases hfd : fd = h.fd
    · subst hfd
      exact .inr ⟨rfl, Function.update_self ..⟩
    · exact .inl (Function.update_of_ne hfd ..)
  simp only [slotTaken, Bool.or_eq_false_iff, Bool.and_eq_false_iff, Option.isSome_eq_false_iff,
    Option.isNone_iff_eq_none] at hfree
  refine ⟨rfl, rfl, rfl, rfl, fun h' _ hin => .inl ?_, fun _ => id, fun hsane => ?_,
    fun _ => Nat.le_refl _, fun h' => .inl (Nat.add_le_add_right ?_ _)⟩
  · change ((s.table.reserve h).entryAt h'.fd).Has h'
    rcases hentry h'.fd with hsame | ⟨hfd, hreserve⟩
    · rw [hsame]
      exact hin
    · rw [hreserve]
      unfold inTable at hin
      rw [hfd] at hin ⊢
      rcases hin with hreader | hwriter | hqueue
      · refine .inl ((if_neg ?_).trans hreader)
        intro hmask
        have hnone := hfree.1.resolve_left (by simp [hmask])
        rw [hnone] at hreader
        cases hreader
      · refine .inr (.inl ((if_neg ?_).trans hwriter))
        intro hmask
        have hnone := hfree.2.resolve_left (by simp [hmask])
        rw [hnone] at hwriter
        cases hwriter
      · exact .inr (.inr hqueue)
  · refine ⟨hsane.proper, hsane.known, fun fd h' hreader => ?_, fun fd h' hwriter => ?_, fun h' hin => ?_⟩
    · change ((s.table.reserve h).entryAt fd).reader = some h' at hreader
      rcases hentry fd with hsame | ⟨-, hreserve⟩
      · rw [hsame] at hreader
        exact hsane.reader fd h' hreader
      · rw [hreserve] at hreader
        simp only [Entry.reserve] at hreader
        split_ifs at hreader
        · cases hreader
          exact hdirect
        · exact hsane.reader fd h' hreader
    · change ((s.table.reserve h).entryAt fd).writer = some h' at hwriter
      rcases hentry fd with hsame | ⟨-, hreserve⟩
      · rw [hsame] at hwriter
        exact hsane.writer fd h' hwriter
      · rw [hreserve] at hwriter
        simp only [Entry.reserve] at hwriter
        split_ifs at hwriter
        · cases hwriter
          exact hdirect
        · exact hsane.writer fd h' hwriter
    · change ((s.table.reserve h).entryAt h'.fd).Has h' at hin
      rcases hentry h'.fd with hsame | ⟨-, hreserve⟩
      · rw [hsame] at hin
        exact hsane.held h' hin
      · rw [hreserve] at hin
        rcases Entry.has_of_has_reserve hin with hin | rfl
        · exact hsane.held h' hin
        · exact hlt
  · change ((s.table.reserve h).entryAt h'.fd).writeQueue.count h' ≤ _
    rcases hentry h'.fd with hsame | ⟨-, hreserve⟩
    · exact Nat.le_of_eq (by rw [hsame])
    · exact Nat.le_of_eq (by rw [hreserve]; rfl)

theorem inTable_reserve (hmask : h.op.mask.nonzero = true) : (s.reserve h).inTable h := by
  have hat : (s.table.reserve h).entryAt h.fd = (s.table.entryAt h.fd).reserve h := by
    have hput : (s.table.reserve h).entryAt =
        Function.update s.table.entryAt h.fd ((s.table.entryAt h.fd).reserve h) := Table.entryAt_put
    rw [hput, Function.update_self]
  change ((s.table.reserve h).entryAt h.fd).Has h
  rw [hat]
  simp only [Mask.nonzero, Bool.or_eq_true] at hmask
  rcases hmask with hread | hwrite
  · exact .inl (if_pos hread)
  · exact .inr (.inl (if_pos hwrite))

theorem nonzero_of_open (hrefuses : s.refuses h = false) (hdirect : h.op.direct = false) :
    h.op.mask.nonzero = true := by
  simp only [refuses, Bool.or_eq_false_iff] at hrefuses
  have hmask := hrefuses.1.2
  cases hop : h.op with
  | oneshot k ev => cases ev <;> rfl
  | poll fd m =>
    have hm : m.nonzero = true := by simpa [Op.emptyMask, hop] using hmask
    exact hm
  | pollMany fd m =>
    have hm : m.nonzero = true := by simpa [Op.emptyMask, hop] using hmask
    exact hm
  | shutdown k how c => simp [hop, Op.direct] at hdirect
  | closeSocket k c => simp [hop, Op.direct] at hdirect
  | _ => rfl

theorem keeps_enqueueWrite (hlt : h.id < s.count) (hnew : s.places h + s.invoked h = 0) :
    Keeps s (s.enqueueWrite h) ∧ (s.enqueueWrite h).inTable h := by
  have hput : (s.table.enqueueWrite h).entryAt =
      Function.update s.table.entryAt h.fd ((s.table.entryAt h.fd).enqueue h) := Table.entryAt_put
  have hentry : ∀ fd, (s.table.enqueueWrite h).entryAt fd = s.table.entryAt fd ∧ fd ≠ h.fd ∨
      fd = h.fd ∧ (s.table.enqueueWrite h).entryAt fd = (s.table.entryAt fd).enqueue h := by
    intro fd
    rw [hput]
    by_cases hfd : fd = h.fd
    · subst hfd
      exact .inr ⟨rfl, Function.update_self ..⟩
    · exact .inl ⟨Function.update_of_ne hfd .., hfd⟩
  refine ⟨⟨rfl, rfl, rfl, rfl, fun h' _ hin => .inl ?_, fun _ => id, fun hsane => ?_,
    fun _ => Nat.le_refl _, fun h' => ?_⟩, ?_⟩
  · change ((s.table.enqueueWrite h).entryAt h'.fd).Has h'
    rcases hentry h'.fd with ⟨hsame, -⟩ | ⟨hfd, henqueue⟩
    · rw [hsame]
      exact hin
    · rw [henqueue]
      exact hin.imp_right (Or.imp_right (mem_append_left _))
  · refine ⟨hsane.proper, hsane.known, fun fd h' hreader => ?_, fun fd h' hwriter => ?_, fun h' hin => ?_⟩
    · change ((s.table.enqueueWrite h).entryAt fd).reader = some h' at hreader
      rcases hentry fd with ⟨hsame, -⟩ | ⟨-, henqueue⟩
      · rw [hsame] at hreader
        exact hsane.reader fd h' hreader
      · rw [henqueue] at hreader
        exact hsane.reader fd h' hreader
    · change ((s.table.enqueueWrite h).entryAt fd).writer = some h' at hwriter
      rcases hentry fd with ⟨hsame, -⟩ | ⟨-, henqueue⟩
      · rw [hsame] at hwriter
        exact hsane.writer fd h' hwriter
      · rw [henqueue] at hwriter
        exact hsane.writer fd h' hwriter
    · change ((s.table.enqueueWrite h).entryAt h'.fd).Has h' at hin
      rcases hentry h'.fd with ⟨hsame, -⟩ | ⟨-, henqueue⟩
      · rw [hsame] at hin
        exact hsane.held h' hin
      · rw [henqueue] at hin
        rcases Entry.has_of_has_enqueue hin with hin | rfl
        · exact hsane.held h' hin
        · exact hlt
  · by_cases hh : h' = h
    · subst hh
      right
      have hcount : ((s.table.enqueueWrite h').entryAt h'.fd).writeQueue.count h' =
          (s.table.entryAt h'.fd).writeQueue.count h' + 1 := by
        rw [hput, Function.update_self]
        simp [Entry.enqueue]
      change ((s.table.enqueueWrite h').entryAt h'.fd).writeQueue.count h' +
          s.frames.count (.run h') + _ ≤ 1
      unfold places at hnew
      omega
    · left
      refine Nat.add_le_add_right ?_ _
      change ((s.table.enqueueWrite h).entryAt h'.fd).writeQueue.count h' ≤ _
      rcases hentry h'.fd with ⟨hsame, -⟩ | ⟨-, henqueue⟩
      · exact Nat.le_of_eq (by rw [hsame])
      · rw [henqueue]
        have hne : ¬ h = h' := fun heq => hh heq.symm
        simp [Entry.enqueue, count_append, count_cons_of_ne hne]
  · change ((s.table.enqueueWrite h).entryAt h.fd).Has h
    rw [hput, Function.update_self]
    exact .inr (.inr (mem_append_right _ (mem_singleton_self h)))

theorem keeps_runOutside (hdirect : h.op.direct = true) (hlt : h.id < s.count)
    (hnew : s.places h + s.invoked h = 0) :
    Keeps s (s.outside [.run h]) ∧ h ∈ (s.outside [.run h]).owed := by
  have hperm : ((s.outside [.run h]).frames).Perm (.run h :: s.frames) := by
    unfold outside
    split_ifs
    · change (s.stack ++ (s.loose ++ [Frame.run h])).Perm _
      rw [← append_assoc]
      exact perm_append_comm
    · exact List.Perm.refl _
  have heq : ∃ stack loose, s.outside [.run h] = { s with stack := stack, loose := loose } := by
    unfold outside
    split_ifs
    · exact ⟨s.stack, _, rfl⟩
    · exact ⟨_, s.loose, rfl⟩
  rcases heq with ⟨stack, loose, heq⟩
  rw [heq] at hperm ⊢
  refine ⟨⟨rfl, rfl, rfl, rfl, fun _ _ hin => .inl hin, fun h' ho => ?_, fun hsane => ?_, fun h' => ?_,
    fun h' => ?_⟩, mem_owed.2 ⟨.run h, hperm.mem_iff.2 (mem_cons_self ..), rfl⟩⟩
  · rcases mem_owed.1 ho with ⟨f, hf, ho⟩
    exact mem_owed.2 ⟨f, hperm.mem_iff.2 (mem_cons_of_mem _ hf), ho⟩
  · refine ⟨fun f hf => ?_, fun f hf h' ho => ?_, hsane.reader, hsane.writer, hsane.held⟩
    · rcases mem_cons.1 (hperm.mem_iff.1 hf) with rfl | hf
      · exact hdirect
      · exact hsane.proper f hf
    · rcases mem_cons.1 (hperm.mem_iff.1 hf) with rfl | hf
      · cases ho
        exact hlt
      · exact hsane.known f hf h' ho
  · exact Nat.le_of_eq (by rw [hperm.count_eq, count_cons_of_ne (by simp)])
  · by_cases hh : h' = h
    · subst hh
      right
      change (s.table.entryAt h'.fd).writeQueue.count h' + _ + _ ≤ 1
      rw [hperm.count_eq, count_cons_self]
      unfold places at hnew
      omega
    · left
      refine Nat.add_le_add_left ?_ _
      have hne : Frame.run h ≠ Frame.run h' := by
        intro heq'
        cases heq'
        exact hh rfl
      exact Nat.le_of_eq (by rw [hperm.count_eq, count_cons_of_ne hne])

/-! ## Taking the next item of a queue -/

theorem entryAt_popleft {e : Nat} {q : List Handle}
    (hqueue : (s.table.entries e).writeQueue = h :: q) (fd : Nat) :
    (s.table.popleft e).entryAt fd = s.table.entryAt fd ∧ fd ≠ h.fd ∨
      fd = h.fd ∧ (s.table.entryAt fd).writeQueue = h :: q ∧
        (s.table.popleft e).entryAt fd = { s.table.entryAt fd with writeQueue := q } := by
  have hslot : s.table.slots h.fd = some e := s.table.home (.inr (.inr (by rw [hqueue]; simp)))
  have hat : (s.table.popleft e).entryAt = Function.update s.table.entryAt h.fd
      { s.table.entries e with writeQueue := (s.table.entries e).writeQueue.tail } :=
    Table.entryAt_shrink hslot
  by_cases hfd : fd = h.fd
  · subst hfd
    right
    rw [hat, Function.update_self, Table.entryAt_of_slots hslot, hqueue]
    exact ⟨rfl, rfl, rfl⟩
  · left
    rw [hat]
    exact ⟨Function.update_of_ne hfd .., hfd⟩

end State

end Pytealet.Selector
