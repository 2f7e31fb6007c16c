import Pytealet.Lib.Ordinal
import Pytealet.Selector.Callbacks

/-!
# Selector.StreamView — what concerns one stream of the selector proactor

`s.view h` is the part of a state that belongs to the stream `h`: its frames, whether it is in the
table, its `_next_index` and what it has delivered.  Most of what the proactor does is `Apart` from
every stream, or from every stream but the one it is about.
-/

namespace Pytealet.Selector

open List

/-- Streams that may deliver more than once. -/
def Op.repeats : Op → Bool
  | .pollMany _ _ => true
  | _ => false

namespace Frame

/-- The stream whose step or end is in progress.  A stop that has found nothing to take out ends
nothing. -/
def stream : Frame → Option Handle
  | .advance h _ | .streamTail h _ | .failStream h | .endStream h => some h
  | .stopTail h true => if h.op.stream then some h else none
  | _ => none

/-- The stream whose step is in progress. -/
def steps : Frame → Option Handle
  | .advance h _ | .streamTail h _ | .failStream h => some h
  | _ => none

theorem stream_of_steps {f : Frame} {h : Handle} (hf : f.steps = some h) : f.stream = some h := by
  cases f <;> first | exact hf | cases hf

end Frame

structure View where
  accepted : Bool
  own : List Frame
  held : Bool
  next : Nat
  deliveries : List Delivery

namespace State

/-- The frames of a stream, innermost first. -/
def own (s : State) (h : Handle) : List Frame :=
  s.frames.filter fun f => f.stream = some h

def view (s : State) (h : Handle) : View where
  accepted := s.accepted h
  own := s.own h
  held := s.inTable h
  next := s.nextIndex h
  deliveries := s.deliveries h

/-- No stream waits in a write queue. -/
def QueueFree (s : State) : Prop :=
  ∀ fd, ∀ h ∈ (s.table.entryAt fd).writeQueue, h.op.stream = false

/-- The exception leaves the frames of streams as they are. -/
def Undamaged (e : Exc) (st : List Frame) : Prop :=
  (unwind e st).filter (fun f => f.stream.isSome) = st.filter fun f => f.stream.isSome
deriving Decidable

end State

/-- Every stream but `x` is left alone. -/
structure Apart (x : Option Handle) (s s' : State) : Prop where
  view : ∀ h, h.op.stream = true → x ≠ some h → s'.view h = s.view h
  count : s.count ≤ s'.count
  queue : s.QueueFree → s'.QueueFree

namespace Apart

variable {x : Option Handle} {s s' s'' : State}

theorem refl (s : State) : Apart x s s where
  view := fun _ _ _ => rfl
  count := Nat.le_refl _
  queue := id

theorem trans (h : Apart x s s') (h' : Apart x s' s'') : Apart x s s'' where
  view := fun k hk hx => (h'.view k hk hx).trans (h.view k hk hx)
  count := Nat.le_trans h.count h'.count
  queue := h'.queue ∘ h.queue

theorem only (h : Apart none s s') : Apart x s s' where
  view := fun k hk _ => h.view k hk nofun
  count := h.count
  queue := h.queue

theorem of_eq (hcount : s.count ≤ s'.count) (haccepted : ∀ h, x ≠ some h → s'.accepted h = s.accepted h)
    (hown : ∀ h, h.op.stream = true → x ≠ some h → s'.own h = s.own h) (htable : s'.table = s.table)
    (hnext : ∀ h, x ≠ some h → s'.nextIndex h = s.nextIndex h)
    (hds : ∀ h, x ≠ some h → s'.deliveries h = s.deliveries h) : Apart x s s' where
  view := by
    intro h hstream hx
    have hin : s'.inTable h = s.inTable h := by
      unfold State.inTable
      rw [htable]
    simp only [State.view, haccepted h hx, hown h hstream hx, hnext h hx, hds h hx, hin]
  count := hcount
  queue := by
    intro hqueue
    unfold State.QueueFree
    rw [htable]
    exact hqueue

theorem of_frames (hcount : s'.count = s.count) (haccepted : s'.accepted = s.accepted)
    (htable : s'.table = s.table) (hnext : s'.nextIndex = s.nextIndex) (hds : s'.deliveries = s.deliveries)
    (hown : ∀ h, h.op.stream = true → x ≠ some h → s'.own h = s.own h) : Apart x s s' :=
  of_eq (Nat.le_of_eq hcount.symm) (fun h _ => congrFun haccepted h) hown htable
    (fun h _ => congrFun hnext h) (fun h _ => congrFun hds h)

theorem of_plain {h : Handle} (ha : Apart (some h) s s') (hplain : h.op.stream = false) :
    Apart none s s' where
  view := by
    intro k hk _
    refine ha.view k hk fun heq => ?_
    cases heq
    rw [hk] at hplain
    cases hplain
  count := ha.count
  queue := ha.queue

end Apart

namespace State

variable {s : State} {h h' : Handle} {fd : Nat} {fs st : List Frame} {x : Option Handle}

/-! ## Code in progress -/

theorem own_push (fs : List Frame) (h : Handle) :
    (s.push fs).own h = fs.filter (fun f => f.stream = some h) ++ s.own h := by
  simp [own, frames, push, filter_append]

theorem filter_stream_eq_nil (hfs : ∀ f ∈ fs, f.stream = none ∨ f.stream = x) (hx : x ≠ some h) :
    fs.filter (fun f => f.stream = some h) = [] := by
  rw [filter_eq_nil_iff]
  intro f hf
  rcases hfs f hf with heq | heq
  · simp [heq]
  · rw [heq]
    simpa using hx

theorem apart_push (hfs : ∀ f ∈ fs, f.stream = none ∨ f.stream = x) : Apart x s (s.push fs) := by
  refine Apart.of_frames rfl rfl rfl rfl rfl fun h _ hx => ?_
  rw [own_push, filter_stream_eq_nil hfs hx, nil_append]

theorem own_outside_perm (fs : List Frame) :
    (s.outside fs).frames = fs ++ s.frames ∨ (s.outside fs).frames = s.frames ++ fs := by
  unfold outside
  split_ifs
  · exact Or.inr (append_assoc ..).symm
  · exact Or.inl (append_assoc ..)

theorem outside_eq (fs : List Frame) : ∃ stack loose, s.outside fs =
    { s with stack := stack, loose := loose } := by
  unfold outside
  split_ifs
  · exact ⟨s.stack, _, rfl⟩
  · exact ⟨_, s.loose, rfl⟩

theorem apart_outside (hfs : ∀ f ∈ fs, f.stream = none ∨ f.stream = x) : Apart x s (s.outside fs) := by
  rcases outside_eq (s := s) fs with ⟨stack, loose, heq⟩
  have hown : ∀ h, h.op.stream = true → x ≠ some h → (s.outside fs).own h = s.own h := by
    intro h _ hx
    have hnil := filter_stream_eq_nil hfs hx
    unfold own
    rcases own_outside_perm (s := s) fs with hframes | hframes
    · rw [hframes, filter_append, hnil, nil_append]
    · rw [hframes, filter_append, hnil, append_nil]
  rw [heq] at hown ⊢
  exact Apart.of_frames rfl rfl rfl rfl rfl hown

theorem apart_userOutside : Apart none s s.userOutside := by
  unfold userOutside
  split_ifs
  · exact Apart.refl s
  · exact apart_push (by simp [Frame.stream])

/-- An exception that leaves the frames of streams as they are leaves those of each stream. -/
theorem filter_unwind {e : Exc} (hok : Undamaged e st) (h : Handle) :
    (unwind e st).filter (fun f => f.stream = some h) = st.filter fun f => f.stream = some h := by
  have hsome : ∀ l : List Frame, l.filter (fun f => f.stream = some h) =
      (l.filter fun f => f.stream.isSome).filter fun f => f.stream = some h := by
    intro l
    rw [filter_filter]
    refine filter_congr fun f _ => ?_
    cases hf : f.stream with
    | none => simp
    | some k => simp
  rw [hsome, hsome st, hok]

theorem apart_unwind {e : Exc} (hok : Undamaged e s.stack) :
    Apart none s { s with stack := unwind e s.stack } := by
  refine Apart.of_frames rfl rfl rfl rfl rfl fun h _ _ => ?_
  unfold own frames
  rw [filter_append, filter_append, filter_unwind hok]

theorem apart_pop {f : Frame} (hstack : s.stack = f :: st) (hf : f.stream = none ∨ f.stream = x) :
    Apart x s { s with stack := st } := by
  refine Apart.of_frames rfl rfl rfl rfl rfl fun h _ hx => ?_
  have hnot : ¬ f.stream = some h := by
    rcases hf with hf | hf
    · simp [hf]
    · rw [hf]
      exact hx
  simp [own, frames, hstack, hnot]

theorem undamaged_of_callable {e : Exc} (hcall : s.callable = true) : Undamaged e s.stack := by
  unfold callable at hcall
  split at hcall
  · rename_i heq
    rw [heq]
    rfl
  · rename_i heq
    rw [heq]
    rfl
  · cases hcall

/-! ## The selector and the fd table -/

theorem apart_keys (keys : Nat → Option Mask) : Apart none s { s with keys := keys } :=
  Apart.of_frames rfl rfl rfl rfl rfl fun _ _ _ => rfl

theorem apart_update {fails : Bool}
    (hok : (s.updateSelectorRegistration fd fails).2 = true → Undamaged .os s.stack) :
    Apart none s (s.update fd fails) := by
  rcases update_eq s fd fails with ⟨keys, hupdate⟩
  rw [hupdate]
  cases hfails : (s.updateSelectorRegistration fd fails).2 with
  | false => exact apart_keys keys
  | true => exact (apart_keys keys).trans (apart_unwind (s := { s with keys := keys }) (hok hfails))

theorem apart_table {table : Table}
    (hhas : ∀ h, h.op.stream = true → x ≠ some h →
      ((table.entryAt h.fd).Has h ↔ (s.table.entryAt h.fd).Has h))
    (hqueue : s.QueueFree → ({ s with table := table } : State).QueueFree) :
    Apart x s { s with table := table } where
  view := by
    intro h hstream hx
    have hin : ({ s with table := table } : State).inTable h ↔ s.inTable h := hhas h hstream hx
    simp only [view, hin]
    rfl
  count := Nat.le_refl _
  queue := hqueue

theorem apart_delete (hempty : (s.table.entryAt fd).empty = true) :
    Apart none s { s with table := s.table.delete fd hempty } := by
  have hat := Table.entryAt_delete hempty
  refine apart_table (fun h _ _ => by rw [hat]) fun hqueue => ?_
  unfold QueueFree
  rw [hat]
  exact hqueue

theorem apart_removeTail {fails : Bool}
    (hok : (s.updateSelectorRegistration fd fails).2 = true → Undamaged .os s.stack) :
    Apart none s (s.removeTail fd fails) := by
  rcases removeTail_cases s fd fails with heq | ⟨hempty, heq⟩
  · rw [heq]
    exact apart_update hok
  · rw [heq]
    refine (apart_delete hempty).trans (apart_update fun hfails => ?_)
    rw [updateSelectorRegistration_delete] at hfails
    exact hok hfails

theorem apart_entry {table : Table} {en : Entry} {f : Nat}
    (hat : table.entryAt = Function.update s.table.entryAt f en)
    (hhas : ∀ h, h.op.stream = true → x ≠ some h → h.fd = f → (en.Has h ↔ (s.table.entryAt f).Has h))
    (hqueue : s.QueueFree → ∀ h ∈ en.writeQueue, h.op.stream = false) :
    Apart x s { s with table := table } := by
  refine apart_table (fun h hstream hx => ?_) fun hfree fd h hmem => ?_
  · rw [hat]
    by_cases hfd : h.fd = f
    · rw [hfd, Function.update_self]
      exact hhas h hstream hx hfd
    · rw [Function.update_of_ne hfd]
  · change h ∈ (table.entryAt fd).writeQueue at hmem
    rw [hat] at hmem
    by_cases hfd : fd = f
    · subst hfd
      rw [Function.update_self] at hmem
      exact hqueue hfree h hmem
    · rw [Function.update_of_ne hfd] at hmem
      exact hfree fd h hmem

theorem apart_reserve (hfree : s.slotTaken h = false) : Apart (some h) s (s.reserve h) := by
  refine apart_entry Table.entryAt_put (fun k _ hk hfd => ?_) fun hqueue k hmem => hqueue h.fd k hmem
  simp only [slotTaken, Bool.or_eq_false_iff, Bool.and_eq_false_iff] at hfree
  have hne : h ≠ k := fun heq => hk (by rw [heq])
  simp only [Entry.reserve, Entry.Has]
  rcases hfree with ⟨hreader, hwriter⟩
  grind

theorem apart_enqueueWrite (hplain : h.op.stream = false) : Apart none s (s.enqueueWrite h) := by
  refine apart_entry Table.entryAt_put (fun k hk _ _ => ?_) fun hqueue k hmem => ?_
  · have hne : k ≠ h := by
      rintro rfl
      rw [hk] at hplain
      cases hplain
    simp [Entry.enqueue, Entry.Has, hne]
  · rcases mem_append.1 hmem with hmem | hmem
    · exact hqueue h.fd k hmem
    · rw [mem_singleton.1 hmem]
      exact hplain

theorem apart_clear {e : Nat} (hslot : s.table.slots h.fd = some e) :
    Apart (some h) s { s with table := s.table.clear e h } := by
  refine apart_entry (Table.entryAt_shrink hslot) (fun k _ hk hfd => ?_) fun hqueue k hmem => ?_
  · rw [Table.entryAt_of_slots hslot]
    exact Entry.has_clear_of_ne fun heq => hk (by rw [heq])
  · have hat := Table.entryAt_of_slots hslot
    refine hqueue h.fd k ?_
    rw [hat]
    exact (mem_filter.1 hmem).1

theorem apart_popleft {e : Nat} {q : List Handle} (hqueue : (s.table.entries e).writeQueue = h :: q)
    (hplain : h.op.stream = false) : Apart none s { s with table := s.table.popleft e } := by
  refine apart_table (fun k hk _ => ?_) fun hfree fd k hmem => ?_
  · rcases entryAt_popleft hqueue k.fd with ⟨hsame, -⟩ | ⟨-, hq, hpop⟩
    · rw [hsame]
    · have hne : k ≠ h := by
        rintro rfl
        rw [hk] at hplain
        cases hplain
      rw [hpop]
      simp [Entry.Has, hq, hne]
  · change k ∈ ((s.table.popleft e).entryAt fd).writeQueue at hmem
    rcases entryAt_popleft hqueue fd with ⟨hsame, -⟩ | ⟨-, hq, hpop⟩
    · rw [hsame] at hmem
      exact hfree fd k hmem
    · rw [hpop] at hmem
      refine hfree fd k ?_
      rw [hq]
      exact mem_cons_of_mem _ hmem

/-! ## Calls -/

theorem apart_plain {s' : State} (hcount : s'.count = s.count) (haccepted : s'.accepted = s.accepted)
    (htable : s'.table = s.table) (hnext : s'.nextIndex = s.nextIndex) (hds : s'.deliveries = s.deliveries)
    (hstack : s'.stack = s.stack) (hloose : s'.loose = s.loose) : Apart none s s' := by
  refine Apart.of_frames hcount haccepted htable hnext hds fun h _ _ => ?_
  simp only [own, frames, hstack, hloose]

theorem apart_attempt (t : Try) : Apart none s (s.attempt h t).1 :=
  apart_plain rfl rfl rfl rfl rfl rfl rfl

theorem apart_callSync (t : Try) : Apart none s (s.callSync h t).1 := by
  rcases runDirect_eq s h t with ⟨effects, closed, hrun, -⟩
  rw [callSync_fst, hrun]
  split_ifs
  · exact apart_plain rfl rfl rfl rfl rfl rfl rfl
  · exact apart_plain rfl rfl rfl rfl rfl rfl rfl

theorem apart_issue (ok : Bool) : Apart (some h) s (s.issue h ok) := by
  refine Apart.of_eq (Nat.le_succ _) (fun k hk => ?_) (fun _ _ _ => rfl) rfl (fun k hk => ?_) fun _ _ => rfl
  · exact Function.update_of_ne (fun heq => hk (by rw [heq])) ..
  · exact Function.update_of_ne (fun heq => hk (by rw [heq])) ..

theorem apart_emit (d : Delivery) : Apart (some h) s (s.emit h d) := by
  refine Apart.of_eq (Nat.le_refl _) (fun _ _ => rfl) (fun _ _ _ => rfl) rfl (fun _ _ => rfl) fun k hk => ?_
  exact Function.update_of_ne (fun heq => hk (by rw [heq])) ..

theorem apart_removeHandle {k : Bool → List Frame}
    (hk : ∀ b, ∀ f ∈ k b, f.stream = none ∨ f.stream = some h) : Apart (some h) s (s.removeHandle h k) := by
  rcases removeHandle_cases s h k with ⟨-, heq⟩ | ⟨e, hslot, -, heq⟩
  · rw [heq]
    exact apart_push (hk false)
  · rw [heq]
    refine (apart_clear hslot).trans (apart_push fun f hf => ?_)
    rcases mem_append.1 hf with hf | hf
    · split_ifs at hf
      · rw [mem_singleton.1 hf]
        exact Or.inl rfl
      · cases hf
    · rcases mem_cons.1 hf with rfl | hf
      · exact Or.inl rfl
      · exact hk true f hf

theorem apart_prepareOperation (hplain : h.op.stream = false) (t : Try) (fails : Bool) :
    Apart none s (s.prepareOperation h t fails).1 := by
  have hreserve : ∀ keys, s.slotTaken h = false →
      Apart none s { (s.attempt h t).1.reserve h with keys := keys } := by
    intro keys hfree
    have hfree' : (s.attempt h t).1.slotTaken h = false := hfree
    exact (apart_attempt t).trans (((apart_reserve hfree').of_plain hplain).trans (apart_keys keys))
  have hfree : s.refuses h = false → s.slotTaken h = false := by
    intro hrefuses
    simp only [refuses, Bool.or_eq_false_iff] at hrefuses
    exact hrefuses.2
  rcases prepareOperation_cases s h t fails with ⟨-, heq⟩ | ⟨hopen, keys, heq | heq⟩ | ⟨-, heq⟩
  · rw [heq]
    exact Apart.refl s
  · rw [heq]
    exact hreserve keys (hfree hopen)
  · rw [heq]
    exact hreserve keys (hfree hopen)
  · rw [heq]
    exact apart_attempt t

end State
end Pytealet.Selector
