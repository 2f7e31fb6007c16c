import Pytealet.Selector.WriteLine

/-!
# Selector.WriteOrder — the write side of a descriptor acts in order of submission

Seen from one descriptor, every step of the proactor is a move of a line (`Lib.Line`): operations
join at the end, leave, and only the head acts.  The exception is a shutdown or close that finds the
write side idle: `_run_or_enqueue_write` releases the lock before `run()`, so another thread may
submit in between.  `Calm` is what a run must keep to avoid it, and under it every run is in order.
-/

namespace Pytealet.Selector

open Lib Lib.Transition List

/-! ## The bytes of a `send_all` -/

def Effect.chunk : Effect → List UInt8
  | .bytes c => c
  | _ => []

/-- What the operation has put on the wire. -/
def State.sent (s : State) (h : Handle) : List UInt8 :=
  ((s.wire.filter fun x => x.1 = h).map fun x => x.2.chunk).flatten

/-- A `send_all` has sent its data up to its offset. -/
def State.Bytes (s : State) : Prop :=
  ∀ h k data, h.op = .sendAll k data → s.offset h ≤ data.length ∧ s.sent h = data.take (s.offset h)

theorem sendLoop_spec (data : List UInt8) (offset : Nat) (sents : List Nat) (fin : Outcome)
    (hle : offset ≤ data.length) :
    (sendLoop data offset sents fin).1 ≤ data.length ∧
      data.take offset ++ (sendLoop data offset sents fin).2.1.flatten =
        data.take (sendLoop data offset sents fin).1 := by
  fun_induction sendLoop data offset sents fin with
  | case4 offset sent sents fin hlt hzero chunk offset' chunks out heq ih =>
    have hchunk : chunk.length ≤ data.length - offset := by
      simp only [chunk, length_take, length_drop]
      exact Nat.min_le_right _ _
    have hmore := ih (by omega)
    rw [heq] at hmore
    refine ⟨hmore.1, ?_⟩
    have htake : data.take (offset + chunk.length) = data.take offset ++ chunk := by
      rw [take_add]
      congr 1
      simp [chunk]
    rw [flatten_cons, ← append_assoc, ← htake]
    exact hmore.2
  | _ =>
    simp_all

theorem sent_append (s : State) (h h' : Handle) (effects : List Effect) :
    (((s.wire ++ effects.map fun x => (h, x)).filter fun x => x.1 = h').map fun x => x.2.chunk).flatten =
      s.sent h' ++ if h = h' then (effects.map Effect.chunk).flatten else [] := by
  unfold State.sent
  rw [filter_append, map_append, flatten_append]
  congr 1
  by_cases hh : h = h'
  · simp [hh, filter_map, Function.comp_def]
  · simp [hh, filter_map, Function.comp_def]

variable {s s' : State} {h : Handle}

theorem bytes_attempt (t : Try) (hbytes : s.Bytes) : (s.attempt h t).1.Bytes := by
  intro h' k data hop
  have hspec := hbytes h' k data hop
  have hsent : (s.attempt h t).1.sent h' = s.sent h' ++
      if h = h' then ((h.op.attempt (s.offset h) t).2.1.map Effect.chunk).flatten else [] :=
    sent_append s h h' _
  rw [hsent]
  simp only [State.attempt]
  by_cases hh : h = h'
  · subst hh
    simp only [if_true, Function.update_self]
    have hloop := sendLoop_spec data (s.offset h) t.sents t.outcome hspec.1
    simp only [hop, Op.attempt, map_map, Function.comp_def, Effect.chunk, map_id']
    rw [hspec.2]
    exact hloop
  · rw [if_neg hh, append_nil, Function.update_of_ne (Ne.symm hh)]
    exact hspec

theorem bytes_runDirect (t : Try) (hbytes : s.Bytes) : (s.runDirect h t).Bytes := by
  by_cases hsend : ∃ k data, h.op = .sendAll k data
  · rcases hsend with ⟨k, data, hop⟩
    simpa [State.runDirect, hop] using hbytes
  rcases State.runDirect_eq s h t with ⟨effects, closed, heq, -⟩
  rw [heq]
  intro h' k data hop
  have hne : h ≠ h' := by
    rintro rfl
    exact hsend ⟨k, data, hop⟩
  have hsent := sent_append s h h' effects
  rw [if_neg hne, append_nil] at hsent
  have hspec := hbytes h' k data hop
  exact ⟨hspec.1, hsent.trans hspec.2⟩

theorem Handle.closedIn_mono {closed closed' : Sock → Bool}
    (hle : ∀ k, closed k = true → closed' k = true) (h : Handle) (hclosed : h.closedIn closed = true) :
    h.closedIn closed' = true := by
  unfold Handle.closedIn at hclosed ⊢
  cases hk : h.op.sock? with
  | none =>
    rw [hk] at hclosed
    cases hclosed
  | some k =>
    rw [hk] at hclosed
    exact hle k hclosed

theorem Entry.writeLine_enqueue (en : Entry) (h : Handle) :
    (en.enqueue h).writeLine = en.writeLine ++ [h.id] := by
  simp [Entry.writeLine, Entry.enqueue]

/-! ## The invariant -/

namespace State

structure WriteInv (s : State) : Prop where
  ordered : ∀ fd, Line.Ordered s.count (s.line fd) (s.log fd)
  alone : s.Alone
  tidy : s.Tidy
  drained : s.Drained
  bytes : s.Bytes

theorem log_append {effects : List Effect} (fd : Nat)
    (hwire : s'.wire = s.wire ++ effects.map fun x => (h, x)) :
    s'.log fd = s.log fd ++ if h.fd = fd then List.replicate effects.length h.id else [] := by
  unfold log State.effects
  rw [hwire, filter_append, map_append]
  congr 1
  by_cases hfd : h.fd = fd
  · simp [hfd, filter_map, Function.comp_def]
  · simp [hfd, filter_map, Function.comp_def]

namespace WriteInv

variable {s s' : State} {h : Handle}

theorem quiet (hI : s.WriteInv) (hq : Quiet s s') (hcount : s'.count = s.count ∨ s'.count = s.count + 1) :
    s'.WriteInv where
  ordered := by
    intro fd
    have hlog : s'.log fd = s.log fd := by
      unfold log State.effects
      rw [hq.wire]
    rw [hlog]
    rcases hcount with hcount | hcount
    · rw [hcount]
      exact (Line.Move.leave (hq.line fd)).ordered (hI.ordered fd)
    · rw [hcount]
      exact (Line.Move.arrive ((hq.line fd).trans (sublist_append_left ..))).ordered (hI.ordered fd)
  alone := hq.alone hI.alone
  tidy := hq.tidy hI.tidy
  drained := hq.drained hI.drained
  bytes := by
    intro h k data hop
    rw [hq.offset]
    have hsent : s'.sent h = s.sent h := by
      unfold sent
      rw [hq.wire]
    rw [hsent]
    exact hI.bytes h k data hop

theorem act (hI : s.WriteInv) {rest : List Nat} {effects : List Effect} (hhead : s.line h.fd = h.id :: rest)
    (hwire : s'.wire = s.wire ++ effects.map fun x => (h, x)) (hcount : s'.count = s.count)
    (htable : s'.table = s.table) (hstack : s'.stack = s.stack)
    (hruns : ∀ fd, (s'.runs fd).Sublist (s.runs fd)) (hbytes : s'.Bytes) : s'.WriteInv where
  ordered := by
    intro fd
    have hline : (s'.line fd).Sublist (s.line fd) := by
      unfold line
      rw [htable]
      exact (List.Sublist.refl _).append (hruns fd)
    rw [hcount, log_append fd hwire]
    by_cases hfd : h.fd = fd
    · subst hfd
      rw [if_pos rfl]
      exact (Line.Move.act _ rest _ hhead hline).ordered (hI.ordered _)
    · rw [if_neg hfd, append_nil]
      exact (Line.Move.leave hline).ordered (hI.ordered fd)
  alone := by
    intro fd
    rw [htable]
    rcases hI.alone fd with hnone | ⟨hidle, hone⟩
    · exact .inl (sublist_nil.1 (hnone ▸ hruns fd))
    · exact .inr ⟨hidle, (hruns fd).length_le.trans hone⟩
  tidy := by
    intro fd h' hreader
    rw [htable] at hreader
    exact hI.tidy fd h' hreader
  drained := by
    intro fd e hs hqueue
    rw [htable] at hs hqueue ⊢
    rw [hstack]
    exact hI.drained fd e hs hqueue
  bytes := hbytes

theorem attempt (hI : s.WriteInv) (t : Try)
    (hhead : h.op.queued = true → ∃ rest, s.line h.fd = h.id :: rest) : (s.attempt h t).1.WriteInv := by
  cases hq : h.op.queued with
  | false =>
    rw [attempt_of_not_queued h t hq]
    exact hI
  | true =>
    rcases hhead hq with ⟨rest, hhead⟩
    exact hI.act hhead rfl rfl rfl rfl (fun _ => List.Sublist.refl _) (bytes_attempt t hI.bytes)

end WriteInv

theorem runs_of_closed {closed : Sock → Bool} (hle : ∀ k, s.closedSocks k = true → closed k = true)
    (fd : Nat) (frames : List Frame) :
    (frames.filterMap (Frame.runOn closed fd)).Sublist
      (frames.filterMap (Frame.runOn s.closedSocks fd)) := by
  induction frames with
  | nil => exact List.Sublist.refl _
  | cons f frames ih =>
    have hf : Frame.runOn closed fd f = none ∨
        Frame.runOn closed fd f = Frame.runOn s.closedSocks fd f := by
      cases f with
      | run h =>
        have hmono := Handle.closedIn_mono hle h
        simp only [Frame.runOn]
        cases hc : h.closedIn closed <;> cases hs : h.closedIn s.closedSocks <;> simp_all
      | _ => exact .inl rfl
    rcases hf with hf | hf
    · rw [filterMap_cons_none hf]
      refine ih.trans ?_
      exact (sublist_cons_self f frames).filterMap _
    · cases hg : Frame.runOn s.closedSocks fd f with
      | none =>
        rw [filterMap_cons_none hg, filterMap_cons_none (hf.trans hg)]
        exact ih
      | some i =>
        rw [filterMap_cons_some hg, filterMap_cons_some (hf.trans hg)]
        exact ih.cons₂ i

theorem line_of_run (halone : s.Alone) (hmem : Frame.run h ∈ s.stack ++ s.loose)
    (hopen : h.closedIn s.closedSocks = false) : s.line h.fd = [h.id] := by
  have hrun : h.id ∈ s.runs h.fd := by
    unfold runs
    rw [mem_filterMap]
    exact ⟨_, hmem, by simp [Frame.runOn, hopen]⟩
  rcases halone h.fd with hnone | ⟨hidle, hone⟩
  · rw [hnone] at hrun
    cases hrun
  · unfold line
    rw [hidle, nil_append]
    match hruns : s.runs h.fd, hrun, hone with
    | [i], hrun, _ =>
      rw [mem_singleton] at hrun
      rw [hrun]

theorem WriteInv.runDirect (hI : s.WriteInv) (t : Try)
    (hhead : h.closedIn s.closedSocks = false → ∃ rest, s.line h.fd = h.id :: rest) :
    (s.runDirect h t).WriteInv := by
  cases hclosed : h.closedIn s.closedSocks with
  | true =>
    rw [runDirect_of_closed h t hclosed]
    exact hI
  | false =>
    rcases hhead hclosed with ⟨rest, hhead⟩
    have hbytes := bytes_runDirect (h := h) t hI.bytes
    rcases runDirect_eq s h t with ⟨effects, closed, heq, hle⟩
    rw [heq] at hbytes ⊢
    exact hI.act hhead rfl rfl rfl rfl (fun fd => runs_of_closed hle fd _) hbytes

theorem WriteInv.callSync (hI : s.WriteInv) (t : Try)
    (hhead : h.closedIn s.closedSocks = false → ∃ rest, s.line h.fd = h.id :: rest) :
    (s.callSync h t).1.WriteInv := by
  have hrun := hI.runDirect t hhead
  rcases (callSync_eq s h t).1 with heq | heq
  · rw [heq]
    exact hrun
  · rw [heq]
    exact hrun.quiet quiet_callBack (.inl rfl)

/-! ## Arrivals -/

theorem WriteInv.arriveRun (hI : s.WriteInv) (hid : h.id = s.count)
    (hidle : (s.table.entryAt h.fd).writeLine = []) (hnone : s.runs h.fd = [])
    (hcount : s'.count = s.count + 1) (htable : s'.table = s.table) (hwire : s'.wire = s.wire)
    (hoffset : s'.offset = s.offset) (hdrains : ∀ e, Frame.drain e ∈ s.stack → Frame.drain e ∈ s'.stack)
    (hruns : ∀ fd, (s'.runs fd).Sublist (if h.fd = fd then [h.id] else s.runs fd)) : s'.WriteInv where
  ordered := by
    intro fd
    have hlog : s'.log fd = s.log fd := by
      unfold log State.effects
      rw [hwire]
    rw [hlog, hcount]
    refine (Line.Move.arrive ?_).ordered (hI.ordered fd)
    have hfd := hruns fd
    unfold line
    rw [htable]
    split_ifs at hfd with heq
    · subst heq
      rw [hidle, hnone, ← hid]
      exact hfd
    · rw [append_assoc]
      exact (List.Sublist.refl _).append (hfd.trans (sublist_append_left ..))
  alone := by
    intro fd
    have hfd := hruns fd
    rw [htable]
    split_ifs at hfd with heq
    · subst heq
      exact .inr ⟨hidle, hfd.length_le⟩
    · rcases hI.alone fd with hno | ⟨hno, hone⟩
      · exact .inl (sublist_nil.1 (hno ▸ hfd))
      · exact .inr ⟨hno, hfd.length_le.trans hone⟩
  tidy := by
    intro fd h' hreader
    rw [htable] at hreader
    exact hI.tidy fd h' hreader
  drained := by
    intro fd e hs hqueue
    rw [htable] at hs hqueue ⊢
    exact (hI.drained fd e hs hqueue).imp_right (hdrains e)
  bytes := by
    intro h' k data hop
    have hsent : s'.sent h' = s.sent h' := by
      unfold sent
      rw [hwire]
    rw [hoffset, hsent]
    exact hI.bytes h' k data hop

theorem WriteInv.enqueueWrite (hI : s.WriteInv) (hid : h.id = s.count)
    (hbusy : s.writeBusy h.fd = true) (hnone : s.runs h.fd = []) (ok : Bool) :
    ((s.enqueueWrite h).issue h ok).WriteInv := by
  have hat : (s.table.enqueueWrite h).entryAt =
      Function.update s.table.entryAt h.fd ((s.table.entryAt h.fd).enqueue h) := Table.entryAt_put
  have hother : ∀ fd, fd ≠ h.fd → (s.table.enqueueWrite h).entryAt fd = s.table.entryAt fd := by
    intro fd hfd
    rw [hat, Function.update_of_ne hfd]
  have hself : (s.table.enqueueWrite h).entryAt h.fd = (s.table.entryAt h.fd).enqueue h := by
    rw [hat, Function.update_self]
  refine ⟨fun fd => ?_, fun fd => ?_, fun fd h' hreader => ?_, fun fd e hs hqueue => ?_, hI.bytes⟩
  · refine (Line.Move.arrive ?_).ordered (hI.ordered fd)
    change (((s.table.enqueueWrite h).entryAt fd).writeLine ++ s.runs fd).Sublist _
    by_cases hfd : fd = h.fd
    · subst hfd
      rw [hself, Entry.writeLine_enqueue, hnone, hid, line, hnone, append_nil, append_nil]
      exact List.Sublist.refl _
    · rw [hother fd hfd]
      exact sublist_append_left ..
  · by_cases hfd : fd = h.fd
    · subst hfd
      exact .inl hnone
    · have halone := hI.alone fd
      rw [← hother fd hfd] at halone
      exact halone
  · have hreader' : ((s.table.enqueueWrite h).entryAt fd).reader = some h' := hreader
    by_cases hfd : fd = h.fd
    · subst hfd
      rw [hself] at hreader'
      exact hI.tidy _ h' hreader'
    · rw [hother fd hfd] at hreader'
      exact hI.tidy fd h' hreader'
  · have hdrained : (s.enqueueWrite h).Drained := by
      refine Drained.put hI.drained fun _ => ?_
      simp only [writeBusy, Bool.or_eq_true, Option.isSome_iff_ne_none, Bool.not_eq_true',
        isEmpty_eq_false_iff] at hbusy
      exact hbusy.imp_right fun hq => ⟨hq, rfl⟩
    exact hdrained fd e hs hqueue

theorem writeLine_of_idle {fd : Nat} (hidle : s.writeBusy fd = false) :
    (s.table.entryAt fd).writeLine = [] := by
  simp only [writeBusy, Bool.or_eq_false_iff, Option.isSome_eq_false_iff, Option.isNone_iff_eq_none,
    Bool.not_eq_false', List.isEmpty_iff] at hidle
  simp [Entry.writeLine, hidle.1, hidle.2]

theorem idle_of_free (hopen : h.closedIn s.closedSocks = false)
    (hidle : s.sockClosed h = true ∨ s.writeBusy h.fd = false) : s.writeBusy h.fd = false :=
  hidle.resolve_left (by simp [sockClosed, hopen])

theorem line_reserve (hidle : s.writeBusy h.fd = false) (fd : Nat) :
    ((s.table.reserve h).entryAt fd).writeLine.Sublist
      (if h.fd = fd then [h.id] else (s.table.entryAt fd).writeLine) := by
  have hat : (s.table.reserve h).entryAt =
      Function.update s.table.entryAt h.fd ((s.table.entryAt h.fd).reserve h) := Table.entryAt_put
  rw [hat]
  split_ifs with hfd
  · subst hfd
    simp only [writeBusy, Bool.or_eq_false_iff, Option.isSome_eq_false_iff, Option.isNone_iff_eq_none,
      Bool.not_eq_false', List.isEmpty_iff] at hidle
    rw [Function.update_self]
    simp only [Entry.writeLine, Entry.reserve, hidle.1, hidle.2]
    cases h.op.mask.write <;> cases hq : h.op.queued <;> simp [hq]
  · rw [Function.update_of_ne (Ne.symm hfd)]

theorem WriteInv.startAttempt (hI : s.WriteInv) (hid : h.id = s.count)
    (hopen : h.closedIn s.closedSocks = false) (hidle : s.writeBusy h.fd = false)
    (hnone : s.runs h.fd = []) (t : Try) :
    (({ s.issue h true with loose := s.loose ++ [.run h] } : State).attempt h t).1.WriteInv := by
  have hruns : ∀ fd, (({ s.issue h true with loose := s.loose ++ [.run h] } : State).runs fd).Sublist
      (if h.fd = fd then [h.id] else s.runs fd) := by
    intro fd
    have happ : ({ s.issue h true with loose := s.loose ++ [.run h] } : State).runs fd =
        s.runs fd ++ [Frame.run h].filterMap (Frame.runOn s.closedSocks fd) := by
      simp only [runs, issue, ← append_assoc]
      rw [filterMap_append]
    rw [happ]
    split_ifs with hfd
    · subst hfd
      simp [hnone, Frame.runOn, hopen]
    · simp [Frame.runOn, hfd]
  have hI₁ : ({ s.issue h true with loose := s.loose ++ [.run h] } : State).WriteInv :=
    hI.arriveRun hid (writeLine_of_idle hidle) hnone rfl rfl rfl rfl (fun _ => id) hruns
  refine hI₁.attempt t fun _ => ⟨[], ?_⟩
  exact line_of_run hI₁.alone (by simp) hopen

theorem WriteInv.start (hI : s.WriteInv) (hid : h.id = s.count)
    (hidle : s.sockClosed h = true ∨ s.writeBusy h.fd = false)
    (hnone : s.runs h.fd = []) (t : Try) (fails : Bool) : (s.submitOneshot h t fails).WriteInv := by
  have hopen : s.refuses h = false → h.closedIn s.closedSocks = false := by
    intro hrefuses
    simp only [refuses, Bool.or_eq_false_iff] at hrefuses
    exact hrefuses.1.1.2
  have hparked : s.refuses h = false → ∀ keys ok,
      (({ (s.attempt h t).1.reserve h with keys := keys } : State).issue h ok).WriteInv := by
    intro hrefuses keys ok
    have hfree := idle_of_free (hopen hrefuses) hidle
    have hstart := hI.startAttempt hid (hopen hrefuses) hfree hnone t
    have hother : ∀ fd, fd ≠ h.fd → (s.table.reserve h).entryAt fd = s.table.entryAt fd := by
      intro fd hfd
      have hat : (s.table.reserve h).entryAt =
          Function.update s.table.entryAt h.fd ((s.table.entryAt h.fd).reserve h) := Table.entryAt_put
      rw [hat, Function.update_of_ne hfd]
    refine hstart.quiet ⟨rfl, rfl, fun fd => ?_, fun halone fd => ?_, fun _ => tidy_reserve hI.tidy,
      fun _ => drained_reserve hI.drained⟩ (.inl rfl)
    · -- the operation has moved from the runs to the writer slot
      have hruns : (({ s.issue h true with loose := s.loose ++ [.run h] } : State).runs fd) =
          s.runs fd ++ [Frame.run h].filterMap (Frame.runOn s.closedSocks fd) := by
        simp only [runs, issue, ← append_assoc]
        rw [filterMap_append]
      change (((s.table.reserve h).entryAt fd).writeLine ++ s.runs fd).Sublist
        ((s.table.entryAt fd).writeLine ++
          ({ s.issue h true with loose := s.loose ++ [.run h] } : State).runs fd)
      have hline := line_reserve hfree fd
      rw [hruns]
      split_ifs at hline with hfd
      · subst hfd
        rw [writeLine_of_idle hfree, hnone]
        simpa [Frame.runOn, hopen hrefuses] using hline
      · simpa [Frame.runOn, hfd] using hline
    · change s.runs fd = [] ∨ (((s.table.reserve h).entryAt fd).writeLine = [] ∧ _)
      by_cases hfd : fd = h.fd
      · subst hfd
        exact .inl hnone
      · rw [hother fd hfd]
        exact hI.alone fd
  unfold submitOneshot
  rcases prepareOperation_cases s h t fails with
    ⟨hrefuses, heq⟩ | ⟨hrefuses, keys, heq | heq⟩ | ⟨hrefuses, heq⟩
  · rw [heq]
    exact hI.quiet ((quiet_issue false).trans (quiet_raise (by decide))) (.inr rfl)
  · rw [heq]
    exact (hparked hrefuses keys false).quiet (quiet_raise (by decide)) (.inl rfl)
  · rw [heq]
    exact hparked hrefuses keys true
  · rw [heq]
    have hstart := hI.startAttempt hid (hopen hrefuses) (idle_of_free (hopen hrefuses) hidle) hnone t
    refine hstart.quiet (Quiet.of_frames rfl rfl rfl (fun fd => ?_) fun e he => ?_) (.inl rfl)
    · change ((Frame.finish h :: s.stack ++ s.loose).filterMap (Frame.runOn s.closedSocks fd)).Sublist
        ((s.stack ++ (s.loose ++ [Frame.run h])).filterMap (Frame.runOn s.closedSocks fd))
      rw [← append_assoc, cons_append, filterMap_cons_none rfl]
      exact (sublist_append_left ..).filterMap _
    · exact mem_cons_of_mem _ he

theorem WriteInv.submitOther (hI : s.WriteInv) (hqueued : h.op.queued = false)
    (t : Try) (fails : Bool) : (s.submitOneshot h t fails).WriteInv := by
  have hattempt := attempt_of_not_queued (s := s) h t hqueued
  have hparked : s.refuses h = false → ∀ keys ok,
      (({ (s.attempt h t).1.reserve h with keys := keys } : State).issue h ok).WriteInv := by
    intro hrefuses keys ok
    simp only [refuses, Bool.or_eq_false_iff] at hrefuses
    rw [hattempt]
    exact hI.quiet ((quiet_reserve hrefuses.2 hqueued).trans ((quiet_keys keys).trans (quiet_issue ok)))
      (.inr rfl)
  unfold submitOneshot
  rcases prepareOperation_cases s h t fails with
    ⟨hrefuses, heq⟩ | ⟨hrefuses, keys, heq | heq⟩ | ⟨hrefuses, heq⟩
  · rw [heq]
    exact hI.quiet ((quiet_issue false).trans (quiet_raise (by decide))) (.inr rfl)
  · rw [heq]
    exact (hparked hrefuses keys false).quiet (quiet_raise (by decide)) (.inl rfl)
  · rw [heq]
    exact hparked hrefuses keys true
  · rw [heq, hattempt]
    exact hI.quiet ((quiet_issue true).trans (quiet_push (by simp))) (.inr rfl)

theorem WriteInv.submitSend (hI : s.WriteInv) (hid : h.id = s.count)
    (hnone : s.runs h.fd = []) (t : Try) (fails : Bool) : (s.submitSend h t fails).WriteInv := by
  unfold State.submitSend
  split_ifs with hclosed hbusy
  · exact hI.quiet (quiet_issue false) (.inr rfl)
  · simp only [Bool.and_eq_true] at hbusy
    exact hI.enqueueWrite hid hbusy.2 hnone true
  · refine hI.start hid ?_ hnone t fails
    simp only [Bool.and_eq_true, Bool.not_eq_true', not_and_or, Bool.not_eq_true,
      Bool.not_eq_false] at hbusy
    exact hbusy

theorem WriteInv.runOutside (hI : s.WriteInv) (hid : h.id = s.count)
    (hidle : h.closedIn s.closedSocks = true ∨ s.writeBusy h.fd = false) (hnone : s.runs h.fd = []) :
    ((s.issue h true).outside [.run h]).WriteInv := by
  have hruns : ∀ fd, (((s.issue h true).outside [.run h]).runs fd).Sublist
      (if h.fd = fd then [Frame.run h].filterMap (Frame.runOn s.closedSocks fd) else s.runs fd) := by
    intro fd
    split_ifs with hfd
    · subst hfd
      rcases runs_outside (s.issue h true) [.run h] h.fd with heq | heq
      · rw [heq, show (s.issue h true).runs h.fd = [] from hnone, nil_append]
        exact List.Sublist.refl _
      · rw [heq, show (s.issue h true).runs h.fd = [] from hnone, append_nil]
        exact List.Sublist.refl _
    · have hother : [Frame.run h].filterMap (Frame.runOn s.closedSocks fd) = [] := by
        simp [Frame.runOn, hfd]
      rcases runs_outside (s.issue h true) [.run h] fd with heq | heq
      · rw [heq, show [Frame.run h].filterMap (Frame.runOn (s.issue h true).closedSocks fd) =
          [] from hother,
          append_nil]
        exact List.Sublist.refl _
      · rw [heq, show [Frame.run h].filterMap (Frame.runOn (s.issue h true).closedSocks fd) =
          [] from hother,
          nil_append]
        exact List.Sublist.refl _
  rcases outside_frame (s.issue h true) [.run h] with ⟨stack, loose, heq, hstack⟩
  rw [heq] at hruns ⊢
  cases hopen : h.closedIn s.closedSocks with
  | true =>
    -- the socket is closed: the `run()` will do nothing
    refine hI.quiet (Quiet.of_frames rfl rfl rfl (fun fd => ?_) fun e he => hstack _ he) (.inr rfl)
    refine (hruns fd).trans ?_
    split_ifs with hfd
    · simp [Frame.runOn, hopen]
    · exact List.Sublist.refl _
  | false =>
    have hfree : s.writeBusy h.fd = false := hidle.resolve_left (by simp [hopen])
    refine hI.arriveRun hid (writeLine_of_idle hfree) hnone rfl rfl rfl rfl (fun e he => hstack _ he)
      fun fd => ?_
    refine (hruns fd).trans ?_
    split_ifs with hfd
    · simp [Frame.runOn, hopen, hfd]
    · exact List.Sublist.refl _

theorem WriteInv.runOrEnqueueWrite (hI : s.WriteInv) (hid : h.id = s.count)
    (hnone : s.runs h.fd = []) : (s.runOrEnqueueWrite h).WriteInv := by
  unfold State.runOrEnqueueWrite
  split_ifs with hopen hclosed hbusy
  · exact hI.runOutside hid (.inl hopen) hnone
  · exact hI.quiet (quiet_issue false) (.inr rfl)
  · exact hI.enqueueWrite hid hbusy hnone true
  · exact hI.runOutside hid (.inr (by simpa using hbusy)) hnone

theorem WriteInv.submitStream (hI : s.WriteInv) (hstream : h.op.stream = true)
    (t : Try) (fails : Bool) : (s.submitStream h t fails).WriteInv := by
  have hqueued : h.op.queued = false := by
    cases hop : h.op <;> simp_all [Op.stream, Op.queued]
  have hfree : ¬ s.refuses h = true → s.slotTaken h = false := by
    intro hrefuses
    simp only [refuses, Bool.or_eq_true, not_or, Bool.not_eq_true] at hrefuses
    exact hrefuses.2
  have hstep : (if s.refuses h then s.issue h false
      else ((s.reserve h).issue h true).stepContinuous h t fails).WriteInv := by
    split_ifs with hrefuses
    · exact hI.quiet (quiet_issue false) (.inr rfl)
    · have hq := (quiet_reserve (hfree hrefuses) hqueued).trans ((quiet_issue true).trans
        (quiet_stepContinuous (s := (s.reserve h).issue h true) (h := h) t fails))
      rcases stepContinuous_eq ((s.reserve h).issue h true) h t fails with ⟨keys, deliveries, stack, heq⟩
      rw [heq] at hq ⊢
      exact hI.quiet hq (.inr rfl)
  unfold State.submitStream
  split
  · rename_i b _ _
    have hq :=
      (quiet_issue true).trans (quiet_emit.trans
        (quiet_userOutside (s := (s.issue h true).emit h ⟨b, false⟩)))
    rcases userOutside_eq ((s.issue h true).emit h ⟨b, false⟩) with ⟨stack, heq⟩
    rw [heq] at hq ⊢
    exact hI.quiet hq (.inr rfl)
  · exact hstep
  · exact hstep
  · split_ifs with hrefuses
    · exact hI.quiet (quiet_issue false) (.inr rfl)
    · have hreserve := quiet_reserve (hfree hrefuses) hqueued
      rcases updateSelectorRegistration_eq (s.reserve h) h.fd fails with ⟨keys, hkeys⟩
      split
      · rename_i s' heq
        rw [heq] at hkeys
        simp only at hkeys
        subst hkeys
        exact hI.quiet (hreserve.trans ((quiet_keys keys).trans ((quiet_issue false).trans
          (quiet_raise (by decide))))) (.inr rfl)
      · rename_i s' heq
        rw [heq] at hkeys
        simp only at hkeys
        subst hkeys
        exact hI.quiet (hreserve.trans ((quiet_keys keys).trans (quiet_issue true))) (.inr rfl)

/-! ## Steps -/

/-- What keeps a run in order: nothing is submitted to the write side of a descriptor while another
thread stands between the lock and the `run()` of a shutdown or close on it, and no exception leaves
a drain loop. -/
def Calm (s : State) : Action → Prop
  | .submit op _ _ => op.queued = true → s.runs op.fd = []
  | .throw e => ∀ f ∈ s.stack, f.isDrain = true → f ∈ unwind e s.stack.tail
  | _ => True

instance (s : State) : ∀ a, Decidable (s.Calm a)
  | .submit op _ _ => inferInstanceAs (Decidable (op.queued = true → s.runs op.fd = []))
  | .throw e => inferInstanceAs (Decidable (∀ f ∈ s.stack, f.isDrain = true → f ∈ unwind e s.stack.tail))
  | .ready .. | .stop _ | .go .. | .back | .loose .. | .closeSock _ | .close => isTrue trivial

theorem WriteInv.submit (hI : s.WriteInv) {op : Op} {t : Try} {fails : Bool}
    (hcalm : s.Calm (.submit op t fails)) : (s.submit op t fails).WriteInv := by
  unfold State.submit
  split
  · have hq := quiet_userOutside (s := s)
    rcases userOutside_eq s with ⟨stack, heq⟩
    rw [heq] at hq ⊢
    exact hI.quiet hq (.inl rfl)
  · rename_i k data _
    exact hI.submitSend (h := ⟨s.count, .send k data⟩) rfl (hcalm rfl) t fails
  · rename_i k data
    exact hI.submitSend (h := ⟨s.count, .sendAll k data⟩) rfl (hcalm rfl) t fails
  · rename_i k how c
    exact hI.runOrEnqueueWrite (h := ⟨s.count, .shutdown k how c⟩) rfl (hcalm rfl)
  · rename_i k c
    exact hI.runOrEnqueueWrite (h := ⟨s.count, .closeSocket k c⟩) rfl (hcalm rfl)
  · exact hI.submitOther rfl t fails
  · exact hI.submitOther rfl t fails
  · exact hI.submitStream rfl t fails
  · exact hI.submitStream rfl t fails

theorem line_of_writer (hwriter : (s.table.entryAt h.fd).writer = some h)
    (hqueued : h.op.queued = true) : ∃ rest, s.line h.fd = h.id :: rest := by
  simp [line, Entry.writeLine, hwriter, hqueued]

theorem line_of_queue {q : List Handle}
    (hqueue : (s.table.entryAt h.fd).writeQueue = h :: q) (hwriter : (s.table.entryAt h.fd).writer = none) :
    ∃ rest, s.line h.fd = h.id :: rest := by
  simp [line, Entry.writeLine, hwriter, hqueue]

theorem WriteInv.stepFdOperation (hI : s.WriteInv) (fd : Nat) (event : Event) (t : Try)
    (fails : Bool) : (s.stepFdOperation fd event t fails).WriteInv := by
  unfold State.stepFdOperation
  split
  · exact hI
  · rename_i h hslot
    have hfd : h.fd = fd := by
      refine Table.fd_of_has (t := s.table) ?_
      cases event with
      | read => exact .inl hslot
      | write => exact .inr (.inl hslot)
    split_ifs with hstream hdone
    · have hq := quiet_stepContinuous (s := s) (h := h) t fails
      rcases stepContinuous_eq s h t fails with ⟨keys, deliveries, stack, heq⟩
      rw [heq] at hq ⊢
      exact hI.quiet hq (.inl rfl)
    · exact hI
    · have hattempt : (s.attempt h t).1.WriteInv := by
        refine hI.attempt t fun hqueued => ?_
        subst hfd
        cases event with
        | read =>
          have := hI.tidy _ h hslot
          simp [hqueued] at this
        | write => exact line_of_writer hslot hqueued
      unfold State.stepOneshot
      split
      · rename_i s₁ heq
        rw [heq] at hattempt
        have hq : Quiet s₁ (s₁.update h.fd fails) := quiet_update fails
        rcases update_eq s₁ h.fd fails with ⟨keys, hupdate⟩
        rw [hupdate] at hq ⊢
        exact hattempt.quiet hq (.inl rfl)
      · rename_i s₁ out hout heq
        rw [heq] at hattempt
        have hq := quiet_removeHandle (s := s₁) (h := h) (k := fun _ => [.finish h]) (by simp)
        rcases removeHandle_eq s₁ h fun _ => [.finish h] with ⟨table, stack, hremove⟩
        rw [hremove] at hq ⊢
        exact hattempt.quiet hq (.inl rfl)

theorem WriteInv.selectorStopHandle (hI : s.WriteInv) (h : Handle) :
    (s.selectorStopHandle h).WriteInv := by
  unfold State.selectorStopHandle
  split_ifs
  · exact hI
  · have hq := quiet_removeHandle (s := s) (h := h) (k := fun removed => [.stopTail h removed]) (by simp)
    rcases removeHandle_eq s h fun removed => [.stopTail h removed] with ⟨table, stack, hremove⟩
    rw [hremove] at hq ⊢
    exact hI.quiet hq (.inl rfl)

theorem WriteInv.drainWriteQueue {e : Nat} {st : List Frame} (hI : s.WriteInv)
    (hstack : s.stack = .drain e :: st) (t : Try) (fails : Bool) :
    (s.drainWriteQueue e st t fails).WriteInv := by
  have hmem : Frame.drain e ∈ s.stack := by simp [hstack]
  unfold State.drainWriteQueue
  split
  · rename_i h q hqueue hwriter
    have hhas : (s.table.entries e).Has h := .inr (.inr (by rw [hqueue]; simp))
    have hat := Table.entryAt_of_has hhas
    have hhead : ∃ rest, s.line h.fd = h.id :: rest :=
      line_of_queue (hat ▸ hqueue) (hat ▸ hwriter)
    unfold State.runItem
    split_ifs with hdirect hdone
    · rw [callSync_table]
      rcases callSync_frame s h t with ⟨htable, hstk, -, hcount⟩
      have hcall := hI.callSync t fun _ => hhead
      have hpop := quiet_popleft (s := (s.callSync h t).1) (e := e) (h := h) (q := q)
        (by rw [htable]; exact hqueue) (by rw [hstk]; exact hmem)
      rw [htable] at hpop
      refine hcall.quiet (hpop.trans (quiet_push fun f hf h' => ?_)) (.inl rfl)
      rw [(callSync_eq s h t).2 f hf]
      simp
    · exact hI.quiet (quiet_popleft hqueue hmem) (.inl rfl)
    · have hattempt := hI.attempt t fun _ => hhead
      have htried := attempt_table s h t (s.table.popleft e)
      have hparked :
          ∀ keys, ({ (({ s with table := s.table.popleft e } : State).attempt h t).1.reserve h with
          keys := keys } : State).WriteInv := by
        intro keys
        rw [htried]
        exact hattempt.quiet ((quiet_popReserve (s := (s.attempt h t).1) hqueue hwriter hmem).trans
          (quiet_keys keys)) (.inl rfl)
      rcases prepareOperation_cases { s with table := s.table.popleft e } h t fails with
        ⟨-, heq⟩ | ⟨-, keys, heq | heq⟩ | ⟨-, heq⟩
      · rw [heq]
        exact hI.quiet ((quiet_popleft hqueue hmem).trans (quiet_push (by simp))) (.inl rfl)
      · rw [heq]
        exact (hparked keys).quiet (quiet_push (by simp)) (.inl rfl)
      · rw [heq]
        exact hparked keys
      · rw [heq, htried]
        exact hattempt.quiet ((quiet_popleft (s := (s.attempt h t).1) hqueue hmem).trans
          (quiet_push (by simp))) (.inl rfl)
  · rename_i hend
    refine hI.quiet (quiet_drained hstack fun hqueue hwriter => ?_) (.inl rfl)
    rcases hq : (s.table.entries e).writeQueue with - | ⟨h, q⟩
    · exact hqueue hq
    · exact hend h q hq hwriter

theorem WriteInv.report {f : Frame} {t : Try} {fs : List Frame} (hI : s.WriteInv)
    (hmem : f ∈ s.stack ++ s.loose) (hr : s.report f t = some (s', fs)) : s'.WriteInv := by
  cases f with
  | finish h =>
    simp only [State.report, Option.some.injEq] at hr
    split at hr
    · cases hr
      exact hI
    · cases hr
      exact hI
  | invoke h =>
    cases hr
    exact hI.quiet (Quiet.of_frames rfl rfl rfl (fun _ => List.Sublist.refl _) fun _ => id) (.inl rfl)
  | run h =>
    have hcall : s.callSync h t = (s', fs) := Option.some.inj hr
    have hI' := hI.callSync t fun hopen => ⟨[], line_of_run hI.alone hmem hopen⟩
    rwa [hcall] at hI'
  | endStream h =>
    cases hr
    exact hI.quiet quiet_emit (.inl rfl)
  | _ => cases hr

theorem no_run_of_report {f : Frame} {fs : List Frame}
    (hfs : ∀ g ∈ fs, g = .user ∨ ∃ h, f = .finish h ∧ g = .invoke h) :
    ∀ g ∈ fs, ∀ h, g ≠ Frame.run h := by
  intro g hg h heq
  rcases hfs g hg with rfl | ⟨h', -, rfl⟩ <;> cases heq

theorem quiet_replace {f : Frame} {st fs : List Frame} (hstack : s.stack = f :: st)
    (hf : ∀ e, f ≠ .drain e) (hfs : ∀ g ∈ fs, ∀ h, g ≠ Frame.run h) :
    Quiet s { s with stack := fs ++ st } :=
  (quiet_pop hstack hf).trans (quiet_push hfs)

theorem WriteInv.go {t : Try} {fails : Bool} (hI : s.WriteInv)
    (hgo : s.go t fails = some s') : s'.WriteInv := by
  rcases hstack : s.stack with - | ⟨f, st⟩
  · simp [State.go, hstack] at hgo
  have hgeneric : (s.report f t).map (fun x => { x.1 with stack := x.2 ++ st }) = some s' →
      s'.WriteInv := by
    intro hmap
    rw [Option.map_eq_some_iff] at hmap
    rcases hmap with ⟨⟨s₁, fs⟩, hr, rfl⟩
    have hI₁ := hI.report (by simp [hstack]) hr
    rcases report_frame hr with ⟨hstk, -, -, -, hf, hfs⟩
    exact hI₁.quiet (quiet_replace (hstk.trans hstack) hf (no_run_of_report hfs)) (.inl rfl)
  have hpop : (∀ e, f ≠ .drain e) → ({ s with stack := st } : State).WriteInv := fun hf =>
    hI.quiet (quiet_pop hstack hf) (.inl rfl)
  cases f with
  | user => simp [State.go, hstack] at hgo
  | drain e =>
    simp only [State.go, hstack, Option.some.injEq] at hgo
    subst hgo
    exact hI.drainWriteQueue hstack t fails
  | removeTail fd =>
    simp only [State.go, hstack, Option.some.injEq] at hgo
    subst hgo
    have hq : Quiet { s with stack := st } (({ s with stack := st } : State).removeTail fd fails) :=
      quiet_removeTail fails
    rcases removeTail_eq { s with stack := st } fd fails with ⟨table, keys, stack, heq⟩
    rw [heq] at hq ⊢
    exact (hpop (by simp)).quiet hq (.inl rfl)
  | stopTail h removed =>
    simp only [State.go, hstack, Option.some.injEq] at hgo
    subst hgo
    have hno : ∀ g ∈ stopReport h removed, ∀ h', g ≠ Frame.run h' := by
      intro g hg h' heq
      unfold stopReport at hg
      split_ifs at hg <;> simp_all
    have hq := quiet_outside (s := { s with stack := st }) hno
    rcases outside_frame { s with stack := st } (stopReport h removed) with ⟨stack, loose, heq, -⟩
    rw [heq] at hq ⊢
    exact (hpop (by simp)).quiet hq (.inl rfl)
  | advance h i =>
    simp only [State.go, hstack, Option.some.injEq] at hgo
    subst hgo
    exact (hpop (by simp)).quiet
      (Quiet.of_frames rfl rfl rfl (fun _ => List.Sublist.refl _) fun _ => id) (.inl rfl)
  | streamTail h done =>
    cases done with
    | true =>
      simp only [State.go, hstack, Option.some.injEq] at hgo
      subst hgo
      have hq := quiet_removeHandle (s := { s with stack := st }) (h := h) (k := fun _ => []) (by simp)
      rcases removeHandle_eq { s with stack := st } h fun _ => [] with ⟨table, stack, heq⟩
      rw [heq] at hq ⊢
      exact (hpop (by simp)).quiet hq (.inl rfl)
    | false =>
      simp only [State.go, hstack, Option.some.injEq] at hgo
      subst hgo
      have hq : Quiet { s with stack := st } (({ s with stack := st } : State).update h.fd fails) :=
        quiet_update fails
      rcases update_eq { s with stack := st } h.fd fails with ⟨keys, heq⟩
      rw [heq] at hq ⊢
      exact (hpop (by simp)).quiet hq (.inl rfl)
  | failStream h =>
    simp only [State.go, hstack, Option.some.injEq] at hgo
    subst hgo
    have hq := quiet_removeHandle (s := { s with stack := st }) (h := h) (k := fun _ => [.endStream h])
      (by simp)
    rcases removeHandle_eq { s with stack := st } h fun _ => [.endStream h] with ⟨table, stack, heq⟩
    rw [heq] at hq ⊢
    exact (hpop (by simp)).quiet hq (.inl rfl)
  | finish h =>
    simp only [State.go, hstack] at hgo
    exact hgeneric hgo
  | invoke h =>
    simp only [State.go, hstack] at hgo
    exact hgeneric hgo
  | run h =>
    simp only [State.go, hstack] at hgo
    exact hgeneric hgo
  | endStream h =>
    simp only [State.go, hstack] at hgo
    exact hgeneric hgo

theorem WriteInv.goLoose {i : Nat} {t : Try} (hI : s.WriteInv)
    (hgo : s.goLoose i t = some s') : s'.WriteInv := by
  unfold State.goLoose at hgo
  split at hgo
  · cases hgo
  · rename_i f hf
    rw [Option.map_eq_some_iff] at hgo
    rcases hgo with ⟨⟨s₁, fs⟩, hr, rfl⟩
    have hI₁ := hI.report (mem_append_right _ (mem_of_getElem? hf)) hr
    rcases report_frame hr with ⟨-, hloose, -, -, -, hfs⟩
    refine hI₁.quiet (Quiet.of_frames rfl rfl rfl (fun fd => ?_) fun _ => id) (.inl rfl)
    have hnone : (fs.filter (· ≠ .user)).filterMap (Frame.runOn s₁.closedSocks fd) = [] :=
      filterMap_runOn fun g hg => no_run_of_report hfs g (mem_filter.1 hg).1
    simp only [runs]
    rw [← append_assoc, filterMap_append, hnone, append_nil, hloose]
    exact ((List.Sublist.refl _).append (eraseIdx_sublist ..)).filterMap _

theorem WriteInv.step {a : Action} (hI : s.WriteInv) (hcalm : s.Calm a)
    (hs : step s a = some s') : s'.WriteInv := by
  cases a with
  | submit op t fails =>
    simp only [Selector.step] at hs
    split at hs
    · cases hs
      exact hI.submit hcalm
    · cases hs
  | ready fd event t fails =>
    simp only [Selector.step] at hs
    split at hs
    · cases hs
      exact hI.stepFdOperation fd event t fails
    · cases hs
  | stop h =>
    simp only [Selector.step] at hs
    split at hs
    · cases hs
      exact hI.selectorStopHandle h
    · cases hs
  | go t fails => exact hI.go hs
  | back =>
    simp only [Selector.step] at hs
    split at hs
    · rename_i st hstack
      cases hs
      exact hI.quiet (quiet_pop hstack (by simp)) (.inl rfl)
    · cases hs
  | throw e =>
    simp only [Selector.step] at hs
    split at hs
    · rename_i st hstack
      cases hs
      refine hI.quiet (Quiet.of_frames rfl rfl rfl (fun fd => ?_) fun en hen => ?_) (.inl rfl)
      · simp only [runs, hstack, cons_append, filterMap_append]
        rw [filterMap_cons_none rfl, filterMap_append]
        exact (runOn_unwind _ _ _ _).append (List.Sublist.refl _)
      · have hkept := hcalm _ hen rfl
        rwa [hstack] at hkept
    · cases hs
  | loose i t => exact hI.goLoose hs
  | closeSock k =>
    cases hs
    refine hI.quiet (Quiet.of_frames rfl rfl rfl (fun fd => ?_) fun _ => id) (.inl rfl)
    refine runs_of_closed (fun k' hk' => ?_) fd _
    by_cases hk : k' = k
    · simp [hk]
    · simpa [hk] using hk'
  | close =>
    simp only [Selector.step] at hs
    split at hs
    · cases hs
      exact hI.quiet (Quiet.of_frames rfl rfl rfl (fun _ => List.Sublist.refl _) fun _ => id) (.inl rfl)
    · cases hs

theorem WriteInv.init : init.WriteInv where
  ordered := fun _ => Line.Ordered.nil
  alone := fun _ => .inl rfl
  tidy := by
    intro fd h hreader
    cases hreader
  drained := by
    intro fd e hs
    cases hs
  bytes := fun _ _ _ _ => ⟨Nat.zero_le _, rfl⟩

end State

/-! ## Runs -/

end Pytealet.Selector
