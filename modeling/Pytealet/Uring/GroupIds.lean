import Mathlib.Data.List.Perm.Basic
import Pytealet.Uring.Sessions

/-!
# Uring.GroupIds — the ids of the buffer groups of one session

An id is taken from the top of `free_buf_group_ids`, or else from `next_buf_group`, a counter of 16
bits; it is 0 when all ids have been counted.  An id that is released moves the counter back if it
is the last one that was counted, and with it the ids below that are on the top of the list.

`__init__` sets the counter to 1 and leaves the list as it is; `close` clears both.
-/

namespace Pytealet.Uring.GroupIds

open Lib Lib.Transition Sessions List

/-- The ring of a session, and the ids that were allocated in it and not yet released. -/
structure Ids where
  state : State
  live : List UInt16

inductive Action
  | alloc
  | release (id : UInt16)
  deriving DecidableEq, Repr

def step (w : Ids) : Action → Option Ids
  | .alloc =>
    let r := w.state.allocBufGroupId
    -- 0 is no id: the ids are exhausted
    some ⟨r.2, if r.1 = 0 then w.live else r.1 :: w.live⟩
  | .release id =>
    if id ∈ w.live then some ⟨w.state.releaseBufGroupId id, w.live.erase id⟩ else none

/-- The session that an `__init__` starts. -/
def started (s : State) (entries : Nat) (makeRoom drained : Bool) : Ids :=
  ⟨s.init entries makeRoom drained true, []⟩

/-- The counter has still to reach the id. -/
def Fresh (s : State) (id : UInt16) : Prop :=
  s.nextBufGroup ≠ 0 ∧ s.nextBufGroup ≤ id

instance (s : State) (id : UInt16) : Decidable (Fresh s id) :=
  inferInstanceAs (Decidable (_ ∧ _))

structure Sound (w : Ids) : Prop where
  proper : 0 ∉ w.live ∧ 0 ∉ w.state.freeBufGroupIds
  /-- an id is live, or on the list, or fresh -/
  partition : ∀ id, id ≠ 0 →
    w.live.count id + w.state.freeBufGroupIds.count id + (if Fresh w.state id then 1 else 0) = 1
  exhausted : w.state.allocBufGroupId.1 = 0 ↔ ∀ id, id ≠ 0 → id ∈ w.live
  distinct : w.state.allocBufGroupId.1 ∉ w.live
  /-- the counter does not come back to an id -/
  wraps : ∀ id, Fresh w.state.allocBufGroupId.2 id → Fresh w.state id

/-! ## The counter -/

section Counter

variable {id next : UInt16}

theorem le_pred_succ (h : next ≠ 0) : id ≤ next + 1 - 1 ↔ id = next ∨ id ≤ next - 1 := by
  rw [UInt16.le_iff_toBitVec_le, UInt16.le_iff_toBitVec_le, ← UInt16.toBitVec_inj]
  have hnext : next.toBitVec ≠ 0 := fun h0 => h (UInt16.toBitVec_inj.1 h0)
  simp only [UInt16.toBitVec_sub, UInt16.toBitVec_add, UInt16.toBitVec_ofNat] at *
  bv_omega

theorem le_pred_pred (h : next - 1 ≠ 0) : id ≤ next - 1 - 1 ↔ id ≠ next - 1 ∧ id ≤ next - 1 := by
  rw [UInt16.le_iff_toBitVec_le, UInt16.le_iff_toBitVec_le, ne_eq, ← UInt16.toBitVec_inj]
  have hlast : (next - 1).toBitVec ≠ 0 := fun h0 => h (UInt16.toBitVec_inj.1 h0)
  simp only [UInt16.toBitVec_sub, UInt16.toBitVec_ofNat] at *
  bv_omega

theorem fresh_iff {s : State} (h : id ≠ 0) : Fresh s id ↔ ¬ id ≤ s.nextBufGroup - 1 := by
  unfold Fresh
  rw [UInt16.le_iff_toBitVec_le, UInt16.le_iff_toBitVec_le, ne_eq, ← UInt16.toBitVec_inj]
  have hid : id.toBitVec ≠ 0 := fun h0 => h (UInt16.toBitVec_inj.1 h0)
  simp only [UInt16.toBitVec_sub, UInt16.toBitVec_ofNat] at *
  bv_omega

end Counter

/-! ## The invariant -/

/-- The live ids and those on the list are the ones that were counted.  When all were, the counter
is 0, and the last one is `0 - 1`. -/
structure Counted (live free : List UInt16) (next : UInt16) : Prop where
  nodup : (live ++ free).Nodup
  mem : ∀ id, id ∈ live ++ free ↔ id ≠ 0 ∧ id ≤ next - 1

namespace Counted

variable {live free rest : List UInt16} {id next : UInt16}

theorem perm (h : Counted live free next) {live' free' : List UInt16}
    (hperm : (live' ++ free').Perm (live ++ free)) :
    Counted live' free' next :=
  ⟨hperm.nodup_iff.2 h.nodup, fun id => hperm.mem_iff.trans (h.mem id)⟩

theorem pred (h : Counted live free next) {live' free' : List UInt16}
    (hperm : ((next - 1) :: (live' ++ free')).Perm (live ++ free)) (hlast : next - 1 ≠ 0) :
    Counted live' free' (next - 1) := by
  have hnodup := hperm.nodup_iff.2 h.nodup
  refine ⟨(nodup_cons.1 hnodup).2, fun id => ?_⟩
  have hmem : id ∈ (next - 1) :: (live' ++ free') ↔ id ≠ 0 ∧ id ≤ next - 1 := hperm.mem_iff.trans (h.mem id)
  rw [le_pred_pred hlast]
  constructor
  · intro hid
    have hne : id ≠ next - 1 := by
      rintro rfl
      exact (nodup_cons.1 hnodup).1 hid
    rcases hmem.1 (mem_cons_of_mem _ hid) with ⟨h0, hle⟩
    exact ⟨h0, hne, hle⟩
  · rintro ⟨h0, hne, hle⟩
    exact (mem_cons.1 (hmem.2 ⟨h0, hle⟩)).resolve_left hne

theorem shrinkTail (h : Counted live free next) :
    Counted live (State.shrinkTail free next).1 (State.shrinkTail free next).2 := by
  induction free generalizing next with
  | nil => exact h
  | cons id rest ih =>
    unfold State.shrinkTail
    split
    · rename_i hid
      subst hid
      have h0 : next - 1 ≠ 0 := ((h.mem (next - 1)).1 (mem_append_right _ (mem_cons_self ..))).1
      exact ih (h.pred perm_middle.symm h0)
    · exact h

theorem succ (h : Counted live [] next) (hnext : next ≠ 0) : Counted (next :: live) [] (next + 1) := by
  have hnot : next ∉ live ++ [] := by
    intro hmem
    have hle := ((h.mem next).1 hmem).2
    rw [UInt16.le_iff_toBitVec_le] at hle
    have h0 : next.toBitVec ≠ 0 := fun h0 => hnext (UInt16.toBitVec_inj.1 h0)
    simp only [UInt16.toBitVec_sub, UInt16.toBitVec_ofNat] at hle h0
    bv_omega
  refine ⟨nodup_cons.2 ⟨hnot, h.nodup⟩, fun id => ?_⟩
  rw [le_pred_succ hnext, cons_append, mem_cons, h.mem id]
  constructor
  · rintro (rfl | ⟨h0, hle⟩)
    · exact ⟨hnext, Or.inl rfl⟩
    · exact ⟨h0, Or.inr hle⟩
  · rintro ⟨h0, rfl | hle⟩
    · exact Or.inl rfl
    · exact Or.inr ⟨h0, hle⟩

end Counted

def Ids.Counted (w : Ids) : Prop :=
  GroupIds.Counted w.live w.state.freeBufGroupIds w.state.nextBufGroup

variable {w w' : Ids}

theorem Ids.Counted.step {a : Action} (h : w.Counted) (hs : step w a = some w') : w'.Counted := by
  cases a with
  | alloc =>
    cases hs
    unfold State.allocBufGroupId
    cases hfree : w.state.freeBufGroupIds with
    | cons id rest =>
      have hcounted : GroupIds.Counted w.live (id :: rest) w.state.nextBufGroup := hfree ▸ h
      have h0 : id ≠ 0 := ((hcounted.mem id).1 (mem_append_right _ (mem_cons_self ..))).1
      dsimp only
      rw [if_neg h0]
      exact hcounted.perm perm_middle.symm
    | nil =>
      dsimp only
      split
      · rw [if_pos rfl]
        exact h
      · rename_i hnext
        have hcounted : GroupIds.Counted w.live [] w.state.nextBufGroup := hfree ▸ h
        exact hcounted.succ hnext
  | release id =>
    simp only [GroupIds.step] at hs
    split at hs
    · rename_i hlive
      cases hs
      have h0 : id ≠ 0 := ((h.mem id).1 (mem_append_left _ hlive)).1
      have hperm : (id :: (w.live.erase id ++ w.state.freeBufGroupIds)).Perm
          (w.live ++ w.state.freeBufGroupIds) :=
        (perm_cons_erase hlive).symm.append_right w.state.freeBufGroupIds
      unfold State.releaseBufGroupId
      rw [if_neg h0]
      split
      · rename_i hlast
        subst hlast
        exact (h.pred hperm h0).shrinkTail
      · -- it goes on the top of the list
        exact h.perm (perm_middle.trans hperm)
    · cases hs

theorem Ids.Counted.sound (h : w.Counted) : Sound w := by
  have hzero : 0 ∉ w.live ++ w.state.freeBufGroupIds := fun hmem => ((h.mem 0).1 hmem).1 rfl
  have hpartition : ∀ id, id ≠ 0 →
      w.live.count id + w.state.freeBufGroupIds.count id + (if Fresh w.state id then 1 else 0) = 1 := by
    intro id h0
    rw [← count_append]
    by_cases hmem : id ∈ w.live ++ w.state.freeBufGroupIds
    · rw [h.nodup.count, if_pos hmem, if_neg fun hfresh => (fresh_iff h0).1 hfresh ((h.mem id).1 hmem).2]
    · rw [count_eq_zero_of_not_mem hmem, if_pos ((fresh_iff h0).2 fun hle => hmem ((h.mem id).2 ⟨h0, hle⟩))]
  refine ⟨⟨fun hmem => hzero (mem_append_left _ hmem), fun hmem => hzero (mem_append_right _ hmem)⟩,
    hpartition,
    ?_, ?_, ?_⟩
  · unfold State.allocBufGroupId
    cases hfree : w.state.freeBufGroupIds with
    | cons id rest =>
      have hmem : id ∈ w.state.freeBufGroupIds := hfree ▸ mem_cons_self ..
      have h0 : id ≠ 0 := by
        rintro rfl
        exact hzero (mem_append_right _ hmem)
      refine ⟨fun hid => absurd hid h0, fun hall => ?_⟩
      -- an id on the list is not live
      exact absurd rfl ((nodup_append.1 h.nodup).2.2 id (hall id h0) id hmem)
    | nil =>
      have hcounted : ∀ id, id ∈ w.live ↔ id ≠ 0 ∧ id ≤ w.state.nextBufGroup - 1 := by
        intro id
        have hmem := h.mem id
        rwa [hfree, append_nil] at hmem
      dsimp only
      split
      · rename_i hnext
        refine ⟨fun _ id h0 => (hcounted id).2 ⟨h0, ?_⟩, fun _ => rfl⟩
        by_contra hle
        exact ((fresh_iff h0).2 hle).1 hnext
      · rename_i hnext
        refine ⟨fun h0 => absurd h0 hnext, fun hall => ?_⟩
        have hle := ((hcounted w.state.nextBufGroup).1 (hall _ hnext)).2
        exact absurd hle ((fresh_iff hnext).1 ⟨hnext, UInt16.le_refl _⟩)
  · unfold State.allocBufGroupId
    cases hfree : w.state.freeBufGroupIds with
    | cons id rest =>
      have hmem : id ∈ w.state.freeBufGroupIds := hfree ▸ mem_cons_self ..
      exact fun hlive => (nodup_append.1 h.nodup).2.2 id hlive id hmem rfl
    | nil =>
      dsimp only
      split
      · exact fun hmem => hzero (mem_append_left _ hmem)
      · rename_i hnext
        intro hmem
        have hle := ((h.mem _).1 (mem_append_left _ hmem)).2
        exact (fresh_iff hnext).1 ⟨hnext, UInt16.le_refl _⟩ hle
  · unfold State.allocBufGroupId
    cases hfree : w.state.freeBufGroupIds with
    | cons id rest => exact fun id hfresh => hfresh
    | nil =>
      dsimp only
      split
      · exact fun id hfresh => hfresh
      · rename_i hnext
        rintro id ⟨hsucc, hle⟩
        refine ⟨hnext, ?_⟩
        show w.state.nextBufGroup ≤ id
        have hle' : w.state.nextBufGroup + 1 ≤ id := hle
        have hsucc' : w.state.nextBufGroup + 1 ≠ 0 := hsucc
        have hnat : (w.state.nextBufGroup + 1).toBitVec ≠ 0 := fun h0 => hsucc' (UInt16.toBitVec_inj.1 h0)
        rw [UInt16.le_iff_toBitVec_le] at hle' ⊢
        simp only [UInt16.toBitVec_add, UInt16.toBitVec_ofNat] at hle' hnat
        bv_omega

theorem started_fields {s : State} (entries : Nat) (makeRoom : Bool) {drained : Bool}
    (hdrained : s.ring.initialized = true → drained = true) :
    (started s entries makeRoom drained).state.freeBufGroupIds = s.freeBufGroupIds ∧
      (started s entries makeRoom drained).state.nextBufGroup = 1 := by
  have hstarts : (s.ring.initialized && !drained) = false := by
    cases hring : s.ring.initialized with
    | true =>
      rw [hdrained hring]
      rfl
    | false => rfl
  unfold started State.init
  rw [hstarts]
  exact ⟨rfl, rfl⟩

/-- In every run of a session the ids are partitioned, exactly if `__init__` finds no id on the
list. -/
theorem group_ids_partition (s : State) (entries : Nat) (makeRoom drained : Bool)
    (hdrained : s.ring.initialized = true → drained = true) :
    (∀ acts, Always step Sound (started s entries makeRoom drained) acts) ↔ s.freeBufGroupIds = [] := by
  rcases started_fields entries makeRoom hdrained with ⟨hfree, hnext⟩
  constructor
  · intro h
    have hsound := (h []).head
    cases hlist : s.freeBufGroupIds with
    | nil => rfl
    | cons id rest =>
      -- it is on the list, and the counter has still to reach it
      rw [hlist] at hfree
      have hmem : id ∈ (started s entries makeRoom drained).state.freeBufGroupIds :=
        hfree ▸ mem_cons_self ..
      have h0 : id ≠ 0 := by
        rintro rfl
        exact hsound.proper.2 hmem
      have hfresh : Fresh (started s entries makeRoom drained).state id := by
        rw [fresh_iff h0, hnext]
        exact fun hle => h0 (UInt16.le_antisymm hle (UInt16.zero_le))
      have hone := hsound.partition id h0
      rw [if_pos hfresh] at hone
      have hcount := count_pos_iff.2 hmem
      omega
  · intro hlist acts
    rw [hlist] at hfree
    have hcounted : (started s entries makeRoom drained).Counted := by
      unfold Ids.Counted
      rw [hfree, hnext]
      refine ⟨nodup_nil, fun id => ⟨nofun, fun ⟨h0, hle⟩ => ?_⟩⟩
      exact absurd (UInt16.le_antisymm hle (UInt16.zero_le)) h0
    exact always_of_invariant (fun _ h => h.sound) (fun _ _ _ h hs => h.step hs) acts _ hcounted

/-- A ring that was closed. -/
theorem group_ids_partition_closed :
    Played step (Always step Sound)
      (started ((State.new fun _ => { kind := .sendAll, fd := 3 }).close true) 8 true true)
      [.alloc, .alloc, .release 1, .alloc] :=
  ⟨(group_ids_partition ((State.new fun _ => { kind := .sendAll, fd := 3 }).close true) 8 true
    true fun _ => rfl).2 rfl _,
    by decide⟩

/-- Three groups are closed, none of them from the last to the first, and the ring is initialised
again: the list still has their ids, and an id is allocated twice. -/
theorem stale_ids_collide :
    let handle : Nat → Handle := fun _ => { kind := .sendAll, fd := 3, length := 10 }
    ∃ s, exec Sessions.step (State.new handle)
        [.init 8 true true true, .createGroup true, .createGroup true, .createGroup true,
          .closeGroup 1, .closeGroup 0,
          .closeGroup 2] = some s ∧
      s.freeBufGroupIds = [1, 2] ∧ s.nextBufGroup = 3 ∧
      ∃ w, exec step (started s 8 true true) [.alloc, .alloc, .alloc] = some w ∧
        w.live = [1, 2, 1] ∧ ¬ Sound w := by
  refine ⟨_, rfl, rfl, rfl, _, rfl, rfl, fun h => ?_⟩
  have hone := h.partition 1 (by decide)
  revert hone
  decide

end Pytealet.Uring.GroupIds
