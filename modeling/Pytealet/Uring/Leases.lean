import Mathlib.Data.List.Perm.Subperm
import Mathlib.Data.List.Range
import Mathlib.Tactic.ByContra
import Pytealet.Lib.Transition

/-!
# Uring.Leases — the buffers of a provided-buffer group

The kernel takes a buffer out of the group's buffer ring for a CQE.  Packaging the CQE makes a
`BufView` that leases the buffer, or puts the buffer back at once where nothing is delivered.  The
lease ends when the last export of the view is released, when the view is closed, or when it is
deallocated.  `BufGroup.close` waits for the requests in flight.

One group of one ring is modelled.  A buffer that a CQE has selected is the kernel's until the CQE
is packaged.
-/

namespace Pytealet.Uring.Leases

open Lib Lib.Transition List

inductive ViewError
  | readOnly
  /-- `buf view has already been released` -/
  | released
  | missingGroup
  | exportsActive
  deriving DecidableEq, Repr

structure View where
  bufferId : Nat
  leased : Bool
  recycled : Bool := false
  exportCount : Nat := 0
  /-- `buf_group` is not `NULL` -/
  hasGroup : Bool := true
  alive : Bool := true
  deriving DecidableEq, Repr

/-- The buffer that the view leases. -/
def View.lease (v : View) : Option Nat :=
  if v.alive && v.leased && !v.recycled then some v.bufferId else none

def View.getbuffer (v : View) (writable : Bool) : Except ViewError View :=
  if writable then .error .readOnly
  else if v.recycled then .error .released
  else if !v.hasGroup then .error .missingGroup
  else .ok { v with exportCount := v.exportCount + 1 }

structure Cqe where
  /-- `F_MORE` -/
  more : Bool
  res : Int
  /-- the buffer of `F_BUFFER` -/
  buffer : Option Nat
  /-- the armed completion is multishot and has `no_deliver_multi` -/
  noDeliver : Bool
  deriving DecidableEq, Repr

structure State where
  bufferCount : Nat
  bufferSize : Nat
  /-- the ring is open -/
  initialized : Bool := true
  /-- `ring_buffer` is not `NULL` -/
  ringBuffer : Bool := true
  /-- `group_id` is not 0 -/
  hasId : Bool := true
  closeRequested : Bool := false
  inflight : Nat := 0
  leasedCount : Nat := 0
  views : List View := []
  /-- the buffers in the kernel's buffer ring -/
  kernel : List Nat
  /-- requests whose terminal CQE the kernel has not posted -/
  armed : Nat := 0
  /-- CQEs that are not packaged yet -/
  cqes : List Cqe := []
  /-- calls of `io_uring_free_buf_ring` -/
  frees : Nat := 0
  deriving DecidableEq, Repr

namespace State

variable (s : State)

/-- The kernel has the group's buffer ring. -/
def live : Bool :=
  s.initialized && s.ringBuffer

def selected : List Nat :=
  s.cqes.filterMap Cqe.buffer

def leases : List Nat :=
  s.views.filterMap View.lease

/-! ## The group -/

/-- `UringApiBufGroup_recycle` -/
def recycle (bufferId : Nat) : State :=
  if s.ringBuffer then { s with kernel := s.kernel ++ [bufferId] } else s

def noteLeased : State :=
  { s with leasedCount := s.leasedCount + 1 }

def noteUnleased : State :=
  if 0 < s.leasedCount then { s with leasedCount := s.leasedCount - 1 } else s

def freeBufRing : State :=
  if !s.initialized || !s.hasId then { s with ringBuffer := false }
  else
    let s₁ := if s.ringBuffer then { s with kernel := [], frees := s.frees + 1, ringBuffer := false } else s
    { s₁ with hasId := false }

/-- `UringApiBufGroup_close` -/
def closeGroup : State :=
  if 0 < s.inflight then { s with closeRequested := true } else s.freeBufRing

def noteRequest : State :=
  { s with inflight := s.inflight + 1 }

def noteRequestDone : State :=
  let s₁ := { s with inflight := s.inflight - 1 }
  if s.inflight = 1 ∧ s.closeRequested = true then { s₁ with closeRequested := false }.freeBufRing else s₁

/-! ## The views -/

def releaseLease (v : View) : State × View :=
  if v.recycled || !v.leased then (s, v) else
    ((s.recycle v.bufferId).noteUnleased, { v with recycled := true })

def recycleQuiet (v : View) : State × View :=
  if !v.leased || v.recycled || v.exportCount ≠ 0 then (s, v)
  else if !v.hasGroup then (s, { v with recycled := true })
  else if !s.initialized || !s.ringBuffer then (s.noteUnleased, { v with recycled := true })
  else s.releaseLease v

def recycleLocked (v : View) : Except ViewError Unit × State × View :=
  if !v.leased || v.recycled then (.ok (), s, v)
  else if !v.hasGroup then (.error .missingGroup, s, v)
  else if !s.initialized || !s.ringBuffer then (.ok (), s.noteUnleased, { v with recycled := true })
  else (.ok (), s.releaseLease v)

def releasebuffer (v : View) : State × View :=
  if v.exportCount ≠ 0 then
    let v₁ := { v with exportCount := v.exportCount - 1 }
    if v₁.leased && v₁.exportCount == 0 && !v₁.recycled && v₁.hasGroup && s.initialized then
      (s.recycleLocked v₁).2
    else (s, v₁)
  else (s, v)

/-- `UringApiBufView_close` -/
def closeView (v : View) : Except ViewError Unit × State × View :=
  if v.recycled then (.ok (), s, v)
  else if 0 < v.exportCount then (.error .exportsActive, s, v)
  else if !v.leased then (.ok (), s, v)
  else if !v.hasGroup then (.error .missingGroup, s, v)
  else if s.initialized then s.recycleLocked v
  else (.ok (), s.noteUnleased, { v with recycled := true })

/-- `tp_clear` -/
def clear (v : View) : State × View :=
  let r := s.recycleQuiet v
  (r.1, { r.2 with hasGroup := false })

def dealloc (v : View) : State × View :=
  let r := s.recycleQuiet v
  let r := r.1.clear r.2
  (r.1, { r.2 with alive := false })

/-! ## Packaging -/

def recycleSelectedBuffer (buffer : Option Nat) : State :=
  match buffer with
  | none => s
  | some bufferId => if bufferId < s.bufferCount ∧ s.initialized = true then s.recycle bufferId else s

/-- `UringApiCompletion_recv_multishot_buf_payload`; where the CQE is corrupt it raises, and does
nothing. -/
def recvMultishotBufPayload (res : Int) (buffer : Option Nat) (makeView : Bool) : State :=
  if res < 0 then s.recycleSelectedBuffer buffer
  else
    match buffer with
    | none => if res = 0 ∧ makeView = true then
        { s with views := s.views ++ [⟨0, false, false, 0, true, true⟩] } else s
    | some bufferId =>
      if bufferId ≥ s.bufferCount ∨ res > s.bufferSize then s
      else if makeView then
        { s.noteLeased with views := s.views ++ [⟨bufferId, true, false, 0, true, true⟩] }
      else s.recycleSelectedBuffer (some bufferId)

/-- `build_completion_result`, for a receive with provided buffers -/
def package (cqe : Cqe) : State :=
  let s₁ := if cqe.more then s else s.noteRequestDone
  s₁.recvMultishotBufPayload cqe.res cqe.buffer (!cqe.noDeliver)

end State

inductive Event
  /-- a receive is filled into an SQE -/
  | arm
  /-- the kernel posts a CQE -/
  | post (cqe : Cqe)
  | package (i : Nat)
  | getbuffer (v : Nat) (writable : Bool)
  | releasebuffer (v : Nat)
  | closeView (v : Nat)
  /-- the garbage collector clears the view -/
  | clear (v : Nat)
  | dealloc (v : Nat)
  | closeGroup
  | closeRing
  deriving DecidableEq, Repr

/-- What a method makes of the view `i`. -/
def State.onView (s : State) (i : Nat) (f : View → State × View) : Option State :=
  match s.views[i]? with
  | none => none
  | some v =>
    if v.alive then
      let r := f v
      some { r.1 with views := r.1.views.set i r.2 }
    else none

/-- The kernel selects buffers of the buffer ring only, and fills them at most.  An export keeps its
view alive. -/
def step (s : State) : Event → Option State
  | .arm => if s.initialized then some { s.noteRequest with armed := s.armed + 1 } else none
  | .post cqe =>
    if s.initialized = true ∧ 0 < s.armed ∧ (∀ b ∈ cqe.buffer, b ∈ s.kernel) ∧ cqe.res ≤ s.bufferSize then
      some { s with
        kernel := match cqe.buffer with
          | none => s.kernel
          | some b => s.kernel.erase b
        armed := if cqe.more then s.armed else s.armed - 1
        cqes := s.cqes ++ [cqe] }
    else none
  | .package i =>
    match s.cqes[i]? with
    | none => none
    | some cqe => some ({ s with cqes := s.cqes.eraseIdx i }.package cqe)
  | .getbuffer i writable =>
    s.onView i fun v =>
      match v.getbuffer writable with
      | .ok v₁ => (s, v₁)
      | .error _ => (s, v)
  | .releasebuffer i => s.onView i s.releasebuffer
  | .closeView i => s.onView i fun v => (s.closeView v).2
  | .clear i => s.onView i s.clear
  | .dealloc i =>
    match s.views[i]? with
    | none => none
    | some v => if v.exportCount = 0 then s.onView i s.dealloc else none
  | .closeGroup => some s.closeGroup
  | .closeRing => some { s with initialized := false, kernel := [] }

/-! ## What is accounted for -/

namespace State

/-- Every buffer is in one place, where `hand` are those on the way from one place to another.  When
the kernel has no buffer ring none is in two places, and the others are retired. -/
def Held (s : State) (hand : List Nat) : Prop :=
  if s.live then (s.kernel ++ s.selected ++ s.leases ++ hand).Perm (List.range s.bufferCount)
  else s.kernel = [] ∧ (s.selected ++ s.leases ++ hand).Subperm (List.range s.bufferCount)

structure Accounts (s : State) : Prop where
  held : s.Held []
  counted : s.leasedCount = s.leases.length
  /-- a lease does not end while its view is exported -/
  exported : ∀ v ∈ s.views, v.leased = true → 0 < v.exportCount → v.recycled = false
  freed : s.frees ≤ 1 ∧ (s.initialized = true → s.frees = if s.ringBuffer then 0 else 1)

/-- A close that waits for requests frees the group with the last of them. -/
def Defers (s : State) (e : Event) : Prop :=
  s.closeRequested = true → ∀ s', step s e = some s' →
    if 0 < s'.inflight then s'.closeRequested = true ∧ s'.ringBuffer = s.ringBuffer ∧ s'.frees = s.frees
    else s'.ringBuffer = false ∧ (s'.initialized = true → s'.frees = 1)

/-- A view that is cleared or deallocated with its lease has its group. -/
def Keeps (s : State) (e : Event) : Prop :=
  ∀ i, e = .clear i ∨ e = .dealloc i → ∀ v, s.views[i]? = some v → v.alive = true → v.leased = true →
    v.recycled = false → v.exportCount = 0 → v.hasGroup = true

def start (bufferSize bufferCount : Nat) : State :=
  { bufferCount, bufferSize, kernel := List.range bufferCount }

variable {s s' : State} {hand hand' : List Nat}

/-! ## The places of the buffers -/

theorem Held.perm (h : s.Held hand) (hlive : s'.live = s.live) (hcount : s'.bufferCount = s.bufferCount)
    (hperm : (s'.kernel ++ s'.selected ++ s'.leases ++ hand').Perm
      (s.kernel ++ s.selected ++ s.leases ++ hand))
    (hkernel : s.live = false → s'.kernel = s.kernel) : s'.Held hand' := by
  unfold Held at h ⊢
  rw [hlive, hcount]
  split
  · rename_i hl
    rw [if_pos hl] at h
    exact hperm.trans h
  · rename_i hl
    rw [if_neg hl] at h
    have hempty : s'.kernel = [] := (hkernel (Bool.eq_false_iff.2 hl)).trans h.1
    refine ⟨hempty, ?_⟩
    rw [hempty, h.1] at hperm
    exact (List.Perm.subperm hperm).trans h.2

theorem Held.retire (h : s.Held hand) (hlive : s'.live = false) (hcount : s'.bufferCount = s.bufferCount)
    (hkernel : s'.kernel = []) (hselected : s'.selected = s.selected) (hleases : s'.leases = s.leases) :
    s'.Held hand := by
  unfold Held at h ⊢
  rw [if_neg (by rw [hlive]; decide), hcount, hselected, hleases]
  refine ⟨hkernel, ?_⟩
  split at h
  · have hsub : (s.selected ++ s.leases ++ hand).Sublist (s.kernel ++ s.selected ++ s.leases ++ hand) := by
      rw [append_assoc, append_assoc, append_assoc]
      exact sublist_append_right _ _
    exact hsub.subperm.trans h.subperm
  · exact h.2

theorem Held.drop (h : s.Held hand) (hlive : s.live = false) : s.Held [] := by
  unfold Held at h ⊢
  rw [hlive] at h ⊢
  refine ⟨h.1, ?_⟩
  rw [append_nil]
  exact (sublist_append_left _ hand).subperm.trans h.2

theorem live_eq_false : s.live = false ↔ s.initialized = false ∨ s.ringBuffer = false := by
  unfold live
  rw [Bool.and_eq_false_iff]

theorem Held.recycle {b : Nat} (h : s.Held [b]) (hopen : s.initialized = true) : (s.recycle b).Held [] := by
  unfold State.recycle
  split
  · rename_i hring
    have hlive : s.live = true := by
      unfold live
      rw [hopen, hring]
      rfl
    refine h.perm rfl rfl ?_ (fun hnot => by rw [hlive] at hnot; cases hnot)
    show (s.kernel ++ [b] ++ s.selected ++ s.leases ++ []).Perm (s.kernel ++ s.selected ++ s.leases ++ [b])
    rw [append_nil, append_assoc, append_assoc, append_assoc, append_assoc]
    refine List.Perm.append_left _ ?_
    rw [← append_assoc s.selected]
    exact perm_append_comm
  · rename_i hring
    exact h.drop (live_eq_false.2 (.inr (Bool.eq_false_iff.2 hring)))

/-! ## The invariant -/

structure Inv (s : State) (hand : List Nat) : Prop where
  held : s.Held hand
  counted : s.leasedCount = s.leases.length
  exported : ∀ v ∈ s.views, v.leased = true → 0 < v.exportCount → v.recycled = false
  freed : s.frees ≤ 1 ∧ (s.initialized = true → s.frees = if s.ringBuffer then 0 else 1)
  registered : s.ringBuffer = true → s.hasId = true ∧ s.frees = 0
  deferred : s.closeRequested = true → 0 < s.inflight
  /-- a request is in flight until its terminal CQE is packaged -/
  requests : s.inflight = s.armed + s.cqes.countP fun cqe => !cqe.more
  fits : ∀ cqe ∈ s.cqes, cqe.res ≤ s.bufferSize

theorem Inv.accounts (h : s.Inv []) : s.Accounts :=
  ⟨h.held, h.counted, h.exported, h.freed⟩

theorem Inv.start (bufferSize bufferCount : Nat) : (start bufferSize bufferCount).Inv [] := by
  refine ⟨?_, rfl, nofun, ⟨Nat.zero_le _, fun _ => rfl⟩, fun _ => ⟨rfl, rfl⟩, nofun, rfl, nofun⟩
  show (List.range bufferCount ++ [] ++ [] ++ []).Perm (List.range bufferCount)
  rw [append_nil, append_nil, append_nil]

theorem Inv.freeBufRing (h : s.Inv hand) : s.freeBufRing.Inv hand ∧ s.freeBufRing.ringBuffer = false := by
  unfold State.freeBufRing
  split
  · rename_i hshut
    refine ⟨⟨?_, h.counted, h.exported, ⟨h.freed.1, fun hopen => ?_⟩, nofun, h.deferred, h.requests,
      h.fits⟩, rfl⟩
    · by_cases hlive : s.live = true
      · -- then the ring is open, and the group has its number
        have hand' := (Bool.and_eq_true _ _).mp hlive
        rw [hand'.1, (h.registered hand'.2).1] at hshut
        cases hshut
      · have hlive' := Bool.eq_false_iff.2 hlive
        refine h.held.retire (live_eq_false.2 (.inr rfl)) rfl ?_ rfl rfl
        have hheld := h.held
        unfold Held at hheld
        rw [if_neg hlive] at hheld
        exact hheld.1
    · have hopen' : s.initialized = true := hopen
      have hring : s.ringBuffer = false := by
        refine Bool.eq_false_iff.2 fun hring => ?_
        rw [hopen', (h.registered hring).1] at hshut
        cases hshut
      have hfreed := h.freed.2 hopen'
      rw [hring] at hfreed
      exact hfreed
  · dsimp only
    split
    · rename_i hring
      refine ⟨⟨h.held.retire (live_eq_false.2 (.inr rfl)) rfl rfl rfl rfl, h.counted, h.exported, ?_, nofun,
        h.deferred, h.requests, h.fits⟩, rfl⟩
      have hfrees : s.frees + 1 = 1 := by
        rw [(h.registered hring).2]
      exact ⟨hfrees.le, fun _ => hfrees⟩
    · rename_i hring
      have hring' : s.ringBuffer = false := Bool.eq_false_iff.2 hring
      refine ⟨⟨h.held.perm rfl rfl (List.Perm.refl _) (fun _ => rfl), h.counted,
        h.exported, h.freed, ?_, h.deferred,
        h.requests, h.fits⟩, hring'⟩
      intro hring₁
      exact absurd hring₁ hring

theorem freeBufRing_inflight : s.freeBufRing.inflight = s.inflight := by
  unfold State.freeBufRing
  split
  · rfl
  · dsimp only
    split <;> rfl

theorem Inv.closeGroup (h : s.Inv []) : s.closeGroup.Inv [] := by
  unfold State.closeGroup
  split
  · rename_i hpos
    exact ⟨h.held, h.counted, h.exported, h.freed, h.registered, fun _ => hpos, h.requests, h.fits⟩
  · exact h.freeBufRing.1

/-! ## Packaging keeps it -/

theorem freeBufRing_bufferSize : s.freeBufRing.bufferSize = s.bufferSize := by
  unfold State.freeBufRing
  split
  · rfl
  · dsimp only
    split <;> rfl

theorem noteRequestDone_bufferSize : s.noteRequestDone.bufferSize = s.bufferSize := by
  unfold State.noteRequestDone
  dsimp only
  split
  · exact freeBufRing_bufferSize
  · rfl

theorem Inv.noteRequestDone (h : { s with inflight := s.inflight - 1, closeRequested := false }.Inv hand)
    (hdeferred : s.closeRequested = true → 0 < s.inflight) : s.noteRequestDone.Inv hand := by
  unfold State.noteRequestDone
  dsimp only
  split
  · exact h.freeBufRing.1
  · rename_i hnot
    refine ⟨h.held, h.counted, h.exported, h.freed, h.registered, fun hrequested => ?_, h.requests, h.fits⟩
    have hpos := hdeferred hrequested
    have hne : s.inflight ≠ 1 := fun hone => hnot ⟨hone, hrequested⟩
    show 0 < s.inflight - 1
    omega

theorem Inv.recycle {b : Nat} (h : s.Inv [b]) (hopen : s.initialized = true) : (s.recycle b).Inv [] := by
  have hheld := h.held.recycle hopen
  unfold State.recycle at hheld ⊢
  by_cases hring : s.ringBuffer = true
  · rw [if_pos hring] at hheld ⊢
    exact ⟨hheld, h.counted, h.exported, h.freed, h.registered, h.deferred, h.requests, h.fits⟩
  · rw [if_neg hring] at hheld ⊢
    exact ⟨hheld, h.counted, h.exported, h.freed, h.registered, h.deferred, h.requests, h.fits⟩

theorem Held.lt_bufferCount {b : Nat} (h : s.Held [b]) : b < s.bufferCount := by
  unfold Held at h
  split at h
  · exact mem_range.1 (h.subset (by simp))
  · exact mem_range.1 (h.2.subset (by simp))

theorem Inv.recycleSelectedBuffer {buffer : Option Nat} (h : s.Inv buffer.toList) :
    (s.recycleSelectedBuffer buffer).Inv [] := by
  cases buffer with
  | none => exact h
  | some b =>
    unfold State.recycleSelectedBuffer
    dsimp only
    split
    · rename_i hand
      exact Inv.recycle h hand.2
    · rename_i hnot
      have hshut : s.initialized = false :=
        Bool.eq_false_iff.2 fun hopen => hnot ⟨Held.lt_bufferCount h.held, hopen⟩
      exact ⟨h.held.drop (live_eq_false.2 (.inl hshut)), h.counted, h.exported, h.freed, h.registered,
        h.deferred, h.requests, h.fits⟩

theorem leases_append (v : View) : { s with views := s.views ++ [v] }.leases =
    s.leases ++ v.lease.toList := by
  unfold leases
  rw [filterMap_append]
  cases hlease : v.lease <;> simp [hlease]

theorem exported_append (h : ∀ v ∈ s.views, v.leased = true → 0 < v.exportCount →
    v.recycled = false) {v : View}
    (hnone : v.exportCount = 0) :
    ∀ v' ∈ s.views ++ [v], v'.leased = true → 0 < v'.exportCount → v'.recycled = false := by
  intro v' hmem hleased hpos
  rcases mem_append.1 hmem with hmem | hmem
  · exact h v' hmem hleased hpos
  · rw [mem_singleton.1 hmem, hnone] at hpos
    cases hpos

theorem Inv.recvMultishotBufPayload {res : Int} {buffer : Option Nat} {makeView : Bool}
    (h : s.Inv buffer.toList)
    (hfits : res ≤ s.bufferSize) : (s.recvMultishotBufPayload res buffer makeView).Inv [] := by
  unfold State.recvMultishotBufPayload
  split
  · exact h.recycleSelectedBuffer
  · cases buffer with
    | none =>
      dsimp only
      split
      · -- an empty view leases nothing
        have hleases : State.leases { s with views := s.views ++ [⟨0, false, false, 0, true, true⟩] } =
            s.leases := (leases_append (s := s) _).trans (append_nil _)
        refine ⟨h.held.perm rfl rfl ?_ fun _ => rfl, ?_, exported_append h.exported rfl, h.freed,
          h.registered,
          h.deferred, h.requests, h.fits⟩
        · rw [hleases]
          exact List.Perm.refl _
        · rw [hleases]
          exact h.counted
      · exact h
    | some b =>
      have hlt := Held.lt_bufferCount h.held
      dsimp only
      rw [if_neg (by omega)]
      split
      · have hleases :
            State.leases { s.noteLeased with views := s.views ++
              [⟨b, true, false, 0, true, true⟩] } =
            s.leases ++ [b] := leases_append (s := s) _
        refine ⟨h.held.perm rfl rfl ?_ fun _ => rfl, ?_, exported_append h.exported rfl, h.freed,
          h.registered,
          h.deferred, h.requests, h.fits⟩
        · rw [hleases, append_nil, ← append_assoc]
          exact List.Perm.refl _
        · rw [hleases, length_append]
          exact congrArg (· + 1) h.counted
      · exact @Inv.recycleSelectedBuffer s (some b) h

theorem Inv.package (h : s.Inv []) {i : Nat} {cqe : Cqe} (hcqe : s.cqes[i]? = some cqe) :
    ({ s with cqes := s.cqes.eraseIdx i }.package cqe).Inv [] := by
  rcases List.getElem?_eq_some_iff.1 hcqe with ⟨hi, hget⟩
  have hperm : (cqe :: s.cqes.eraseIdx i).Perm s.cqes := hget ▸ getElem_cons_eraseIdx_perm hi
  have hcount : (s.cqes.countP fun cqe => !cqe.more) =
      ((s.cqes.eraseIdx i).countP fun cqe => !cqe.more) + if cqe.more then 0 else 1 := by
    rw [← hperm.countP_eq, countP_cons]
    cases cqe.more <;> rfl
  have hheld : { s with cqes := s.cqes.eraseIdx i }.Held cqe.buffer.toList := by
    refine h.held.perm rfl rfl ?_ fun _ => rfl
    have hselected : (cqe.buffer.toList ++ (s.cqes.eraseIdx i).filterMap Cqe.buffer).Perm s.selected := by
      have hmap := hperm.filterMap Cqe.buffer
      rw [filterMap_cons] at hmap
      cases hb : cqe.buffer with
      | none =>
        rw [hb] at hmap
        exact hmap
      | some b =>
        rw [hb] at hmap
        exact hmap
    show (s.kernel ++ (s.cqes.eraseIdx i).filterMap Cqe.buffer ++ s.leases ++ cqe.buffer.toList).Perm
      (s.kernel ++ s.selected ++ s.leases ++ [])
    rw [append_nil]
    refine List.Perm.trans ?_ ((hselected.append_left s.kernel).append_right s.leases)
    rw [append_assoc, append_assoc, append_assoc]
    refine List.Perm.append_left _ ?_
    rw [append_assoc, ← append_assoc]
    exact perm_append_comm
  have hfits : ∀ cqe' ∈ s.cqes.eraseIdx i, cqe'.res ≤ s.bufferSize :=
    fun cqe' hmem => h.fits cqe' (mem_of_mem_eraseIdx hmem)
  have hres : cqe.res ≤ s.bufferSize := h.fits cqe (mem_of_getElem? hcqe)
  have hrequests := h.requests
  rw [hcount] at hrequests
  unfold State.package
  dsimp only
  split
  · rename_i hmore
    rw [if_pos hmore] at hrequests
    exact Inv.recvMultishotBufPayload (s := { s with cqes := s.cqes.eraseIdx i })
      ⟨hheld, h.counted, h.exported, h.freed, h.registered, h.deferred, hrequests, hfits⟩ hres
  · rename_i hmore
    rw [if_neg hmore] at hrequests
    have hdone : { s with cqes := s.cqes.eraseIdx i }.noteRequestDone.Inv cqe.buffer.toList := by
      refine Inv.noteRequestDone ⟨hheld, h.counted, h.exported, h.freed, h.registered,
        nofun, ?_, hfits⟩ h.deferred
      show s.inflight - 1 = _
      rw [hrequests]
      rfl
    refine Inv.recvMultishotBufPayload hdone ?_
    rw [noteRequestDone_bufferSize]
    exact hres

/-! ## The views keep it -/

/-- The end of a lease. -/
def endLease (s : State) (b : Nat) : State :=
  (if s.live then s.recycle b else s).noteUnleased

/-- What a method of a view may do: nothing to the group, or end the lease. -/
def Ends (s : State) (v : View) (r : State × View) : Prop :=
  (r.2.leased = true → 0 < r.2.exportCount → r.2.recycled = false) ∧
    (r.1 = s ∧ r.2.lease = v.lease ∨ ∃ b, v.lease = some b ∧ r.2.lease = none ∧ r.1 = s.endLease b)

theorem leases_set {i : Nat} {v : View} (hv : s.views[i]? = some v) (v₁ : View) :
    ∃ rest, s.leases.Perm (v.lease.toList ++ rest) ∧
      (State.leases { s with views := s.views.set i v₁ }).Perm (v₁.lease.toList ++ rest) := by
  rcases List.getElem?_eq_some_iff.1 hv with ⟨hi, rfl⟩
  have hcons : ∀ (v : View) (rest : List View),
      (v :: rest).filterMap View.lease = v.lease.toList ++ rest.filterMap View.lease := by
    intro v rest
    rw [filterMap_cons]
    cases v.lease <;> rfl
  refine ⟨(s.views.eraseIdx i).filterMap View.lease, ?_, ?_⟩
  · rw [← hcons]
    exact ((getElem_cons_eraseIdx_perm hi).filterMap View.lease).symm
  · rw [← hcons]
    exact (set_perm_cons_eraseIdx hi v₁).filterMap View.lease

theorem exported_set (h : ∀ v ∈ s.views, v.leased = true → 0 < v.exportCount → v.recycled = false) {i : Nat}
    {v₁ : View} (h₁ : v₁.leased = true → 0 < v₁.exportCount → v₁.recycled = false) :
    ∀ v ∈ s.views.set i v₁, v.leased = true → 0 < v.exportCount → v.recycled = false := by
  intro v hmem
  rcases mem_or_eq_of_mem_set hmem with hmem | rfl
  · exact h v hmem
  · exact h₁

theorem Inv.setView (h : s.Inv []) {i : Nat} {v v₁ : View} (hv : s.views[i]? = some v)
    (hlease : v₁.lease = v.lease)
    (hexported : v₁.leased = true → 0 < v₁.exportCount → v₁.recycled = false) :
    { s with views := s.views.set i v₁ }.Inv [] := by
  rcases leases_set hv v₁ with ⟨rest, hbefore, hafter⟩
  rw [hlease] at hafter
  have hperm := hafter.trans hbefore.symm
  refine ⟨h.held.perm rfl rfl ?_ fun _ => rfl, h.counted.trans hperm.length_eq.symm,
    exported_set h.exported hexported,
    h.freed, h.registered, h.deferred, h.requests, h.fits⟩
  rw [append_nil, append_nil]
  exact hperm.append_left _

theorem Inv.endLease (h : s.Inv []) {i b : Nat} {v v₁ : View} (hv : s.views[i]? = some v)
    (hlease : v.lease = some b)
    (hnone : v₁.lease = none) (hexported : v₁.leased = true → 0 < v₁.exportCount → v₁.recycled = false) :
    { s.endLease b with views := (s.endLease b).views.set i v₁ }.Inv [] := by
  rcases leases_set hv v₁ with ⟨rest, hbefore, hafter⟩
  rw [hlease] at hbefore
  rw [hnone] at hafter
  have hcounted : s.leasedCount = rest.length + 1 := by
    rw [h.counted, hbefore.length_eq]
    rfl
  -- the lease is taken off the view first
  have hhand :
      ({ s with views := s.views.set i v₁, leasedCount := s.leasedCount - 1 } : State).Inv [b] := by
    refine ⟨h.held.perm rfl rfl ?_ fun _ => rfl, ?_, exported_set h.exported hexported, h.freed,
      h.registered,
      h.deferred, h.requests, h.fits⟩
    · rw [append_nil, append_assoc]
      refine List.Perm.append_left _ ?_
      exact (hafter.append_right [b]).trans ((perm_append_comm).trans hbefore.symm)
    · have hlen : (State.leases { s with views := s.views.set i v₁ }).length = rest.length :=
        hafter.length_eq
      show s.leasedCount - 1 = (State.leases { s with views := s.views.set i v₁ }).length
      omega
  unfold State.endLease
  have hpos : 0 < s.leasedCount := by omega
  by_cases hlive : s.live = true
  · have hand := (Bool.and_eq_true _ _).mp hlive
    have hrecycled := Inv.recycle hhand hand.1
    unfold State.recycle at hrecycled ⊢
    rw [if_pos hand.2] at hrecycled
    rw [if_pos hlive, if_pos hand.2]
    unfold noteUnleased
    rw [if_pos hpos]
    exact hrecycled
  · rw [if_neg hlive]
    unfold noteUnleased
    rw [if_pos hpos]
    exact ⟨hhand.held.drop (Bool.eq_false_iff.2 hlive), hhand.counted, hhand.exported, hhand.freed,
      hhand.registered, hhand.deferred, hhand.requests, hhand.fits⟩

theorem Inv.onView (h : s.Inv []) {i : Nat} {f : View → State × View}
    (hf : ∀ v, s.views[i]? = some v → v.alive = true → s.Ends v (f v))
    (hs : s.onView i f = some s') : s'.Inv [] := by
  unfold State.onView at hs
  split at hs
  · cases hs
  · rename_i v hv
    split at hs
    · rename_i halive
      cases hs
      have hends := hf v hv halive
      generalize f v = r at hends ⊢
      rcases r with ⟨s₁, v₁⟩
      rcases hends with ⟨hexported, ⟨heq, hlease⟩ | ⟨b, hlease, hnone, heq⟩⟩
      · dsimp only at heq hlease hexported
        subst heq
        exact h.setView hv hlease hexported
      · dsimp only at heq hnone hexported
        subst heq
        exact h.endLease hv hlease hnone hexported
    · cases hs

variable {v : View}

theorem lease_of (halive : v.alive = true) (hleased : v.leased = true) (hrecycled : v.recycled = false) :
    v.lease = some v.bufferId := by
  simp [View.lease, halive, hleased, hrecycled]

theorem Ends.same (hexported : v.leased = true → 0 < v.exportCount → v.recycled = false) :
    s.Ends v (s, v) :=
  ⟨hexported, .inl ⟨rfl, rfl⟩⟩

theorem Ends.dead (halive : v.alive = true) (hleased : v.leased = true) (hrecycled : v.recycled = false)
    (hnone : v.exportCount = 0) (hdead : s.live = false) :
    s.Ends v (s.noteUnleased, { v with recycled := true }) := by
  refine ⟨fun _ hpos => absurd hnone hpos.ne', .inr ⟨v.bufferId, lease_of halive hleased hrecycled, ?_, ?_⟩⟩
  · simp [View.lease]
  · unfold State.endLease
    rw [if_neg (by rw [hdead]; decide)]

theorem Ends.releaseLease (halive : v.alive = true) (hleased : v.leased = true)
    (hrecycled : v.recycled = false)
    (hnone : v.exportCount = 0) (hlive : s.live = true) : s.Ends v (s.releaseLease v) := by
  unfold State.releaseLease
  rw [if_neg (by rw [hleased, hrecycled]; decide)]
  refine ⟨fun _ hpos => absurd hnone hpos.ne', .inr ⟨v.bufferId, lease_of halive hleased hrecycled, ?_, ?_⟩⟩
  · simp [View.lease]
  · unfold State.endLease
    rw [if_pos hlive]

theorem live_iff : (!s.initialized || !s.ringBuffer) = true ↔ s.live = false := by
  unfold live
  cases s.initialized <;> cases s.ringBuffer <;> decide

theorem Ends.recycleLocked (halive : v.alive = true)
    (hexported : v.leased = true → 0 < v.exportCount → v.recycled = false) (hnone : v.exportCount = 0) :
    s.Ends v (s.recycleLocked v).2 := by
  unfold State.recycleLocked
  split
  · exact Ends.same hexported
  · rename_i hheld
    have hleased : v.leased = true := by
      cases hl : v.leased with
      | true => rfl
      | false => exact absurd (by rw [hl]; rfl) hheld
    have hrecycled : v.recycled = false := by
      cases hr : v.recycled with
      | true => exact absurd (by rw [hr, Bool.or_true]) hheld
      | false => rfl
    split
    · exact Ends.same hexported
    · split
      · rename_i hdead
        exact Ends.dead halive hleased hrecycled hnone (live_iff.1 hdead)
      · rename_i hlive
        refine Ends.releaseLease halive hleased hrecycled hnone ?_
        exact Bool.of_not_eq_false fun hdead => hlive (live_iff.2 hdead)

theorem Ends.releasebuffer (halive : v.alive = true)
    (hexported : v.leased = true → 0 < v.exportCount → v.recycled = false) :
      s.Ends v (s.releasebuffer v) := by
  unfold State.releasebuffer
  split
  · rename_i hpos
    have hexported₁ : v.leased = true → 0 < v.exportCount - 1 → v.recycled = false :=
      fun hleased _ => hexported hleased (Nat.pos_of_ne_zero hpos)
    dsimp only
    split
    · -- the last export
      rename_i hlast
      have hzero : v.exportCount - 1 = 0 := by
        rw [Bool.and_eq_true, Bool.and_eq_true, Bool.and_eq_true, Bool.and_eq_true] at hlast
        exact eq_of_beq hlast.1.1.1.2
      exact Ends.recycleLocked (v := { v with exportCount := v.exportCount - 1 }) halive hexported₁ hzero
    · exact ⟨hexported₁, .inl ⟨rfl, rfl⟩⟩
  · exact Ends.same hexported

theorem Ends.closeView (halive : v.alive = true)
    (hexported : v.leased = true → 0 < v.exportCount → v.recycled = false) :
      s.Ends v (s.closeView v).2 := by
  unfold State.closeView
  split
  · exact Ends.same hexported
  · rename_i hrecycled
    split
    · exact Ends.same hexported
    · rename_i hnone
      have hzero := Nat.eq_zero_of_not_pos hnone
      split
      · exact Ends.same hexported
      · rename_i hleased
        split
        · exact Ends.same hexported
        · split
          · exact Ends.recycleLocked halive hexported hzero
          · rename_i hshut
            refine Ends.dead halive ?_ (Bool.eq_false_iff.2 hrecycled) hzero
              (live_eq_false.2 (.inl (Bool.eq_false_iff.2 hshut)))
            cases hl : v.leased with
            | true => rfl
            | false => exact absurd (by rw [hl]; rfl) hleased

theorem Ends.getbuffer (hexported : v.leased = true → 0 < v.exportCount → v.recycled = false)
    (writable : Bool) :
    s.Ends v (match v.getbuffer writable with
      | .ok v₁ => (s, v₁)
      | .error _ => (s, v)) := by
  unfold View.getbuffer
  split
  · rename_i v₁ hok
    split at hok
    · cases hok
    · split at hok
      · cases hok
      · rename_i hrecycled
        split at hok
        · cases hok
        · cases hok
          exact ⟨fun _ _ => Bool.eq_false_iff.2 hrecycled, .inl ⟨rfl, rfl⟩⟩
  · exact Ends.same hexported

theorem Ends.recycleQuiet (halive : v.alive = true)
    (hexported : v.leased = true → 0 < v.exportCount → v.recycled = false)
    (hgroup : v.leased = true → v.recycled = false → v.exportCount = 0 → v.hasGroup = true) :
    s.Ends v (s.recycleQuiet v) := by
  unfold State.recycleQuiet
  split
  · exact Ends.same hexported
  · rename_i hheld
    have hheld' : v.leased = true ∧ v.recycled = false ∧ v.exportCount = 0 := by
      simp only [Bool.or_eq_true, Bool.not_eq_true', decide_eq_true_eq, not_or, Bool.not_eq_true,
        Bool.not_eq_false, not_not] at hheld
      exact ⟨hheld.1.1, hheld.1.2, hheld.2⟩
    rcases hheld' with ⟨hleased, hrecycled, hnone⟩
    rw [if_neg (by rw [hgroup hleased hrecycled hnone]; decide)]
    split
    · rename_i hdead
      exact Ends.dead halive hleased hrecycled hnone (live_iff.1 hdead)
    · rename_i hlive
      refine Ends.releaseLease halive hleased hrecycled hnone ?_
      exact Bool.of_not_eq_false fun hdead => hlive (live_iff.2 hdead)

theorem recycleQuiet_over (hnone : v.exportCount = 0) :
    (s.recycleQuiet v).2.leased = false ∨ (s.recycleQuiet v).2.recycled = true := by
  unfold State.recycleQuiet
  split
  · rename_i hover
    simp only [hnone, Bool.or_eq_true, Bool.not_eq_true', ne_eq, not_true_eq_false,
      decide_false, Bool.false_eq_true,
      or_false] at hover
    exact hover
  · split
    · exact .inr rfl
    · split
      · exact .inr rfl
      · unfold State.releaseLease
        split
        · rename_i hover
          rw [Bool.or_eq_true, Bool.not_eq_true'] at hover
          exact hover.symm
        · exact .inr rfl

theorem recycleQuiet_of_over (hover : v.leased = false ∨ v.recycled = true) :
    s.recycleQuiet v = (s, v) := by
  unfold State.recycleQuiet
  refine if_pos ?_
  rcases hover with h | h
  · rw [h]
    rfl
  · rw [h, Bool.or_true]
    rfl

theorem Ends.clear (halive : v.alive = true)
    (hexported : v.leased = true → 0 < v.exportCount → v.recycled = false)
    (hgroup : v.leased = true → v.recycled = false → v.exportCount = 0 → v.hasGroup = true) :
    s.Ends v (s.clear v) :=
  Ends.recycleQuiet halive hexported hgroup

theorem dealloc_eq (hnone : v.exportCount = 0) : s.dealloc v =
    ((s.recycleQuiet v).1, { (s.recycleQuiet v).2 with hasGroup := false, alive := false }) := by
  unfold State.dealloc State.clear
  dsimp only
  rw [recycleQuiet_of_over (recycleQuiet_over hnone)]

theorem lease_of_over {v : View} (hover : v.leased = false ∨ v.recycled = true) : v.lease = none := by
  unfold View.lease
  rcases hover with h | h <;> simp [h]

theorem Ends.dealloc (halive : v.alive = true)
    (hexported : v.leased = true → 0 < v.exportCount → v.recycled = false)
    (hgroup : v.leased = true → v.recycled = false → v.exportCount = 0 → v.hasGroup = true)
    (hnone : v.exportCount = 0) : s.Ends v (s.dealloc v) := by
  have hover := recycleQuiet_over (s := s) hnone
  rw [dealloc_eq hnone]
  have hdead : ({ (s.recycleQuiet v).2 with hasGroup := false, alive := false } : View).lease = none :=
    lease_of_over hover
  rcases Ends.recycleQuiet (s := s) halive hexported hgroup with
    ⟨hexported', ⟨heq, hlease⟩ | ⟨b, hlease, -, heq⟩⟩
  · refine ⟨hexported', .inl ⟨heq, ?_⟩⟩
    rw [hdead, ← hlease, lease_of_over hover]
  · exact ⟨hexported', .inr ⟨b, hlease, hdead, heq⟩⟩

/-- A buffer goes from the ring to a CQE, to a lease and back, and is at one place. -/
theorem Inv.step (h : s.Inv []) {e : Event} (hkeeps : s.Keeps e) (hs : step s e = some s') : s'.Inv [] := by
  have hexported : ∀ {i : Nat} {v : View}, s.views[i]? = some v →
      v.leased = true → 0 < v.exportCount → v.recycled = false :=
    fun hv => h.exported _ (mem_of_getElem? hv)
  cases e with
  | arm =>
    simp only [Leases.step] at hs
    split at hs
    · cases hs
      refine ⟨h.held, h.counted, h.exported, h.freed, h.registered, fun _ => Nat.succ_pos _, ?_, h.fits⟩
      show s.inflight + 1 = s.armed + 1 + _
      rw [h.requests, Nat.add_right_comm]
      rfl
    · cases hs
  | post cqe =>
    simp only [Leases.step] at hs
    split at hs
    · rename_i hguard
      cases hs
      rcases hguard with ⟨hopen, harmed, hin, hres⟩
      refine ⟨?_, h.counted, h.exported, h.freed, h.registered, h.deferred, ?_, ?_⟩
      · refine h.held.perm rfl rfl ?_ fun hdead => ?_
        · show ((match cqe.buffer with
            | none => s.kernel
            | some b => s.kernel.erase b) ++ (s.cqes ++ [cqe]).filterMap Cqe.buffer ++ s.leases ++ []).Perm
              (s.kernel ++ s.selected ++ s.leases ++ [])
          rw [append_nil, append_nil]
          refine List.Perm.append_right _ ?_
          rw [filterMap_append]
          cases hb : cqe.buffer with
          | none =>
            rw [filterMap_cons, hb, filterMap_nil, append_nil]
            exact List.Perm.refl _
          | some b =>
            have hmem : b ∈ s.kernel := hin b (by rw [hb]; rfl)
            rw [filterMap_cons, hb, filterMap_nil, ← append_assoc]
            refine perm_append_comm.trans ?_
            show (b :: (s.kernel.erase b ++ s.selected)).Perm _
            exact ((perm_cons_erase hmem).append_right s.selected).symm
        · have hempty : s.kernel = [] := by
            have hheld := h.held
            unfold Held at hheld
            rw [if_neg (by rw [hdead]; decide)] at hheld
            exact hheld.1
          show (match cqe.buffer with
            | none => s.kernel
            | some b => s.kernel.erase b) = s.kernel
          rw [hempty]
          split <;> rfl
      · show s.inflight = (if cqe.more then s.armed else s.armed - 1) + (s.cqes ++ [cqe]).countP _
        rw [h.requests, countP_append, countP_singleton]
        cases cqe.more with
        | true => rfl
        | false =>
          show s.armed + _ = s.armed - 1 + (_ + 1)
          omega
      · intro cqe' hmem
        rcases mem_append.1 hmem with hmem | hmem
        · exact h.fits cqe' hmem
        · rw [mem_singleton.1 hmem]
          exact hres
    · cases hs
  | package i =>
    simp only [Leases.step] at hs
    split at hs
    · cases hs
    · rename_i cqe hcqe
      cases hs
      exact h.package hcqe
  | getbuffer i writable => exact h.onView (fun v hv _ => Ends.getbuffer (hexported hv) writable) hs
  | releasebuffer i => exact h.onView (fun v hv halive => Ends.releasebuffer halive (hexported hv)) hs
  | closeView i => exact h.onView (fun v hv halive => Ends.closeView halive (hexported hv)) hs
  | clear i =>
    exact h.onView (fun v hv halive =>
      Ends.clear halive (hexported hv) (hkeeps i (.inl rfl) v hv halive)) hs
  | dealloc i =>
    simp only [Leases.step] at hs
    split at hs
    · cases hs
    · rename_i v hv
      split at hs
      · rename_i hnone
        refine h.onView (fun v' hv' halive => ?_) hs
        rw [hv] at hv'
        cases hv'
        exact Ends.dealloc halive (hexported hv) (hkeeps i (.inr rfl) v hv halive) hnone
      · cases hs
  | closeGroup =>
    cases hs
    exact h.closeGroup
  | closeRing =>
    cases hs
    exact ⟨h.held.retire (live_eq_false.2 (.inl rfl)) rfl rfl rfl rfl, h.counted, h.exported,
      ⟨h.freed.1, fun hopen => by cases hopen⟩, h.registered, h.deferred, h.requests, h.fits⟩

/-! ## A close that waits -/

/-- What `close` has to do with. -/
def group (s : State) : Nat × Bool × Bool × Nat :=
  (s.inflight, s.closeRequested, s.ringBuffer, s.frees)

theorem recycle_group (b : Nat) : (s.recycle b).group = s.group := by
  unfold State.recycle
  split <;> rfl

theorem noteUnleased_group : s.noteUnleased.group = s.group := by
  unfold noteUnleased
  split <;> rfl

theorem endLease_group (b : Nat) : (s.endLease b).group = s.group := by
  unfold State.endLease
  rw [noteUnleased_group]
  split
  · exact recycle_group b
  · rfl

theorem recycleSelectedBuffer_group (buffer : Option Nat) :
    (s.recycleSelectedBuffer buffer).group = s.group := by
  unfold State.recycleSelectedBuffer
  split
  · rfl
  · split
    · exact recycle_group _
    · rfl

theorem recvMultishotBufPayload_group (res : Int) (buffer : Option Nat) (makeView : Bool) :
    (s.recvMultishotBufPayload res buffer makeView).group = s.group := by
  unfold State.recvMultishotBufPayload
  split
  · exact recycleSelectedBuffer_group buffer
  · split
    · split <;> rfl
    · split
      · rfl
      · split
        · rfl
        · exact recycleSelectedBuffer_group _

theorem onView_group {i : Nat} {f : View → State × View}
    (hf : ∀ v, s.views[i]? = some v → v.alive = true → s.Ends v (f v)) (hs : s.onView i f = some s') :
    s'.group = s.group := by
  unfold State.onView at hs
  split at hs
  · cases hs
  · rename_i v hv
    split at hs
    · rename_i halive
      cases hs
      show (f v).1.group = s.group
      rcases hf v hv halive with ⟨-, ⟨heq, -⟩ | ⟨b, -, -, heq⟩⟩
      · rw [heq]
      · rw [heq, endLease_group]
    · cases hs

theorem Inv.defers (h : s.Inv []) {e : Event} (hkeeps : s.Keeps e) : s.Defers e := by
  intro hrequested s' hs
  have h' := h.step hkeeps hs
  have hexported : ∀ {i : Nat} {v : View}, s.views[i]? = some v →
      v.leased = true → 0 < v.exportCount → v.recycled = false :=
    fun hv => h.exported _ (mem_of_getElem? hv)
  -- nothing has happened to the group
  have hsame : s'.group = s.group → if 0 < s'.inflight then
      s'.closeRequested = true ∧ s'.ringBuffer = s.ringBuffer ∧ s'.frees = s.frees
      else s'.ringBuffer = false ∧ (s'.initialized = true → s'.frees = 1) := by
    intro hgroup
    simp only [group, Prod.mk.injEq] at hgroup
    rw [hgroup.1, if_pos (h.deferred hrequested)]
    exact ⟨hgroup.2.1.trans hrequested, hgroup.2.2⟩
  cases e with
  | arm =>
    simp only [Leases.step] at hs
    split at hs
    · cases hs
      exact (if_pos (Nat.succ_pos _)).mpr ⟨hrequested, rfl, rfl⟩
    · cases hs
  | post cqe =>
    simp only [Leases.step] at hs
    split at hs
    · cases hs
      exact hsame rfl
    · cases hs
  | package i =>
    simp only [Leases.step] at hs
    split at hs
    · cases hs
    · rename_i cqe hcqe
      cases hs
      unfold State.package at hsame h' ⊢
      dsimp only at hsame h' ⊢
      by_cases hmore : cqe.more = true
      · rw [if_pos hmore] at hsame ⊢
        exact hsame (recvMultishotBufPayload_group _ _ _)
      · rw [if_neg hmore] at hsame h' ⊢
        have hgroup :=
          recvMultishotBufPayload_group (s := { s with cqes := s.cqes.eraseIdx i }.noteRequestDone)
          cqe.res cqe.buffer (!cqe.noDeliver)
        generalize State.recvMultishotBufPayload
          { s with cqes := s.cqes.eraseIdx i }.noteRequestDone cqe.res
          cqe.buffer (!cqe.noDeliver) = s' at hgroup h' ⊢
        simp only [group, Prod.mk.injEq] at hgroup
        unfold State.noteRequestDone at hgroup
        dsimp only at hgroup
        by_cases hlast : s.inflight = 1
        · -- the last request
          rw [if_pos ⟨hlast, hrequested⟩, freeBufRing_inflight] at hgroup
          have hring : s'.ringBuffer = false := by
            rw [hgroup.2.2.1]
            unfold State.freeBufRing
            split
            · rfl
            · dsimp only
              split
              · rfl
              · rename_i hring
                exact Bool.eq_false_iff.2 hring
          have hnone : ¬ 0 < s'.inflight := by
            rw [hgroup.1]
            show ¬ 0 < s.inflight - 1
            omega
          rw [if_neg hnone]
          refine ⟨hring, fun hopen => ?_⟩
          rw [h'.freed.2 hopen, hring]
          rfl
        · rw [if_neg fun hand => hlast hand.1] at hgroup
          have hpos := h.deferred hrequested
          have hleft : 0 < s'.inflight := by
            rw [hgroup.1]
            show 0 < s.inflight - 1
            omega
          rw [if_pos hleft]
          exact ⟨hgroup.2.1.trans hrequested, hgroup.2.2⟩
  | getbuffer i writable =>
    exact hsame (onView_group (fun v hv _ => Ends.getbuffer (hexported hv) writable) hs)
  | releasebuffer i =>
    exact hsame (onView_group (fun v hv halive => Ends.releasebuffer halive (hexported hv)) hs)
  | closeView i => exact hsame (onView_group (fun v hv halive => Ends.closeView halive (hexported hv)) hs)
  | clear i =>
    exact hsame (onView_group (fun v hv halive =>
      Ends.clear halive (hexported hv) (hkeeps i (.inl rfl) v hv halive)) hs)
  | dealloc i =>
    simp only [Leases.step] at hs
    split at hs
    · cases hs
    · rename_i v hv
      split at hs
      · rename_i hnone
        refine hsame (onView_group (fun v' hv' halive => ?_) hs)
        rw [hv] at hv'
        cases hv'
        exact Ends.dealloc halive (hexported hv) (hkeeps i (.inr rfl) v hv halive) hnone
      · cases hs
  | closeGroup =>
    cases hs
    unfold State.closeGroup
    rw [if_pos (h.deferred hrequested)]
    exact (if_pos (h.deferred hrequested)).mpr ⟨rfl, rfl, rfl⟩
  | closeRing =>
    cases hs
    exact hsame rfl

/-! ## A view without its group -/

theorem Inv.lost (h : s.Inv []) {e : Event} (hnot : ¬ s.Keeps e) (hs : Leases.step s e = some s') :
    ¬ s'.Accounts := by
  intro haccounts
  unfold Keeps at hnot
  push Not at hnot
  rcases hnot with ⟨i, he, v, hv, halive, hleased, hrecycled, hnone, hgroup⟩
  have hquiet : s.recycleQuiet v = (s, { v with recycled := true }) := by
    have hgroup' : v.hasGroup = false := Bool.eq_false_iff.2 hgroup
    unfold State.recycleQuiet
    rw [if_neg (by rw [hleased, hrecycled, hnone]; decide), if_pos (by rw [hgroup']; rfl)]
  have hview : ∃ v₁ : View, v₁.recycled = true ∧ s' = { s with views := s.views.set i v₁ } := by
    rcases he with rfl | rfl
    · simp only [Leases.step, State.onView, hv, if_pos halive] at hs
      cases hs
      unfold State.clear
      rw [hquiet]
      exact ⟨{ v with recycled := true, hasGroup := false }, rfl, rfl⟩
    · simp only [Leases.step, State.onView, hv, if_pos halive, if_pos hnone] at hs
      cases hs
      rw [dealloc_eq hnone, hquiet]
      exact ⟨{ v with recycled := true, hasGroup := false, alive := false }, rfl, rfl⟩
  rcases hview with ⟨v₁, hover, rfl⟩
  rcases leases_set hv v₁ with ⟨rest, hbefore, hafter⟩
  rw [lease_of halive hleased hrecycled] at hbefore
  rw [lease_of_over (.inr hover)] at hafter
  have hcounted : s.leasedCount = (State.leases { s with views := s.views.set i v₁ }).length :=
    haccounts.counted
  have hlen : s.leasedCount = rest.length + 1 := h.counted.trans hbefore.length_eq
  have hlen' : (State.leases { s with views := s.views.set i v₁ }).length = rest.length := hafter.length_eq
  omega

end State

open State

/-- The buffers are accounted for in every run, and a close that waits frees the group with the last
request, if and only if no view that has lost its group is cleared or deallocated with its lease. -/
theorem leases_accounted (bufferSize bufferCount : Nat) (run : List Event) :
    Always step Accounts (start bufferSize bufferCount) run ∧
      Along step Defers (start bufferSize bufferCount) run ↔
      Along step Keeps (start bufferSize bufferCount) run := by
  have hinit := Inv.start bufferSize bufferCount
  have hiff := always_iff_along (I := fun s : State => s.Inv []) (P := Accounts)
      (C := Keeps) (fun _ h => h.accounts)
    (fun _ _ _ h hkeeps hs => h.step hkeeps hs) (fun _ _ _ h hnot hs => h.lost hnot hs) run _ hinit
  constructor
  · rintro ⟨halways, -⟩
    exact hiff.1 halways
  · intro hkeeps
    refine ⟨hiff.2 hkeeps, ?_⟩
    exact along_of_along (I := fun s : State => s.Inv []) (fun _ _ h hkeeps => h.defers hkeeps)
      (fun _ _ _ h hkeeps hs => h.step hkeeps hs) run _ hinit hkeeps

/-- A view in a cycle of garbage is cleared while a memoryview of it is alive, and deallocated when
the memoryview has gone: the group counts a lease that nobody has, and the kernel does not get the
buffer back. -/
theorem cleared_view_loses_buffer :
    ∃ s, exec step (start 64 1) [.arm, .post ⟨true, 5, some 0, false⟩, .package 0,
      .getbuffer 0 false, .clear 0,
        .releasebuffer 0, .dealloc 0] = some s ∧
      s.live = true ∧ s.leases = [] ∧ s.leasedCount = 1 ∧ s.kernel = [] ∧ s.cqes = [] ∧ ¬ s.Accounts :=
  ⟨_, rfl, rfl, rfl, rfl, rfl, rfl, fun h => absurd h.counted (by decide)⟩

end Pytealet.Uring.Leases
