import Mathlib.Tactic.ByContra
import Pytealet.Uring.Steps

/-!
# Uring.Sessions — one ring object, several sessions

`Ring.close` and `Ring.__init__` end a session, and `__init__` starts the next one on the same
object.  The fd table, the pending count and the completions of the earlier session stay as they
are; its buffer groups keep their pointer to the ring and their id.

`Ring` is the session's part of the object; here are the ids of the buffer groups, the groups and
their views.
-/

namespace Pytealet.Uring.Sessions

open Lib Lib.Transition

structure Group where
  /-- the session that made it -/
  session : Nat
  groupId : UInt16
  /-- `ring_buffer` is not `NULL` -/
  ringBuffer : Bool := true
  inflight : Nat := 0
  closeRequested : Bool := false
  alive : Bool := true
  deriving DecidableEq, Repr

structure View where
  group : Nat
  bufferId : Nat
  recycled : Bool := false
  deriving DecidableEq, Repr

structure State where
  ring : Ring
  nextBufGroup : UInt16 := 0
  /-- `free_buf_group_ids`, the last one first -/
  freeBufGroupIds : List UInt16 := []
  groups : List Group := []
  views : List View := []
  /-- the ids of the buffer rings that the kernel has -/
  registered : List UInt16 := []
  /-- the buffers that were put back into a buffer ring, by group -/
  given : List (Nat × Nat) := []
  session : Nat := 0

inductive Event
  /-- activity of the session -/
  | act (a : Act)
  /-- `ok` is whether the kernel takes the buffer ring -/
  | createGroup (ok : Bool)
  | noteRequest (group : Nat)
  | noteRequestDone (group : Nat)
  /-- packaging makes a view -/
  | lease (group bufferId : Nat)
  /-- the lease of the view ends -/
  | endLease (view : Nat)
  | closeGroup (group : Nat)
  | deallocGroup (group : Nat)
  /-- `drained` is false where `ring_sqpoll_drain_published` fails -/
  | close (drained : Bool)
  /-- `ok` is whether the kernel makes the ring -/
  | init (entries : Nat) (makeRoom drained ok : Bool)

namespace State

variable (s : State)

/-! ## Buffer groups -/

/-- `UringApiRing_alloc_buf_group_id`; 0 if there is none. -/
def allocBufGroupId : UInt16 × State :=
  match s.freeBufGroupIds with
  | id :: rest => (id, { s with freeBufGroupIds := rest })
  | [] =>
    if s.nextBufGroup = 0 then (0, s)
    else (s.nextBufGroup, { s with nextBufGroup := s.nextBufGroup + 1 })

/-- `UringApiRing_shrink_free_buf_group_tail` -/
def shrinkTail : List UInt16 → UInt16 → List UInt16 × UInt16
  | id :: rest, next => if id = next - 1 then shrinkTail rest (next - 1) else (id :: rest, next)
  | [], next => ([], next)

/-- `UringApiRing_release_buf_group_id` -/
def releaseBufGroupId (id : UInt16) : State :=
  if id = 0 then s
  else if id = s.nextBufGroup - 1 then
    let r := shrinkTail s.freeBufGroupIds (s.nextBufGroup - 1)
    { s with freeBufGroupIds := r.1, nextBufGroup := r.2 }
  else { s with freeBufGroupIds := id :: s.freeBufGroupIds }

def setGroup (i : Nat) (g : Group) : State :=
  { s with groups := s.groups.set i g }

def freeBufRing (i : Nat) (g : Group) : State :=
  if !s.ring.initialized || g.groupId = 0 then s.setGroup i { g with ringBuffer := false }
  else
    let s₁ := if g.ringBuffer then { s with registered := s.registered.erase g.groupId } else s
    (s₁.releaseBufGroupId g.groupId).setGroup i { g with ringBuffer := false, groupId := 0 }

/-- `UringApiRing_create_buf_group` -/
def createGroup (ok : Bool) : State :=
  if !s.ring.initialized then s
  else
    let r := s.allocBufGroupId
    if r.1 = 0 then r.2
    else if ok then
      { r.2 with groups := s.groups ++ [{ session := s.session, groupId := r.1 }], registered := r.1 :: s.registered }
    else r.2.releaseBufGroupId r.1

/-- `UringApiBufGroup_close` -/
def closeGroup (i : Nat) (g : Group) : State :=
  if 0 < g.inflight then s.setGroup i { g with closeRequested := true } else s.freeBufRing i g

def noteRequestDone (i : Nat) (g : Group) : State :=
  let g₁ := { g with inflight := g.inflight - 1 }
  if g.inflight = 1 ∧ g.closeRequested = true then s.freeBufRing i { g₁ with closeRequested := false }
  else s.setGroup i g₁

/-- `UringApiBufGroup_recycle` -/
def recycle (i : Nat) (g : Group) (bufferId : Nat) : State :=
  if g.ringBuffer then { s with given := s.given ++ [(i, bufferId)] } else s

/-- The end of a lease, in any of the ways in which a view ends it. -/
def endLease (g : Group) (v : View) : State :=
  if !s.ring.initialized || !g.ringBuffer then s else s.recycle v.group g v.bufferId

/-! ## The ring -/

/-- `UringApiRing_close` -/
def close (drained : Bool) : State :=
  if s.ring.initialized && !drained then s
  else
    { s with
      ring := { s.ring with initialized := false, sq := [], kernel := [] }
      nextBufGroup := 1
      freeBufGroupIds := []
      registered := [] }

/-- `UringApiRing_init` -/
def init (entries : Nat) (makeRoom drained ok : Bool) : State :=
  if s.ring.initialized && !drained then s
  else
    { s with
      ring := { s.ring with
        initialized := ok
        entries := entries
        makeRoom := makeRoom
        sq := []
        kernel := []
        staged := [] }
      nextBufGroup := 1
      registered := []
      session := s.session + 1 }

/-- A group that is still referenced. -/
def group (i : Nat) : Option Group :=
  (s.groups[i]?).filter Group.alive

end State

/-- The activity that a closed ring refuses; the other activity checks for itself. -/
def needsOpen : Act → Bool
  | .abortQueue _ _ => true
  | .submit _ => true
  | _ => false

/-- A group is deallocated when no request and no lease refers to it. -/
def step (s : State) : Event → Option State
  | .act a =>
    if needsOpen a && !s.ring.initialized then none
    -- no activity opens or closes the ring
    else (Uring.step s.ring a).map fun ring =>
      { s with ring := { ring with initialized := s.ring.initialized } }
  | .createGroup ok => some (s.createGroup ok)
  | .noteRequest i => (s.group i).map fun g => s.setGroup i { g with inflight := g.inflight + 1 }
  | .noteRequestDone i => (s.group i).map fun g => s.noteRequestDone i g
  | .lease i bufferId => (s.group i).map fun _ => { s with views := s.views ++ [⟨i, bufferId, false⟩] }
  | .endLease v =>
    (s.views[v]?).bind fun view =>
      if view.recycled then none
      else
        (s.group view.group).map fun g =>
          { s.endLease g view with views := s.views.set v { view with recycled := true } }
  | .closeGroup i => (s.group i).map fun g => s.closeGroup i g
  | .deallocGroup i =>
    (s.group i).bind fun g =>
      if 0 < g.inflight ∨ ∃ v ∈ s.views, v.group = i ∧ v.recycled = false then none
      else some (({ s with groups := s.groups.set i { g with alive := false } }).freeBufRing i
        { g with alive := false })
  | .close drained => some (s.close drained)
  | .init entries makeRoom drained ok => some (s.init entries makeRoom drained ok)

/-! ## Isolation -/

/-- A ring object before its first `__init__`. -/
def State.new (handle : Nat → Handle) : State :=
  { ring := { initialized := false, entries := 0, handle := handle } }

/-- No fd slot is active, abortive or queued. -/
def Idle (r : Ring) : Prop :=
  ∀ fd slot, r.slots fd = some slot → slot.active = none ∧ slot.abortive = false ∧ slot.fifo = []

structure Fresh (r : Ring) : Prop where
  idle : Idle r
  pending : r.pendingCount = 0
  staged : r.staged = [] ∧ r.built = []

/-- A session that an `__init__` starts is fresh. -/
def StartsFresh (s : State) (e : Event) : Prop :=
  ∀ entries makeRoom drained ok, e = .init entries makeRoom drained ok → ∀ s', step s e = some s' →
    s'.session ≠ s.session → s'.ring.initialized = true → Fresh s'.ring

/-- What the ring has for its buffer groups. -/
def State.pool (s : State) : UInt16 × List UInt16 × List UInt16 :=
  (s.nextBufGroup, s.freeBufGroupIds, s.registered)

/-- While a session runs, the groups of earlier ones cannot release an id, and their views cannot
give a buffer back. -/
def Inert (s : State) : Prop :=
  s.ring.initialized = true → ∀ i g, s.group i = some g → g.session ≠ s.session →
    (s.freeBufRing i g).pool = s.pool ∧
      ∀ v ∈ s.views, v.group = i → v.recycled = false → (s.endLease g v).given = s.given

def Isolated (s : State) (e : Event) : Prop :=
  StartsFresh s e ∧ ∀ s', step s e = some s' → Inert s'

/-- An `__init__` that starts a session finds nothing of the earlier ones: the fd table is idle,
nothing is pending and the groups that are still referenced have been closed. -/
def Settled (s : State) (e : Event) : Prop :=
  ∀ entries makeRoom drained, e = .init entries makeRoom drained true →
    (s.ring.initialized = true → drained = true) →
    Idle s.ring ∧ s.ring.pendingCount = 0 ∧ s.ring.built = [] ∧ ∀ i g, s.group i = some g → g.groupId = 0

namespace State

variable {s s' : State} {i : Nat} {g : Group}

/-! ## Groups without an id -/

theorem shrinkTail_length (ids : List UInt16) (next : UInt16) :
    (shrinkTail ids next).1.length ≤ ids.length ∧
    ((shrinkTail ids next).1.length = ids.length → (shrinkTail ids next).2 = next) := by
  induction ids generalizing next with
  | nil => exact ⟨le_rfl, fun _ => rfl⟩
  | cons id rest ih =>
    unfold shrinkTail
    split
    · have hle := (ih (next - 1)).1
      refine ⟨Nat.le_succ_of_le hle, fun hlen => ?_⟩
      rw [List.length_cons] at hlen
      omega
    · exact ⟨le_rfl, fun _ => rfl⟩

theorem releaseBufGroupId_ne {id : UInt16} (h : id ≠ 0) :
    ¬ ((s.releaseBufGroupId id).nextBufGroup = s.nextBufGroup ∧
      (s.releaseBufGroupId id).freeBufGroupIds = s.freeBufGroupIds) := by
  rintro ⟨hnext, hfree⟩
  unfold releaseBufGroupId at hnext hfree
  rw [if_neg h] at hnext hfree
  by_cases htail : id = s.nextBufGroup - 1
  · rw [if_pos htail] at hnext hfree
    have hsame := (shrinkTail_length s.freeBufGroupIds (s.nextBufGroup - 1)).2 (congrArg List.length hfree)
    have hprev : s.nextBufGroup - 1 = s.nextBufGroup := hsame.symm.trans hnext
    have hone : s.nextBufGroup.toBitVec - 1 = s.nextBufGroup.toBitVec := congrArg UInt16.toBitVec hprev
    bv_omega
  · rw [if_neg htail] at hfree
    have hlen := congrArg List.length hfree
    rw [List.length_cons] at hlen
    omega

theorem freeBufRing_pool (hopen : s.ring.initialized = true) :
    (s.freeBufRing i g).pool = s.pool ↔ g.groupId = 0 := by
  unfold freeBufRing
  rw [hopen]
  constructor
  · intro heq
    by_contra hid
    rw [if_neg (by simp [hid])] at heq
    have hids := congrArg (fun p : UInt16 × List UInt16 × List UInt16 => (p.1, p.2.1)) heq
    split at hids
    · rcases Prod.mk.inj hids with ⟨hnext, hfree⟩
      exact releaseBufGroupId_ne (s := { s with registered := s.registered.erase g.groupId }) hid
        ⟨hnext, hfree⟩
    · rcases Prod.mk.inj hids with ⟨hnext, hfree⟩
      exact releaseBufGroupId_ne hid ⟨hnext, hfree⟩
  · intro hid
    rw [if_pos (by simp [hid])]
    rfl

/-! ## The invariant -/

structure Inv (s : State) : Prop where
  /-- a group that has its buffer ring has its id -/
  numbered : ∀ (i : Nat) (g : Group), s.groups[i]? = some g → g.ringBuffer = true → g.groupId ≠ 0
  /-- while a session runs, the groups of earlier ones have no id -/
  old : s.ring.initialized = true → ∀ i g, s.group i = some g → g.session ≠ s.session → g.groupId = 0
  made : ∀ (i : Nat) (g : Group), s.groups[i]? = some g → g.session ≤ s.session

theorem group_eq (h : s.group i = some g) : s.groups[i]? = some g ∧ g.alive = true :=
  ⟨(Option.filter_eq_some_iff.1 h).1, (Option.filter_eq_some_iff.1 h).2⟩

theorem Inv.inert (h : s.Inv) : Inert s := by
  intro hopen i g hg hsession
  have hid := h.old hopen i g hg hsession
  refine ⟨(freeBufRing_pool hopen).2 hid, fun v _ _ _ => ?_⟩
  have hring : g.ringBuffer = false :=
    Bool.eq_false_iff.2 fun hring => h.numbered i g (group_eq hg).1 hring hid
  unfold endLease
  rw [if_pos (by rw [hring, Bool.not_false, Bool.or_true])]

theorem Inv.of_set (h : s.Inv) {g' : Group} (hg : s.groups[i]? = some g)
    (hgroups : s'.groups = s.groups.set i g')
    (hring : s'.ring = s.ring) (hsession : s'.session = s.session) (hkeeps : g'.session = g.session)
    (halive : g'.alive = true → g.alive = true) (hid : g'.groupId = g.groupId ∨ g'.groupId = 0)
    (hnumbered : g'.ringBuffer = true → g'.groupId ≠ 0) : s'.Inv := by
  constructor
  · intro j g₁ hg₁ hbuffer
    rw [hgroups, List.getElem?_set] at hg₁
    split at hg₁
    · split at hg₁
      · cases hg₁
        exact hnumbered hbuffer
      · cases hg₁
    · exact h.numbered j g₁ hg₁ hbuffer
  · intro hopen j g₁ hg₁ hold
    rw [hring] at hopen
    rw [hsession] at hold
    rcases group_eq hg₁ with ⟨hat, hlive⟩
    rw [hgroups, List.getElem?_set] at hat
    split at hat
    · rename_i heq
      split at hat
      · cases hat
        subst heq
        have hgroup : s.group i = some g := Option.filter_eq_some_iff.2 ⟨hg, halive hlive⟩
        rcases hid with hid | hid
        · rw [hid]
          exact h.old hopen i g hgroup (hkeeps ▸ hold)
        · exact hid
      · cases hat
    · exact h.old hopen j g₁ (Option.filter_eq_some_iff.2 ⟨hat, hlive⟩) hold
  · intro j g₁ hg₁
    rw [hsession]
    rw [hgroups, List.getElem?_set] at hg₁
    split at hg₁
    · split at hg₁
      · cases hg₁
        rw [hkeeps]
        exact h.made i g hg
      · cases hg₁
    · exact h.made j g₁ hg₁

theorem releaseBufGroupId_other (id : UInt16) : (s.releaseBufGroupId id).groups = s.groups ∧
    (s.releaseBufGroupId id).ring = s.ring ∧ (s.releaseBufGroupId id).session = s.session := by
  unfold releaseBufGroupId
  split
  · exact ⟨rfl, rfl, rfl⟩
  · split <;> exact ⟨rfl, rfl, rfl⟩

theorem Inv.freeBufRing (h : s.Inv) {g' : Group} (hg : s.groups[i]? = some g)
    (hgroups : s'.groups.set i = s.groups.set i)
    (hring : s'.ring = s.ring) (hsession : s'.session = s.session) (hkeeps : g'.session = g.session)
    (halive : g'.alive = true → g.alive = true) (hid : g'.groupId = g.groupId) :
      (s'.freeBufRing i g').Inv := by
  unfold State.freeBufRing
  split
  · exact h.of_set hg (congrFun hgroups _) hring hsession hkeeps halive (.inl hid) nofun
  · refine h.of_set hg (?_ : _ = s.groups.set i { g' with ringBuffer := false, groupId := 0 }) ?_ ?_
      hkeeps halive
      (.inr rfl) nofun
    · show (State.releaseBufGroupId _ _).groups.set i _ = _
      rw [(releaseBufGroupId_other _).1]
      split <;> exact congrFun hgroups _
    · show (State.releaseBufGroupId _ _).ring = _
      rw [(releaseBufGroupId_other _).2.1]
      split <;> exact hring
    · show (State.releaseBufGroupId _ _).session = _
      rw [(releaseBufGroupId_other _).2.2]
      split <;> exact hsession

theorem allocBufGroupId_other : s.allocBufGroupId.2.groups = s.groups ∧ s.allocBufGroupId.2.ring = s.ring ∧
    s.allocBufGroupId.2.session = s.session := by
  unfold allocBufGroupId
  split
  · exact ⟨rfl, rfl, rfl⟩
  · split <;> exact ⟨rfl, rfl, rfl⟩

theorem Inv.createGroup (h : s.Inv) (ok : Bool) : (s.createGroup ok).Inv := by
  rcases allocBufGroupId_other (s := s) with ⟨hgroups, hring, hsession⟩
  have hsame : ∀ s₁ : State, s₁.groups = s.groups → s₁.ring = s.ring → s₁.session = s.session → s₁.Inv := by
    intro s₁ hgroups hring hsession
    constructor
    · rw [hgroups]
      exact h.numbered
    · intro hopen i g hg hold
      rw [hring] at hopen
      rw [hsession] at hold
      refine h.old hopen i g ?_ hold
      unfold group at hg ⊢
      rw [hgroups] at hg
      exact hg
    · rw [hgroups, hsession]
      exact h.made
  unfold State.createGroup
  split
  · exact h
  · dsimp only
    split
    · exact hsame _ hgroups hring hsession
    · rename_i hid
      split
      · -- the new group
        have hcases : ∀ {i : Nat} {g : Group},
            (s.groups ++ [{ session := s.session, groupId := s.allocBufGroupId.1 }])[i]? = some g →
              s.groups[i]? = some g ∨ g = { session := s.session, groupId := s.allocBufGroupId.1 } := by
          intro i g hg
          rw [List.getElem?_append] at hg
          split at hg
          · exact .inl hg
          · rcases List.getElem?_eq_some_iff.1 hg with ⟨hi, rfl⟩
            have hzero : i - s.groups.length = 0 := Nat.lt_one_iff.1 hi
            simp [hzero]
        constructor
        · intro i g hg hbuffer
          rcases hcases hg with hg | rfl
          · exact h.numbered i g hg hbuffer
          · exact hid
        · intro hopen i g hg hold
          have hopen' : s.ring.initialized = true := hring ▸ hopen
          have hold' : g.session ≠ s.session := hsession ▸ hold
          rcases group_eq hg with ⟨hat, hlive⟩
          rcases hcases hat with hat | rfl
          · exact h.old hopen' i g (Option.filter_eq_some_iff.2 ⟨hat, hlive⟩) hold'
          · exact absurd rfl hold'
        · intro i g hg
          show g.session ≤ s.allocBufGroupId.2.session
          rw [hsession]
          rcases hcases hg with hg | rfl
          · exact h.made i g hg
          · exact le_rfl
      · rcases releaseBufGroupId_other (s := s.allocBufGroupId.2) s.allocBufGroupId.1 with ⟨h₁, h₂, h₃⟩
        exact hsame _ (h₁.trans hgroups) (h₂.trans hring) (h₃.trans hsession)

theorem Inv.close (h : s.Inv) (drained : Bool) : (s.close drained).Inv := by
  unfold State.close
  split
  · exact h
  · exact ⟨h.numbered, nofun, h.made⟩

theorem Inv.init (h : s.Inv) {entries : Nat} {makeRoom drained ok : Bool}
    (hsettled : Settled s (.init entries makeRoom drained ok)) :
      (s.init entries makeRoom drained ok).Inv := by
  unfold State.init
  split
  · exact h
  · rename_i hdrained
    refine ⟨h.numbered, fun hopen i g hg _ => ?_, fun i g hg => Nat.le_succ_of_le (h.made i g hg)⟩
    have hok : ok = true := hopen
    subst hok
    refine (hsettled entries makeRoom drained rfl fun hwas => ?_).2.2.2 i g hg
    cases hd : drained with
    | true => rfl
    | false =>
      rw [hwas, hd] at hdrained
      exact absurd rfl hdrained

/-- No group of an earlier session keeps its id when the next one starts. -/
theorem Inv.step (h : s.Inv) {e : Event} (hsettled : Settled s e)
    (hs : Sessions.step s e = some s') : s'.Inv := by
  cases e with
  | act a =>
    simp only [Sessions.step] at hs
    split at hs
    · cases hs
    · rcases Option.map_eq_some_iff.1 hs with ⟨ring, -, rfl⟩
      exact ⟨h.numbered, h.old, h.made⟩
  | createGroup ok =>
    cases hs
    exact h.createGroup ok
  | noteRequest i =>
    rcases Option.map_eq_some_iff.1 hs with ⟨g, hg, rfl⟩
    exact h.of_set (group_eq hg).1 rfl rfl rfl rfl id (.inl rfl) (h.numbered i g (group_eq hg).1)
  | noteRequestDone i =>
    rcases Option.map_eq_some_iff.1 hs with ⟨g, hg, rfl⟩
    unfold State.noteRequestDone
    dsimp only
    split
    · exact h.freeBufRing (group_eq hg).1 rfl rfl rfl rfl id rfl
    · exact h.of_set (group_eq hg).1 rfl rfl rfl rfl id (.inl rfl) (h.numbered i g (group_eq hg).1)
  | lease i bufferId =>
    rcases Option.map_eq_some_iff.1 hs with ⟨g, -, rfl⟩
    exact ⟨h.numbered, h.old, h.made⟩
  | endLease v =>
    simp only [Sessions.step] at hs
    rcases Option.bind_eq_some_iff.1 hs with ⟨view, -, hs⟩
    split at hs
    · cases hs
    · rcases Option.map_eq_some_iff.1 hs with ⟨g, -, rfl⟩
      unfold State.endLease State.recycle
      split
      · exact ⟨h.numbered, h.old, h.made⟩
      · split <;> exact ⟨h.numbered, h.old, h.made⟩
  | closeGroup i =>
    rcases Option.map_eq_some_iff.1 hs with ⟨g, hg, rfl⟩
    unfold State.closeGroup
    split
    · exact h.of_set (group_eq hg).1 rfl rfl rfl rfl id (.inl rfl) (h.numbered i g (group_eq hg).1)
    · exact h.freeBufRing (group_eq hg).1 rfl rfl rfl rfl id rfl
  | deallocGroup i =>
    simp only [Sessions.step] at hs
    rcases Option.bind_eq_some_iff.1 hs with ⟨g, hg, hs⟩
    split at hs
    · cases hs
    · cases hs
      refine h.freeBufRing (group_eq hg).1 ?_ rfl rfl rfl nofun rfl
      funext g'
      exact List.set_set _
  | close drained =>
    cases hs
    exact h.close drained
  | init entries makeRoom drained ok =>
    cases hs
    exact h.init hsettled

/-! ## Fresh sessions -/

theorem init_ring {entries : Nat} {makeRoom drained ok : Bool}
    (hreset : (s.init entries makeRoom drained ok).session ≠ s.session) :
    (s.init entries makeRoom drained ok).ring = { s.ring with
      initialized := ok, entries := entries, makeRoom := makeRoom, sq := [], kernel := [], staged := [] } ∧
      (s.ring.initialized = true → drained = true) := by
  unfold State.init at hreset ⊢
  split at hreset
  · exact absurd rfl hreset
  · rename_i hdrained
    rw [if_neg hdrained]
    refine ⟨rfl, fun hwas => ?_⟩
    cases hd : drained with
    | true => rfl
    | false =>
      rw [hwas, hd] at hdrained
      exact absurd rfl hdrained

theorem Settled.startsFresh {e : Event} (h : Settled s e) : StartsFresh s e := by
  rintro entries makeRoom drained ok rfl s' hs hreset hopen
  cases hs
  rcases init_ring hreset with ⟨hring, hdrained⟩
  rw [hring] at hopen ⊢
  have hok : ok = true := hopen
  subst hok
  rcases h entries makeRoom drained rfl hdrained with ⟨hidle, hpending, hbuilt, -⟩
  exact ⟨hidle, hpending, rfl, hbuilt⟩

theorem Inv.settled (h : s.Inv) {e : Event} (hisolated : Isolated s e) : Settled s e := by
  rintro entries makeRoom drained rfl hdrained
  have hstep : Sessions.step s (.init entries makeRoom drained true) =
      some (s.init entries makeRoom drained true) := rfl
  have hinit : s.init entries makeRoom drained true = { s with
      ring := { s.ring with
        initialized := true, entries := entries, makeRoom := makeRoom, sq :=
          [], kernel := [], staged := [] }
      nextBufGroup := 1
      registered := []
      session := s.session + 1 } := by
    unfold State.init
    refine if_neg ?_
    cases hwas : s.ring.initialized with
    | true =>
      rw [hdrained hwas]
      decide
    | false => exact Bool.false_ne_true
  have hfresh :=
    hisolated.1 entries makeRoom drained true rfl _ hstep (by rw [hinit]; exact Nat.succ_ne_self _)
    (by rw [hinit])
  have hinert := hisolated.2 _ hstep
  rw [hinit] at hfresh hinert
  refine ⟨hfresh.idle, hfresh.pending, hfresh.staged.2, fun i g hg => ?_⟩
  have hsession : g.session ≠ s.session + 1 := by
    have hle := h.made i g (group_eq hg).1
    omega
  exact (freeBufRing_pool rfl).1 (hinert rfl i g hg hsession).1

theorem Inv.isolated (h : s.Inv) {e : Event} (hsettled : Settled s e) : Isolated s e :=
  ⟨Settled.startsFresh hsettled, fun _ hs => (h.step hsettled hs).inert⟩

end State

/-- In every run each session starts fresh and the groups of the earlier sessions are inert, if and
only if an `__init__` that starts a session finds the object settled. -/
theorem sessions_isolated (handle : Nat → Handle) (run : List Event) :
    Along step Isolated (State.new handle) run ↔ Along step Settled (State.new handle) run := by
  have hinit : (State.new handle).Inv := ⟨nofun, nofun, nofun⟩
  constructor
  · exact along_of_along (I := State.Inv) (fun _ _ h hisolated => h.settled hisolated)
      (fun _ _ _ h hisolated hs => h.step (h.settled hisolated) hs) run _ hinit
  · exact along_of_along (I := State.Inv) (fun _ _ h hsettled => h.isolated hsettled)
      (fun _ _ _ h hsettled hs => h.step hsettled hs) run _ hinit

/-- A `send_all` is in flight and a group is open when the ring is closed and initialised again: the
new session has an active slot and a pending completion, and the old group's deallocation takes the
new group's buffer ring from the kernel. -/
theorem old_session_shows_through :
    let handle : Nat → Handle := fun _ => { kind := .sendAll, fd := 3, length := 10 }
    let run : List Event :=
      [.init 4 true true true, .createGroup true, .act (.prepare [(some 0, {})]), .close true,
      .init 4 true true true]
    (∃ s, exec step (State.new handle) run = some s ∧ s.ring.initialized = true ∧ s.ring.pendingCount = 1 ∧
      (s.ring.slots 3).map Slot.active = some (some 0)) ∧
      (∃ s, exec step (State.new handle) (run ++ [.createGroup true, .deallocGroup 0]) = some s ∧
        (s.groups[1]?).map Group.groupId = some 1 ∧ s.registered = []) ∧
      ¬ Along step Isolated (State.new handle) run := by
  refine ⟨⟨_, rfl, rfl, rfl, rfl⟩, ⟨_, rfl, rfl, rfl⟩, fun h => ?_⟩
  have hfresh := h.2.2.2.2.1.1 4 true true true rfl _ rfl (by decide) rfl
  exact absurd hfresh.pending (by decide)

end Pytealet.Uring.Sessions
