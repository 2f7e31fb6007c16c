import Mathlib.Logic.Function.Basic

/-!
# Selector.Table — operations, their handles and the fd table of the selector proactor

`SelectorProactor` keeps one entry for each descriptor: a reader slot, a writer slot and the FIFO of
write-side operations that wait behind the writer.  Entries are objects: a call may go on using an
entry that a callback has meanwhile deleted from the table, or that was deleted and made anew.
`Table` therefore maps descriptors to entry objects and entry objects to their contents, and it
carries the fact that holds of it in every state: an operation is only ever found in the entry that
the table has for its own descriptor.  So an entry that has left the table is empty.
-/

namespace Pytealet.Selector

open Function List

/-! ## Operations -/

/-- A socket object with the descriptor it was made with; `fileno()` is `-1` once it is closed. -/
structure Sock where
  id : Nat
  fd : Nat
deriving DecidableEq, Repr

/-- `selectors.EVENT_READ`, `selectors.EVENT_WRITE`. -/
inductive Event
  | read
  | write
deriving DecidableEq, Repr

/-- A set of selector events. -/
structure Mask where
  read : Bool
  write : Bool
deriving DecidableEq, Repr

def Mask.nonzero (m : Mask) : Bool :=
  m.read || m.write

inductive Op
  | send (sock : Sock) (data : List UInt8)
  | sendAll (sock : Sock) (data : List UInt8)
  | shutdown (sock : Sock) (how : Nat) (callback : Bool)
  | closeSocket (sock : Sock) (callback : Bool)
  /-- A socket operation that holds one slot and never queues. -/
  | oneshot (sock : Sock) (event : Event)
  | poll (fd : Nat) (mask : Mask)
  /-- `recv_many` (with a buffer pool) and `accept_many`: a stream of one delivery. -/
  | single (sock : Sock) (pooled : Bool) (baseSequence : Nat)
  | pollMany (fd : Nat) (mask : Mask)
deriving DecidableEq, Repr

namespace Op

/-- `recv`, and likewise `recv_into`, `recvfrom` and `recvfrom_into`. -/
def recv (sock : Sock) : Op :=
  .oneshot sock .read

def accept (sock : Sock) : Op :=
  .oneshot sock .read

def sendto (sock : Sock) : Op :=
  .oneshot sock .write

def connect (sock : Sock) : Op :=
  .oneshot sock .write

def shutdownNowait (sock : Sock) (how : Nat) : Op :=
  .shutdown sock how false

def closeSocketNowait (sock : Sock) : Op :=
  .closeSocket sock false

def recvMany (sock : Sock) (baseSequence : Nat) : Op :=
  .single sock true baseSequence

def acceptMany (sock : Sock) (baseSequence : Nat) : Op :=
  .single sock false baseSequence

def fd : Op → Nat
  | .send k _ | .sendAll k _ | .shutdown k _ _ | .closeSocket k _ | .oneshot k _ | .single k _ _ => k.fd
  | .poll fd _ | .pollMany fd _ => fd

def sock? : Op → Option Sock
  | .send k _ | .sendAll k _ | .shutdown k _ _ | .closeSocket k _ | .oneshot k _ | .single k _ _ => some k
  | .poll _ _ | .pollMany _ _ => none

/-- The slots the operation is put in while it waits. -/
def mask : Op → Mask
  | .send _ _ | .sendAll _ _ | .oneshot _ .write => ⟨false, true⟩
  | .oneshot _ .read | .single _ _ _ => ⟨true, false⟩
  | .shutdown _ _ _ | .closeSocket _ _ => ⟨false, false⟩
  | .poll _ m | .pollMany _ m => m

/-- The operations that share the write FIFO of their descriptor. -/
def queued : Op → Bool
  | .send _ _ | .sendAll _ _ | .shutdown _ _ _ | .closeSocket _ _ => true
  | _ => false

/-- Queued operations without an operation handle: they run in one go. -/
def direct : Op → Bool
  | .shutdown _ _ _ | .closeSocket _ _ => true
  | _ => false

def stream : Op → Bool
  | .single _ _ _ | .pollMany _ _ => true
  | _ => false

/-- Whether completing the operation runs a callback of the caller. -/
def callback : Op → Bool
  | .shutdown _ _ c | .closeSocket _ c => c
  | _ => true

/-- `_poll_mask_to_selector_events` refuses a mask without a supported event. -/
def emptyMask : Op → Bool
  | .poll _ m | .pollMany _ m => !m.nonzero
  | _ => false

def baseSequence : Op → Nat
  | .single _ _ b => b
  | _ => 0

end Op

/-- One submitted operation; `id` is its place in the order of submission. -/
structure Handle where
  id : Nat
  op : Op
deriving DecidableEq, Repr

def Handle.fd (h : Handle) : Nat :=
  h.op.fd

/-- `_FdEntry`.  A slot is named by the handle in it. -/
structure Entry where
  reader : Option Handle := none
  writer : Option Handle := none
  writeQueue : List Handle := []
deriving DecidableEq, Repr

def Entry.empty (en : Entry) : Bool :=
  en.reader.isNone && en.writer.isNone && en.writeQueue.isEmpty

/-- The operation is in one of the slots, or waits in the queue. -/
def Entry.Has (en : Entry) (h : Handle) : Prop :=
  en.reader = some h ∨ en.writer = some h ∨ h ∈ en.writeQueue
deriving Decidable

/-- What `_remove_handle` takes out of an entry. -/
def Entry.clear (en : Entry) (h : Handle) : Entry where
  reader := if en.reader = some h then none else en.reader
  writer := if en.writer = some h then none else en.writer
  writeQueue := en.writeQueue.filter (· ≠ h)

def Entry.enqueue (en : Entry) (h : Handle) : Entry :=
  { en with writeQueue := en.writeQueue ++ [h] }

def Entry.reserve (en : Entry) (h : Handle) : Entry :=
  { en with
    reader := if h.op.mask.read then some h else en.reader
    writer := if h.op.mask.write then some h else en.writer }

namespace Entry

variable {en : Entry} {h h' : Handle}

theorem has_of_has_clear (hh : (en.clear h).Has h') : en.Has h' := by
  simp only [Has, clear, mem_filter] at hh ⊢
  grind

theorem not_has_clear : ¬ (en.clear h).Has h := by
  simp only [Has, clear, mem_filter]
  grind

theorem has_clear_of_ne (hne : h' ≠ h) : (en.clear h).Has h' ↔ en.Has h' := by
  simp only [Has, clear, mem_filter]
  grind

theorem has_of_has_enqueue (hh : (en.enqueue h).Has h') : en.Has h' ∨ h' = h := by
  simp only [Has, enqueue, mem_append, mem_singleton] at hh ⊢
  grind

theorem has_of_has_reserve (hh : (en.reserve h).Has h') : en.Has h' ∨ h' = h := by
  simp only [Has, reserve] at hh ⊢
  grind

theorem eq_of_empty (hempty : en.empty = true) : en = {} := by
  rcases en with ⟨r, w, q⟩
  simp only [empty, Bool.and_eq_true, Option.isNone_iff_eq_none, List.isEmpty_iff] at hempty
  rcases hempty with ⟨⟨rfl, rfl⟩, rfl⟩
  rfl

theorem not_has_of_empty (hempty : en.empty = true) (h : Handle) : ¬ en.Has h := by
  rw [eq_of_empty hempty]
  simp [Has]

end Entry

/-! ## The table -/

/-- `_fd_slots`. -/
structure Table where
  /-- descriptor to entry object -/
  slots : Nat → Option Nat
  entries : Nat → Entry
  /-- entry objects made so far -/
  entryCount : Nat
  home : ∀ {e h}, (entries e).Has h → slots h.fd = some e
  bound : ∀ {fd e}, slots fd = some e → e < entryCount
  unique : ∀ {fd fd' e}, slots fd = some e → slots fd' = some e → fd = fd'

namespace Table

def empty : Table where
  slots := fun _ => none
  entries := fun _ => {}
  entryCount := 0
  home := by simp [Entry.Has]
  bound := by simp
  unique := by simp

/-- The contents of the entry of a descriptor. -/
def entryAt (t : Table) (fd : Nat) : Entry :=
  match t.slots fd with
  | none => {}
  | some e => t.entries e

variable {t : Table}

theorem entryAt_of_slots {fd e : Nat} (h : t.slots fd = some e) : t.entryAt fd = t.entries e := by
  simp [entryAt, h]

theorem entryAt_of_none {fd : Nat} (h : t.slots fd = none) : t.entryAt fd = {} := by
  simp [entryAt, h]

theorem fd_of_has {fd : Nat} {h : Handle} (hh : (t.entryAt fd).Has h) : h.fd = fd := by
  cases hs : t.slots fd with
  | none => simp [entryAt_of_none hs, Entry.Has] at hh
  | some e =>
    rw [entryAt_of_slots hs] at hh
    exact t.unique (t.home hh) hs

theorem entryAt_of_has {e : Nat} {h : Handle} (hh : (t.entries e).Has h) :
    t.entryAt h.fd = t.entries e :=
  entryAt_of_slots (t.home hh)

/-! ### Taking out -/

/-- An entry object keeps only part of what it holds. -/
def shrink (t : Table) (e : Nat) (en : Entry) (sub : ∀ h, en.Has h → (t.entries e).Has h) : Table where
  slots := t.slots
  entries := update t.entries e en
  entryCount := t.entryCount
  home := by
    intro e' h hh
    by_cases he : e' = e
    · subst he
      rw [update_self] at hh
      exact t.home (sub h hh)
    · rw [update_of_ne he] at hh
      exact t.home hh
  bound := t.bound
  unique := t.unique

theorem entryAt_shrink {fd e : Nat} {en : Entry}
    {sub : ∀ h, en.Has h → (t.entries e).Has h} (hs : t.slots fd = some e) :
    (t.shrink e en sub).entryAt = update t.entryAt fd en := by
  funext f
  by_cases hf : f = fd
  · subst hf
    simp [entryAt, shrink, hs]
  · rw [update_of_ne hf]
    cases hsf : t.slots f with
    | none => simp [entryAt, shrink, hsf]
    | some e' =>
      have hne : e' ≠ e := fun heq => hf (t.unique hsf (heq ▸ hs))
      simp [entryAt, shrink, hsf, hne]

/-- `_remove_handle`'s changes to one entry. -/
def clear (t : Table) (e : Nat) (h : Handle) : Table :=
  t.shrink e ((t.entries e).clear h) fun _ => Entry.has_of_has_clear

/-- `entry.write_queue.popleft()`. -/
def popleft (t : Table) (e : Nat) : Table :=
  t.shrink e { t.entries e with writeQueue := (t.entries e).writeQueue.tail } fun _ hh =>
    hh.imp_right (Or.imp_right mem_of_mem_tail)

/-- `del self._fd_slots[fd]`, of an empty entry. -/
def delete (t : Table) (fd : Nat) (hempty : (t.entryAt fd).empty = true) : Table where
  slots := update t.slots fd none
  entries := t.entries
  entryCount := t.entryCount
  home := by
    intro e h hh
    have hne : h.fd ≠ fd := by
      intro heq
      subst heq
      rw [entryAt_of_has hh] at hempty
      exact Entry.not_has_of_empty hempty h hh
    rw [update_of_ne hne]
    exact t.home hh
  bound := by
    intro f e hf
    by_cases h : f = fd
    · simp [h] at hf
    · rw [update_of_ne h] at hf
      exact t.bound hf
  unique := by
    intro f f' e hf hf'
    by_cases h : f = fd
    · simp [h] at hf
    · by_cases h' : f' = fd
      · simp [h'] at hf'
      · rw [update_of_ne h] at hf
        rw [update_of_ne h'] at hf'
        exact t.unique hf hf'

theorem entryAt_delete {fd : Nat} (hempty : (t.entryAt fd).empty = true) :
    (t.delete fd hempty).entryAt = t.entryAt := by
  funext f
  by_cases hf : f = fd
  · subst hf
    rw [Entry.eq_of_empty hempty]
    simp [entryAt, delete]
  · simp [entryAt, delete, hf]

/-! ### Putting in -/

/-- `_fd_slots.setdefault(fd, _FdEntry())`, with `en` as the new contents of that entry. -/
def put (t : Table) (fd : Nat) (en : Entry) (own : ∀ h, en.Has h → h.fd = fd) : Table :=
  match hs : t.slots fd with
  | some e =>
    { slots := t.slots
      entries := update t.entries e en
      entryCount := t.entryCount
      home := by
        intro e' h hh
        by_cases he : e' = e
        · subst he
          rw [update_self] at hh
          rw [own h hh, hs]
        · rw [update_of_ne he] at hh
          exact t.home hh
      bound := t.bound
      unique := t.unique }
  | none =>
    { slots := update t.slots fd (some t.entryCount)
      entries := update t.entries t.entryCount en
      entryCount := t.entryCount + 1
      home := by
        intro e' h hh
        by_cases he : e' = t.entryCount
        · subst he
          rw [update_self] at hh
          rw [own h hh, update_self]
        · rw [update_of_ne he] at hh
          have hne : h.fd ≠ fd := by
            intro heq
            have := t.home hh
            rw [heq, hs] at this
            cases this
          rw [update_of_ne hne]
          exact t.home hh
      bound := by
        intro f e hf
        by_cases h : f = fd
        · subst h
          rw [update_self] at hf
          cases hf
          exact Nat.lt_succ_self _
        · rw [update_of_ne h] at hf
          exact Nat.lt_succ_of_lt (t.bound hf)
      unique := by
        intro f f' e hf hf'
        by_cases h : f = fd <;> by_cases h' : f' = fd
        · exact h.trans h'.symm
        · subst h
          rw [update_self] at hf
          rw [update_of_ne h'] at hf'
          cases hf
          exact absurd (t.bound hf') (Nat.lt_irrefl _)
        · subst h'
          rw [update_self] at hf'
          rw [update_of_ne h] at hf
          cases hf'
          exact absurd (t.bound hf) (Nat.lt_irrefl _)
        · rw [update_of_ne h] at hf
          rw [update_of_ne h'] at hf'
          exact t.unique hf hf' }

theorem entryAt_put {fd : Nat} {en : Entry} {own : ∀ h, en.Has h → h.fd = fd} :
    (t.put fd en own).entryAt = update t.entryAt fd en := by
  funext f
  unfold put
  split
  · rename_i e hs
    by_cases hf : f = fd
    · subst hf
      simp [entryAt, hs]
    · rw [update_of_ne hf]
      cases hsf : t.slots f with
      | none => simp [entryAt, hsf]
      | some e' =>
        have hne : e' ≠ e := fun heq => hf (t.unique hsf (heq ▸ hs))
        simp [entryAt, hsf, hne]
  · by_cases hf : f = fd
    · subst hf
      simp [entryAt]
    · rw [update_of_ne hf]
      cases hsf : t.slots f with
      | none => simp [entryAt, hsf, hf]
      | some e' =>
        have hne : e' ≠ t.entryCount := Nat.ne_of_lt (t.bound hsf)
        simp [entryAt, hsf, hf, hne]

theorem slots_put {fd f e : Nat} {en : Entry} {own : ∀ h, en.Has h → h.fd = fd}
    (hf : t.slots f = some e) : (t.put fd en own).slots f = some e := by
  unfold put
  split
  · exact hf
  · rename_i hs
    have hne : f ≠ fd := by
      intro heq
      rw [heq, hs] at hf
      cases hf
    simpa [hne] using hf

def enqueueWrite (t : Table) (h : Handle) : Table :=
  t.put h.fd ((t.entryAt h.fd).enqueue h) fun _ hh =>
    (Entry.has_of_has_enqueue hh).elim fd_of_has (· ▸ rfl)

/-- `_reserve_fd_slot` and `_reserve_fd_poll_slot`. -/
def reserve (t : Table) (h : Handle) : Table :=
  t.put h.fd ((t.entryAt h.fd).reserve h) fun _ hh =>
    (Entry.has_of_has_reserve hh).elim fd_of_has (· ▸ rfl)

end Table

end Pytealet.Selector
