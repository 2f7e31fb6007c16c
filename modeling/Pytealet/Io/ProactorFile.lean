import Mathlib.Algebra.Order.Group.Int
import Mathlib.Algebra.Order.Ring.Nat
import Mathlib.Data.List.Basic
import Pytealet.Lib.Transition

/-!
# ProactorFile — a file whose position is kept in user space

`ProactorFile` keeps the position, and reads and writes at it.  In append mode it also knows when
the position is at the end of the file, and then a write need not look up the size.

The operations below it may fail or be short.  A read gives at least one byte unless the file ends
there; a write to a descriptor that appends acts at the end of the file, wherever it is asked to.

The ordinary file asks `lseek`, which has a greatest offset and may know more than the three usual
values of `whence`.  A write of nothing does not move it.
-/

namespace Pytealet.Io.ProactorFile

open Lib Lib.Transition List

abbrev Bytes :=
  List UInt8

/-- An operation fails, or does at most so many bytes. -/
inductive Outcome
  | fails
  | gives (n : Nat)
  deriving DecidableEq, Repr

structure State where
  content : Bytes
  pos : Int := 0
  posAtEof : Bool := false
  append : Bool
  readable : Bool
  writable : Bool
  deriving DecidableEq, Repr

/-- `flags & os.O_ACCMODE` -/
inductive Access
  | rdonly
  | wronly
  | rdwr
  deriving DecidableEq, Repr

/-- `__init__`; the caller may have looked up the size. -/
def opened (content : Bytes) (access : Access) (append lookedUp : Bool) : State :=
  let initialSize := if lookedUp then some content.length else none
  { content
    pos := if append then ((initialSize.getD content.length : Nat) : Int) else 0
    posAtEof := append
    append
    readable := decide (access = .rdonly ∨ access = .rdwr)
    writable := decide (access = .wronly ∨ access = .rdwr) }

/-! ## The operations below -/

/-- The bytes that a read at an offset gives. -/
def chunk (content : Bytes) (offset size n : Nat) : Bytes :=
  ((content.drop offset).take size).take (max 1 n)

/-- The content after a write at an offset; a gap is filled with zeros. -/
def put (content : Bytes) (offset : Nat) (b : Bytes) : Bytes :=
  if b = [] then content
  else (content ++ List.replicate (offset - content.length) 0).take offset ++ b ++
    content.drop (offset + b.length)

def readAt (content : Bytes) (pos : Int) (size : Nat) : Outcome → Option Bytes
  | .fails => none
  | .gives n => if pos < 0 then none else some (chunk content pos.toNat size n)

/-- How many bytes are written, and the content then. -/
def writeAt (content : Bytes) (append : Bool) (pos : Int) (b : Bytes) : Outcome → Option (Nat × Bytes)
  | .fails => none
  | .gives n =>
    if pos < 0 then none
    else some (min n b.length, put content (if append then content.length else pos.toNat)
      (b.take (min n b.length)))

/-! ## Calls -/

/-- What a call returns; `readinto` fills the buffer. -/
inductive Value
  | int (n : Int)
  | bytes (b : Bytes)
  | filled (b : Bytes)
  deriving DecidableEq, Repr

/-- `_READ_CHUNK` -/
def readChunkSize : Nat :=
  64 * 1024

namespace State

def fileSize (s : State) (fails : Bool) : Option Int :=
  if fails then none else some s.content.length

/-- The position goes on by what was read. -/
def moved (s : State) (n : Nat) : State :=
  { s with pos := s.pos + n, posAtEof := if s.append then false else s.posAtEof }

def readChunk (s : State) (size : Nat) (o : Outcome) : Option (Bytes × State) :=
  (readAt s.content s.pos size o).map fun data => (data, s.moved data.length)

/-- The loop of `read(-1)`, with the outcomes of exactly the reads that it makes. -/
def readAll (s : State) : List Outcome → Option (Option Bytes × State)
  | [] => none
  | o :: os =>
    match s.readChunk readChunkSize o with
    | none => if os = [] then some (none, s) else none
    | some (data, s₁) =>
      if data = [] then (if os = [] then some (some [], s₁) else none)
      else (s₁.readAll os).map fun r => (r.1.map (data ++ ·), r.2)

/-- `None` of a call stands for an exception. -/
def seek (s : State) (pos whence : Int) (statFails : Bool) : Option Value × State :=
  let moved? : Option State :=
    if whence = 0 then some { s with pos := pos }
    else if whence = 1 then some { s with pos := s.pos + pos }
    else if whence = 2 then
      if s.append && s.posAtEof && decide (pos = 0) then some s
      else (s.fileSize statFails).map fun size => { s with pos := size + pos }
    else none
  match moved? with
  | none => (none, s)
  | some s₁ =>
    if s₁.pos < 0 then (none, s₁)
    else
      let s₂ := if s₁.append then { s₁ with posAtEof := decide (whence = 2) && decide (pos = 0) } else s₁
      (some (.int s₂.pos), s₂)

def read (s : State) (size : Int) (outs : List Outcome) : Option (Option Value × State) :=
  if s.readable = false then some (none, s)
  else if size = 0 then some (some (.bytes []), s)
  else if size < 0 then (s.readAll outs).map fun r => (r.1.map .bytes, r.2)
  else
    match outs with
    | [o] =>
      match s.readChunk size.toNat o with
      | none => some (none, s)
      | some (data, s₁) => some (some (.bytes data), s₁)
    | _ => none

/-- `readinto` a buffer of `n` bytes. -/
def readinto (s : State) (n : Nat) (o : Outcome) : Option Value × State :=
  if s.readable = false then (none, s)
  else if n = 0 then (some (.filled []), s)
  else
    match s.readChunk n o with
    | none => (none, s)
    | some (data, s₁) => (some (.filled data), s₁)

/-- An append write looks up the size, unless the position is known to be at the end. -/
def place (s : State) (statFails : Bool) : Option State :=
  if s.append && !s.posAtEof then (s.fileSize statFails).map fun size => { s with pos := size } else some s

def writeHere (s : State) (b : Bytes) (o : Outcome) : Option Value × State :=
  match writeAt s.content s.append s.pos b o with
  | none => (none, s)
  | some (n, content) =>
    (some (.int n), { s with content, pos := s.pos + n, posAtEof := if s.append then true else s.posAtEof })

def write (s : State) (b : Bytes) (statFails : Bool) (o : Outcome) : Option Value × State :=
  if s.writable = false then (none, s)
  else
    match s.place statFails with
    | none => (none, s)
    | some s₁ => s₁.writeHere b o

end State

inductive Action
  | tell
  /-- `other` is what the system answers to a `whence` of its own, such as `SEEK_DATA`, if it has
  it -/
  | seek (pos whence : Int) (statFails : Bool) (other : Option Nat)
  | read (size : Int) (outs : List Outcome)
  | readinto (n : Nat) (o : Outcome)
  | write (b : Bytes) (statFails : Bool) (o : Outcome)
  deriving DecidableEq, Repr

def State.call (s : State) : Action → Option (Option Value × State)
  | .tell => some (some (.int s.pos), s)
  | .seek pos whence statFails _ => some (s.seek pos whence statFails)
  | .read size outs => s.read size outs
  | .readinto n o => some (s.readinto n o)
  | .write b statFails o => some (s.write b statFails o)

def step (s : State) (a : Action) : Option State :=
  (s.call a).map Prod.snd

/-! ## An ordinary file -/

/-- An unbuffered regular file: the offset is kept by the system. -/
structure File where
  content : Bytes
  offset : Nat
  append : Bool
  readable : Bool
  writable : Bool
  deriving DecidableEq, Repr

namespace File

/-- Where a seek counts from. -/
def base (f : File) (whence : Int) : Int :=
  if whence = 0 then 0 else if whence = 1 then f.offset else f.content.length

/-- Where a seek leads, with the greatest offset. -/
def lseek (limit : Nat) (f : File) (pos whence : Int) (other : Option Nat) : Option Nat :=
  if whence = 0 ∨ whence = 1 ∨ whence = 2 then
    if 0 ≤ f.base whence + pos ∧ f.base whence + pos ≤ limit then some (f.base whence + pos).toNat else none
  else other

/-- The calls that raise without doing anything. -/
def refuses (limit : Nat) (f : File) : Action → Prop
  | .tell => False
  | .seek pos whence _ other => f.lseek limit pos whence other = none
  | .read _ _ | .readinto _ _ => f.readable = false
  | .write _ _ _ => f.writable = false

/-- What a call does otherwise. -/
def perform (limit : Nat) (f : File) : Action → Value × File
  | .tell => (.int f.offset, f)
  | .seek pos whence _ other =>
    let offset := (f.lseek limit pos whence other).getD f.offset
    (.int offset, { f with offset })
  | .read size outs =>
    let data :=
      if size = 0 then []
      else if size < 0 then f.content.drop f.offset
      else
        match outs with
        | [.gives n] => chunk f.content f.offset size.toNat n
        | _ => []
    (.bytes data, { f with offset := f.offset + data.length })
  | .readinto n o =>
    let data :=
      match o with
      | .gives k => chunk f.content f.offset n k
      | .fails => []
    (.filled data, { f with offset := f.offset + data.length })
  | .write b _ o =>
    -- with `O_APPEND` the offset is set to the end before each write that writes something
    let start := if f.append then f.content.length else f.offset
    let n : Nat :=
      match o with
      | .gives k => min k b.length
      | .fails => 0
    (.int n, { f with content := put f.content start (b.take n), offset := if n = 0 then f.offset else start + n })

end File

/-- An operation below the call has failed. -/
def Action.failed : Action → Prop
  | .tell => False
  | .seek _ whence statFails _ => whence = 2 ∧ statFails = true
  | .read _ outs => .fails ∈ outs
  | .readinto _ o => o = .fails
  | .write _ statFails o => statFails = true ∨ o = .fails

def Action.isWrite : Action → Bool
  | .write _ _ _ => true
  | _ => false

/-- The file raises and stays as it is (but that an append write may have moved to the end), or does
what is asked. -/
def Ordinary (limit : Nat) (f : File) (a : Action) (r : Option Value) (f' : File) : Prop :=
  (f.refuses limit a ∧ r = none ∧ f' = f) ∨
  (a.failed ∧ r = none ∧ (f' = f ∨ a.isWrite = true ∧ f.append = true ∧
    f' = { f with offset := f.content.length })) ∨
  (¬ f.refuses limit a ∧ r = some (f.perform limit a).1 ∧ f' = (f.perform limit a).2)

/-! ## The property -/

def State.file (s : State) : File where
  content := s.content
  offset := s.pos.toNat
  append := s.append
  readable := s.readable
  writable := s.writable

structure Good (s : State) : Prop where
  nonneg : 0 ≤ s.pos
  /-- the flag is set at the end of the file only -/
  eof : s.posAtEof = true → s.pos = s.content.length

/-- The call does what an ordinary file does. -/
def Refines (limit : Nat) (s : State) (a : Action) : Prop :=
  ∀ r s', s.call a = some (r, s') → Good s' ∧ Ordinary limit s.file a r s'.file ∧
    (r = none → s'.pos = s.pos ∨ a.isWrite = true ∧ s.append = true ∧ s'.pos = s'.content.length)

/-- No seek leads before the start or over the greatest offset, or has a `whence` of the system's
own, no read to the end fails after it has read something, and no append write that writes nothing
comes before the end. -/
def Tame (limit : Nat) (s : State) : Action → Prop
  | .seek pos whence statFails other =>
    (whence = 0 → 0 ≤ pos ∧ pos ≤ limit) ∧ (whence = 1 → 0 ≤ s.pos + pos ∧ s.pos + pos ≤ limit) ∧
      (whence = 2 → statFails = false ∨ s.posAtEof = true ∧ pos = 0 →
        0 ≤ s.content.length + pos ∧ s.content.length + pos ≤ limit) ∧
      (whence ≠ 0 → whence ≠ 1 → whence ≠ 2 → other = none)
  | .read size outs => s.readable = true → size < 0 → .fails ∉ outs.tail
  | .write b statFails o =>
    s.writable = true → s.append = true → statFails = false → ∀ n, o = .gives n → min n b.length = 0 →
      s.pos = s.content.length
  | _ => True

/-! ## The invariant -/

structure Inv (s : State) : Prop extends Good s where
  appends : s.posAtEof = true → s.append = true

variable {s s' : State}

theorem Inv.moved (h : Inv s) (n : Nat) : Inv (s.moved n) := by
  have hflag : (s.moved n).posAtEof ≠ true := by
    unfold State.moved
    dsimp only
    split
    · exact Bool.false_ne_true
    · rename_i happend
      exact fun hflag => happend (h.appends hflag)
  refine ⟨⟨?_, fun hf => absurd hf hflag⟩, fun hf => absurd hf hflag⟩
  have hnonneg := h.nonneg
  simp only [State.moved]
  omega

theorem Inv.opened (content : Bytes) (access : Access) (append lookedUp : Bool) :
    Inv (opened content access append lookedUp) := by
  cases append <;> cases lookedUp <;>
    exact ⟨⟨by simp [ProactorFile.opened], by simp [ProactorFile.opened]⟩,
      by simp [ProactorFile.opened]⟩

theorem moved_moved (s : State) (m n : Nat) : (s.moved m).moved n = s.moved (m + n) := by
  cases happend : s.append <;> simp [State.moved, happend, Int.add_assoc]

theorem file_moved (h : 0 ≤ s.pos) (n : Nat) :
    (s.moved n).file = { s.file with offset := s.file.offset + n } := by
  have hoffset : (s.pos + n).toNat = s.pos.toNat + n := by omega
  simp only [State.file, State.moved, hoffset]

theorem readChunk_gives (h : 0 ≤ s.pos) (size n : Nat) :
    s.readChunk size (.gives n) =
      some (chunk s.content s.pos.toNat size n, s.moved (chunk s.content s.pos.toNat size n).length) := by
  simp [State.readChunk, readAt, Int.not_lt.2 h]

/-! ## Reading to the end -/

theorem drop_of_chunk_nil {content : Bytes} {offset size n : Nat}
    (h : chunk content offset size n = []) (hsize : 0 < size) :
    content.drop offset = [] := by
  simp only [chunk, take_eq_nil_iff] at h
  rcases h with hn | hsize' | hdrop
  · omega
  · omega
  · exact hdrop

theorem chunk_append (content : Bytes) (offset size n : Nat) :
    chunk content offset size n ++ content.drop (offset + (chunk content offset size n).length) =
      content.drop offset := by
  have hprefix : chunk content offset size n <+: content.drop offset :=
    (List.take_prefix ..).trans (List.take_prefix ..)
  rcases hprefix with ⟨rest, hrest⟩
  rw [← drop_drop, ← hrest, drop_left]

theorem readAll_spec {outs : List Outcome} {r : Option Bytes} (h : 0 ≤ s.pos)
    (hr : s.readAll outs = some (r, s')) :
    (.fails ∉ outs ∧ r = some (s.content.drop s.pos.toNat) ∧
      s' = s.moved (s.content.drop s.pos.toNat).length) ∨
    (.fails ∈ outs ∧ r = none ∧ s' = s ∧ .fails ∉ outs.tail) ∨
    (.fails ∈ outs.tail ∧ r = none ∧ s.pos < s'.pos) := by
  induction outs generalizing s r with
  | nil => cases hr
  | cons o os ih =>
    cases o with
    | fails =>
      simp only [State.readAll, State.readChunk, readAt, Option.map_none] at hr
      split at hr
      · rename_i hos
        cases hr
        subst hos
        exact .inr (.inl ⟨mem_cons_self, rfl, rfl, not_mem_nil⟩)
      · cases hr
    | gives n =>
      have hdata := chunk_append s.content s.pos.toNat readChunkSize n
      simp only [State.readAll, readChunk_gives h] at hr
      generalize hchunk : chunk s.content s.pos.toNat readChunkSize n = data at hr hdata
      split at hr
      · rename_i hnil
        split at hr
        · rename_i hos
          cases hr
          subst hos hnil
          have hend := drop_of_chunk_nil hchunk (by decide)
          exact .inl ⟨by simp, by rw [hend], by rw [hend]⟩
        · cases hr
      · rename_i hne
        rcases Option.map_eq_some_iff.1 hr with ⟨⟨r₁, s₁⟩, hrest, heq⟩
        cases heq
        have hpos : 0 ≤ (s.moved data.length).pos := by
          simp only [State.moved]
          omega
        have hmore : s.pos < (s.moved data.length).pos := by
          have hlen := length_pos_iff.2 hne
          simp only [State.moved]
          omega
        have hoffset : (s.moved data.length).pos.toNat = s.pos.toNat + data.length := by
          simp only [State.moved]
          omega
        -- the rest of the loop starts behind the chunk
        rcases ih hpos hrest with ⟨hnot, hr₁, hs₁⟩ | ⟨hmem, hr₁, hs₁, _⟩ | ⟨hmem, hr₁, hlt⟩
        · left
          rw [hoffset] at hr₁ hs₁
          refine ⟨by simpa using hnot, ?_, ?_⟩
          · rw [hr₁, ← hdata]
            rfl
          · rw [hs₁, moved_moved, ← hdata, length_append]
            rfl
        · right; right
          refine ⟨hmem, by rw [hr₁]; rfl, ?_⟩
          rw [hs₁]
          exact hmore
        · right; right
          exact ⟨mem_of_mem_tail hmem, by rw [hr₁]; rfl, hmore.trans hlt⟩

theorem readAll_ends (h : 0 ≤ s.pos) (outcomes : Nat → Outcome) :
    ∃ n, (s.readAll ((List.range n).map outcomes)).isSome = true := by
  generalize hleft : s.content.length - s.pos.toNat = left
  induction left using Nat.strongRecOn generalizing s outcomes with
  | ind left ih =>
    cases ho : outcomes 0 with
    | fails => exact ⟨1, by simp [State.readAll, State.readChunk, readAt, ho]⟩
    | gives n =>
      by_cases hchunk : chunk s.content s.pos.toNat readChunkSize n = []
      · exact ⟨1, by simp [State.readAll, readChunk_gives h, ho, hchunk]⟩
      · have hlen := length_pos_iff.2 hchunk
        have hle : (chunk s.content s.pos.toNat readChunkSize n).length ≤
            s.content.length - s.pos.toNat := by
          have happend := congrArg List.length (chunk_append s.content s.pos.toNat readChunkSize n)
          simp only [length_append, length_drop] at happend
          omega
        have hpos : 0 ≤ (s.moved (chunk s.content s.pos.toNat readChunkSize n).length).pos := by
          simp only [State.moved]
          omega
        rcases ih _ (by simp only [State.moved]; omega) hpos (fun i => outcomes (i + 1)) rfl with ⟨m, hm⟩
        refine ⟨m + 1, ?_⟩
        have hrange : (List.range (m + 1)).map outcomes = .gives n :: (List.range m).map fun i =>
            outcomes (i + 1) := by
          rw [range_succ_eq_map, map_cons, ho, map_map]
          rfl
        rw [hrange]
        simp only [State.readAll, readChunk_gives h, if_neg hchunk, Option.isSome_map]
        exact hm

/-! ## Calls -/

section Calls

variable {limit : Nat}

/-- What a call that meets the condition leaves. -/
def Met (limit : Nat) (s : State) (a : Action) (r : Option Value) (s' : State) : Prop :=
  Inv s' ∧ Ordinary limit s.file a r s'.file ∧
    (r = none → s'.pos = s.pos ∨ a.isWrite = true ∧ s.append = true ∧ s'.pos = s'.content.length)

theorem met_none {a : Action} (h : Inv s) (hr : s.file.refuses limit a ∨ a.failed) :
    Met limit s a none s := by
  refine ⟨h, ?_, fun _ => .inl rfl⟩
  rcases hr with hrefuses | hfailed
  · exact .inl ⟨hrefuses, rfl, rfl⟩
  · exact .inr (.inl ⟨hfailed, rfl, .inl rfl⟩)

theorem met_some {a : Action} {v : Value} (h : Inv s') (hr : ¬ s.file.refuses limit a)
    (hv : (s.file.perform limit a).1 = v) (hf : (s.file.perform limit a).2 = s'.file) :
      Met limit s a (some v) s' :=
  ⟨h, .inr (.inr ⟨hr, by rw [hv], hf.symm⟩), nofun⟩

section Seek

variable {pos whence : Int} {statFails : Bool} {other : Option Nat}

theorem lseek_known {f : File} (hwhence : whence = 0 ∨ whence = 1 ∨ whence = 2) :
    f.lseek limit pos whence other =
      if 0 ≤ f.base whence + pos ∧ f.base whence + pos ≤ limit then
        some (f.base whence + pos).toNat else none :=
  if_pos hwhence

theorem Inv.land (h : Inv s) {target : Int} (htarget : s.file.base whence + pos = target)
    (hwithin : 0 ≤ target ∧ target ≤ limit) (hwhence : whence = 0 ∨ whence = 1 ∨ whence = 2) :
    Met limit s (.seek pos whence statFails other) (some (.int target))
      (if s.append then { s with pos := target, posAtEof := decide (whence = 2) && decide (pos = 0) }
        else { s with pos := target }) := by
  have hend : whence = 2 → pos = 0 → target = s.content.length := by
    rintro rfl rfl
    rw [← htarget]
    exact Int.add_zero _
  have hseek : s.file.lseek limit pos whence other = some target.toNat := by
    rw [lseek_known hwhence, htarget, if_pos hwithin]
  have hrefuses : ¬ s.file.refuses limit (.seek pos whence statFails other) := by
    simp [File.refuses, hseek]
  have hvalue : (s.file.perform limit (.seek pos whence statFails other)).1 = .int target := by
    simp only [File.perform, hseek, Option.getD_some, Int.toNat_of_nonneg hwithin.1]
  split
  · rename_i happend
    refine met_some ⟨⟨hwithin.1, fun hflag => ?_⟩, fun _ => happend⟩ hrefuses hvalue ?_
    · simp only [Bool.and_eq_true, decide_eq_true_eq] at hflag
      exact hend hflag.1 hflag.2
    · simp only [File.perform, hseek]
      rfl
  · rename_i happend
    have hflag : s.posAtEof ≠ true := fun hflag => happend (h.appends hflag)
    refine met_some ⟨⟨hwithin.1, fun hf => absurd hf hflag⟩, fun hf => absurd hf hflag⟩ hrefuses hvalue ?_
    simp only [File.perform, hseek]
    rfl

theorem seek_cases (h : Inv s) (pos whence : Int) (statFails : Bool) :
    (s.seek pos whence statFails = (none, s) ∧
      ((whence ≠ 0 ∧ whence ≠ 1 ∧ whence ≠ 2) ∨ whence = 2 ∧ statFails = true)) ∨
    ((whence = 0 ∨ whence = 1 ∨ whence = 2 ∧ (statFails = false ∨ s.posAtEof = true ∧ pos = 0)) ∧
      s.seek pos whence statFails =
        if s.file.base whence + pos < 0 then (none, { s with pos := s.file.base whence + pos })
        else (some (.int (s.file.base whence + pos)),
          if s.append then
            { s with pos := s.file.base whence + pos, posAtEof := decide (whence = 2) && decide (pos = 0) }
          else { s with pos := s.file.base whence + pos })) := by
  have hoffset : (s.pos.toNat : Int) = s.pos := Int.toNat_of_nonneg h.nonneg
  unfold State.seek
  by_cases h₀ : whence = 0
  · right
    subst h₀
    refine ⟨.inl rfl, ?_⟩
    cases happend : s.append <;> simp [File.base]
  · by_cases h₁ : whence = 1
    · right
      subst h₁
      refine ⟨.inr (.inl rfl), ?_⟩
      cases happend : s.append <;> simp [File.base, State.file, happend, hoffset]
    · by_cases h₂ : whence = 2
      · subst h₂
        by_cases hskip : (s.append && s.posAtEof && decide (pos = 0)) = true
        · simp only [Bool.and_eq_true, decide_eq_true_eq] at hskip
          rcases hskip with ⟨⟨happend, hflag⟩, rfl⟩
          right
          have hend := h.eof hflag
          have hnonneg : ¬ (s.content.length : Int) < 0 := by omega
          refine ⟨.inr (.inr ⟨rfl, .inr ⟨hflag, rfl⟩⟩), ?_⟩
          simp [File.base, State.file, happend, hflag, hend, hnonneg]
        · simp only [h₀, h₁, if_false, if_true, hskip, State.fileSize]
          cases hfails : statFails with
          | true => exact .inl ⟨rfl, .inr ⟨trivial, rfl⟩⟩
          | false =>
            right
            refine ⟨.inr (.inr ⟨trivial, .inl rfl⟩), ?_⟩
            cases happend : s.append <;> simp [File.base, State.file]
      · left
        simp only [h₀, h₁, h₂, if_false]
        exact ⟨trivial, .inl ⟨h₀, h₁, h₂⟩⟩

end Seek

theorem put_end (content b : Bytes) : put content content.length b = content ++ b := by
  unfold put
  split
  · rename_i hb
    rw [hb, append_nil]
  · simp

theorem place_spec {s₁ : State} {statFails : Bool} (h : Inv s) (hp : s.place statFails = some s₁) :
    s₁ = if s.append then { s with pos := s.content.length } else s := by
  unfold State.place at hp
  split at hp
  · rename_i hlooks
    simp only [Bool.and_eq_true] at hlooks
    rw [if_pos hlooks.1]
    cases statFails with
    | true => cases hp
    | false => exact (Option.some.inj hp).symm
  · rename_i hlooks
    rw [← Option.some.inj hp]
    split
    · rename_i happend
      have hflag : s.posAtEof = true := by
        simpa [happend] using hlooks
      rw [← h.eof hflag]
    · rfl

theorem place_fails {statFails : Bool} (hp : s.place statFails = none) : statFails = true := by
  unfold State.place State.fileSize at hp
  split at hp
  · cases statFails with
    | true => rfl
    | false => cases hp
  · cases hp

theorem Inv.write (h : Inv s) (b : Bytes) (statFails : Bool) (o : Outcome)
    (ht : Tame limit s (.write b statFails o)) :
    Met limit s (.write b statFails o) (s.write b statFails o).1 (s.write b statFails o).2 := by
  unfold State.write
  split
  · rename_i hwritable
    exact met_none h (.inl hwritable)
  · rename_i hwritable
    cases hplace : s.place statFails with
    | none => exact met_none h (.inr (.inl (place_fails hplace)))
    | some s₁ =>
      have hs₁ := place_spec h hplace
      have hrefuses : ¬ s.file.refuses limit (.write b statFails o) := hwritable
      unfold State.writeHere
      by_cases happend : s.append = true
      · rw [if_pos happend] at hs₁
        subst hs₁
        have hnonneg : (0 : Int) ≤ s.content.length := Int.natCast_nonneg _
        cases o with
        | fails =>
          -- the position has moved to the end
          have hinv : Inv { s with pos := (s.content.length : Int) } :=
            ⟨⟨hnonneg, fun _ => rfl⟩, fun _ => happend⟩
          exact ⟨hinv, .inr (.inl ⟨.inr rfl, rfl, .inr ⟨rfl, happend, rfl⟩⟩),
            fun _ => .inr ⟨rfl, happend, rfl⟩⟩
        | gives n =>
          simp only [writeAt, if_neg (Int.not_lt.2 hnonneg), if_pos happend, put_end]
          refine met_some ⟨⟨?_, fun _ => ?_⟩, fun _ => happend⟩ hrefuses rfl ?_
          · dsimp only
            omega
          · simp
          · have hfile : s.file.append = true := happend
            have hoffset : ((s.content.length : Int) + (min n b.length : Nat)).toNat =
                s.content.length + min n b.length := by
              omega
            simp only [File.perform, if_pos hfile]
            simp only [State.file, put_end, hoffset, ite_eq_right_iff, File.mk.injEq, and_true, true_and]
            -- nothing is written, and the file was at its end
            intro hzero
            have hpos : s.pos = s.content.length := by
              cases hstat : statFails with
              | false => exact ht (Bool.not_eq_false _ ▸ hwritable) happend hstat n rfl hzero
              | true =>
                refine h.eof ?_
                by_contra hflag
                simp [State.place, State.fileSize, happend, hflag, hstat] at hplace
            omega
      · rw [if_neg happend] at hs₁
        subst hs₁
        have hflag : s₁.posAtEof ≠ true := fun hf => happend (h.appends hf)
        have hnonneg := h.nonneg
        cases o with
        | fails => exact met_none h (.inr (.inr rfl))
        | gives n =>
          simp only [writeAt, if_neg (Int.not_lt.2 hnonneg), if_neg happend]
          refine met_some ⟨⟨?_, fun hf => absurd hf hflag⟩, fun hf => absurd hf hflag⟩ hrefuses rfl ?_
          · dsimp only
            omega
          · have hoffset : (s₁.pos + (min n b.length : Nat)).toNat =
                s₁.pos.toNat + min n b.length := by omega
            have hfile : ¬ s₁.file.append = true := happend
            simp only [File.perform, if_neg hfile]
            simp only [State.file, hoffset, ite_eq_right_iff, File.mk.injEq, and_true, true_and]
            omega

theorem Inv.chunk (h : Inv s) {a : Action} (size : Nat) (o : Outcome) (wrap : Bytes → Value)
    (hfails : o = .fails → a.failed)
    (hrefuses : ¬ s.file.refuses limit a)
    (hperform : ∀ n, o = .gives n → s.file.perform limit a =
      (wrap (ProactorFile.chunk s.content s.pos.toNat size n),
      { s.file with offset := s.file.offset + (ProactorFile.chunk s.content s.pos.toNat size n).length })) :
    ∃ r s', (match s.readChunk size o with
      | none => (none, s)
      | some (data, s₁) => (some (wrap data), s₁)) = (r, s') ∧ Met limit s a r s' := by
  cases o with
  | fails => exact ⟨none, s, rfl, met_none h (.inr (hfails rfl))⟩
  | gives n =>
    rw [readChunk_gives h.nonneg]
    refine ⟨_, _, rfl, met_some (h.moved _) hrefuses ?_ ?_⟩
    · rw [hperform n rfl]
    · rw [hperform n rfl, file_moved h.nonneg]

theorem call_met {a : Action} {r : Option Value} (h : Inv s) (ht : Tame limit s a)
    (hr : s.call a = some (r, s')) :
    Met limit s a r s' := by
  have hoffset : (s.pos.toNat : Int) = s.pos := Int.toNat_of_nonneg h.nonneg
  cases a with
  | tell =>
    cases hr
    refine met_some h not_false ?_ rfl
    simp only [File.perform, State.file, hoffset]
  | seek pos whence statFails other =>
    have hr : s.seek pos whence statFails = (r, s') := Option.some.inj hr
    rcases ht with ⟨ht₀, ht₁, ht₂, hother⟩
    rcases seek_cases h pos whence statFails with ⟨heq, hwhy⟩ | ⟨hwhence, heq⟩
    · cases hr.symm.trans heq
      refine met_none h ?_
      rcases hwhy with ⟨h₀, h₁, h₂⟩ | hstat
      · refine .inl ?_
        simp only [File.refuses, File.lseek, h₀, h₁, h₂, or_self, if_false, hother h₀ h₁ h₂]
      · exact .inr hstat
    · have hwithin : 0 ≤ s.file.base whence + pos ∧ s.file.base whence + pos ≤ limit := by
        rcases hwhence with rfl | rfl | ⟨rfl, hstat⟩
        · simpa [File.base] using ht₀ rfl
        · simpa [File.base, State.file, hoffset] using ht₁ rfl
        · have hbase : s.file.base 2 = s.content.length := rfl
          rw [hbase]
          exact ht₂ rfl hstat
      rw [if_neg (Int.not_lt.2 hwithin.1)] at heq
      cases hr.symm.trans heq
      exact h.land rfl hwithin (hwhence.imp_right (Or.imp_right And.left))
  | read size outs =>
    simp only [State.call, State.read] at hr
    split at hr
    · rename_i hreadable
      cases hr
      exact met_none h (.inl hreadable)
    · rename_i hreadable
      have hrefuses : ¬ s.file.refuses limit (.read size outs) := hreadable
      split at hr
      · rename_i hzero
        cases hr
        refine met_some h hrefuses ?_ ?_
        · simp [File.perform, hzero]
        · simp [File.perform, hzero]
      · rename_i hzero
        split at hr
        · rename_i hneg
          have htail : .fails ∉ outs.tail := ht (Bool.not_eq_false _ ▸ hreadable) hneg
          rcases Option.map_eq_some_iff.1 hr with ⟨⟨b, s₁⟩, hall, heq⟩
          cases heq
          rcases readAll_spec h.nonneg hall with ⟨_, hb, hs₁⟩ | ⟨hmem, hb, hs₁, _⟩ | ⟨hmem, _, _⟩
          · subst hb hs₁
            refine met_some (h.moved _) hrefuses ?_ ?_
            · simp [File.perform, hzero, hneg, State.file]
            · rw [file_moved h.nonneg]
              simp [File.perform, hzero, hneg, State.file]
          · subst hb hs₁
            exact met_none h (.inr hmem)
          · exact absurd hmem htail
        · rename_i hneg
          split at hr
          · rename_i o
            rcases h.chunk (a := .read size [o]) size.toNat o .bytes
              (fun ho => by rw [ho]; exact mem_cons_self) hrefuses
              (fun n ho => by simp [File.perform, hzero, hneg, ho, State.file]) with ⟨r₁, s₁, heq, hmet⟩
            cases hchunk : s.readChunk size.toNat o with
            | none =>
              rw [hchunk] at hr heq
              cases hr
              cases heq
              exact hmet
            | some x =>
              rw [hchunk] at hr heq
              cases hr
              cases heq
              exact hmet
          · cases hr
  | readinto n o =>
    have hr : s.readinto n o = (r, s') := Option.some.inj hr
    unfold State.readinto at hr
    split at hr
    · rename_i hreadable
      cases hr
      exact met_none h (.inl hreadable)
    · rename_i hreadable
      have hrefuses : ¬ s.file.refuses limit (.readinto n o) := hreadable
      split at hr
      · rename_i hzero
        cases hr
        subst hzero
        have hempty : ∀ k, chunk s.content s.pos.toNat 0 k = [] := fun k => by simp [chunk]
        refine met_some h hrefuses ?_ ?_
        · cases o <;> simp [File.perform, State.file, hempty]
        · cases o <;> simp [File.perform, State.file, hempty]
      · rcases h.chunk (a := .readinto n o) n o .filled id hrefuses
          (fun k ho => by simp [File.perform, ho, State.file]) with
          ⟨r₁, s₁, heq, hmet⟩
        cases hr.symm.trans heq
        exact hmet
  | write b statFails o =>
    have hr : s.write b statFails o = (r, s') := Option.some.inj hr
    have hmet := h.write b statFails o ht
    rwa [hr] at hmet

/-- A seek that does not meet the condition succeeds where the ordinary file refuses it, or leaves a
negative position. -/
theorem seek_breaks {pos whence : Int} {statFails : Bool} {other : Option Nat} (h : Inv s)
    (ht : ¬ Tame limit s (.seek pos whence statFails other)) :
    ¬ Refines limit s (.seek pos whence statFails other) := by
  intro hrefines
  rcases hrefines (s.seek pos whence statFails).1 (s.seek pos whence statFails).2 rfl with
    ⟨hgood, hordinary, -⟩
  have hoffset : (s.pos.toNat : Int) = s.pos := Int.toNat_of_nonneg h.nonneg
  rcases seek_cases h pos whence statFails with ⟨heq, hwhy⟩ | ⟨hwhence, heq⟩
  · rw [heq] at hordinary
    rcases hwhy with ⟨h₀, h₁, h₂⟩ | ⟨h₂, hstat⟩
    · -- the system knows the `whence`
      have hrefuses : ¬ s.file.refuses limit (.seek pos whence statFails other) := by
        simpa [Tame, File.refuses, File.lseek, h₀, h₁, h₂] using ht
      rcases hordinary with ⟨hrefused, -⟩ | ⟨⟨h₂', -⟩, -⟩ | ⟨-, hnone, -⟩
      · exact hrefuses hrefused
      · exact h₂ h₂'
      · cases hnone
    · have hflag : ¬ (s.posAtEof = true ∧ pos = 0) := by
        rintro ⟨hflag, rfl⟩
        have hseek : (s.seek 0 2 true).1 ≠ none := by
          have hnonneg : ¬ (s.pos < 0) := Int.not_lt.2 h.nonneg
          simp [State.seek, h.appends hflag, hflag, hnonneg]
        subst h₂ hstat
        exact hseek (by rw [heq])
      exact ht ⟨by omega, by omega, fun _ hor => absurd hor (by simp [hstat, hflag]), by omega⟩
  · have hout : ¬ (0 ≤ s.file.base whence + pos ∧ s.file.base whence + pos ≤ limit) := by
      intro hwithin
      refine ht ⟨?_, ?_, ?_, by omega⟩
      · rintro rfl
        simpa [File.base] using hwithin
      · rintro rfl
        simpa [File.base, State.file, hoffset] using hwithin
      · rintro rfl -
        exact hwithin
    by_cases hneg : s.file.base whence + pos < 0
    · rw [if_pos hneg] at heq
      rw [heq] at hgood
      exact absurd hgood.nonneg (Int.not_le.2 hneg)
    · rw [if_neg hneg] at heq
      rw [heq] at hordinary
      have hrefuses : s.file.refuses limit (.seek pos whence statFails other) := by
        simp only [File.refuses]
        rw [lseek_known (hwhence.imp_right (Or.imp_right And.left)), if_neg hout]
      rcases hordinary with ⟨-, hnone, -⟩ | ⟨-, hnone, -⟩ | ⟨hnot, -⟩
      · cases hnone
      · cases hnone
      · exact hnot hrefuses

/-- An append write of nothing moves the position to the end, where the ordinary file stays. -/
theorem write_breaks {b : Bytes} {statFails : Bool} {o : Outcome} (h : Inv s)
    (ht : ¬ Tame limit s (.write b statFails o)) : ¬ Refines limit s (.write b statFails o) := by
  intro hrefines
  simp only [Tame, not_forall] at ht
  rcases ht with ⟨hwritable, happend, rfl, n, rfl, hzero, hpos⟩
  have hplace : s.place false = some { s with pos := (s.content.length : Int) } := by
    cases hp : s.place false with
    | none => exact absurd (place_fails hp) Bool.false_ne_true
    | some s₁ => rw [place_spec h hp, if_pos happend]
  have hnonneg : ¬ (s.content.length : Int) < 0 := by omega
  have hcall : s.write b false (.gives n) =
      (some (.int 0), { s with pos := (s.content.length : Int), posAtEof := true }) := by
    simp [State.write, hwritable, hplace, State.writeHere, writeAt, hnonneg, happend, hzero, put]
  rcases hrefines _ _ (congrArg some hcall) with ⟨-, hordinary, -⟩
  rcases hordinary with ⟨-, hnone, -⟩ | ⟨-, hnone, -⟩ | ⟨-, -, hfile⟩
  · cases hnone
  · cases hnone
  · have hoffset := congrArg File.offset hfile
    simp only [File.perform, hzero, if_true, State.file, Int.toNat_natCast] at hoffset
    have hnonneg := h.nonneg
    omega

theorem call_breaks {a : Action} {r : Option Value} (h : Inv s) (ht : ¬ Tame limit s a)
    (hr : s.call a = some (r, s')) :
    ¬ Refines limit s a := by
  cases a with
  | seek pos whence statFails other => exact seek_breaks h ht
  | write b statFails o => exact write_breaks h ht
  | read size outs =>
    intro hrefines
    rcases hrefines r s' hr with ⟨-, -, hkept⟩
    simp only [Tame, not_forall] at ht
    rcases ht with ⟨hreadable, hneg, hmem⟩
    have hopen : ¬ s.readable = false := by simp [hreadable]
    have hzero : ¬ size = 0 := by omega
    simp only [State.call, State.read, if_neg hopen, if_neg hzero, if_pos hneg] at hr
    rcases Option.map_eq_some_iff.1 hr with ⟨⟨b, s₁⟩, hall, heq⟩
    cases heq
    rcases readAll_spec h.nonneg hall with ⟨hnot, _⟩ | ⟨_, _, _, hnot⟩ | ⟨_, hb, hlt⟩
    · exact hmem fun hin => hnot (mem_of_mem_tail hin)
    · exact hmem hnot
    · subst hb
      rcases hkept rfl with heq | ⟨hwrite, _⟩
      · exact absurd heq (Int.ne_of_gt hlt)
      · cases hwrite
  | _ => exact absurd trivial ht

end Calls

/-- A run in which each call does what an ordinary file does is one whose calls meet the condition;
and every read to the end ends. -/
theorem positioned_file (limit : Nat) (content : Bytes) (access : Access)
    (append lookedUp : Bool) (run : List Action) :
    (Along step (Refines limit) (opened content access append lookedUp) run ↔
      Along step (Tame limit) (opened content access append lookedUp) run) ∧
    ∀ s : State, 0 ≤ s.pos → ∀ outcomes : Nat → Outcome, ∃ n,
    (s.readAll ((List.range n).map outcomes)).isSome = true := by
  have hcall : ∀ {s : State} {a : Action} {s' : State}, step s a = some s' →
      ∃ r, s.call a = some (r, s') := by
    intro s a s' hs
    rcases Option.map_eq_some_iff.1 hs with ⟨⟨r, s₁⟩, hr, heq⟩
    cases heq
    exact ⟨r, hr⟩
  refine ⟨⟨fun hrefines => ?_, fun htame => ?_⟩, fun s hs outcomes => readAll_ends hs outcomes⟩
  · refine along_of_possible (I := Inv) (fun s a s' hI hC hs => ?_)
      (Inv.opened content access append lookedUp) hrefines
    rcases hcall hs with ⟨r, hr⟩
    have htame : Tame limit s a := by
      by_contra hnot
      exact call_breaks hI hnot hr hC
    exact ⟨htame, (call_met hI htame hr).1⟩
  · refine along_of_possible (I := Inv) (fun s a s' hI hC hs => ?_)
      (Inv.opened content access append lookedUp) htame
    rcases hcall hs with ⟨r, hr⟩
    refine ⟨fun r₁ s₁ hr₁ => ?_, (call_met hI hC hr).1⟩
    rcases call_met hI hC hr₁ with ⟨hinv, hordinary, hkept⟩
    exact ⟨hinv.toGood, hordinary, hkept⟩

/-- Reading a file of three bytes to its end, two bytes at a time, ends. -/
theorem positioned_file_three :
    0 ≤ (opened [1, 2, 3] .rdonly false false).pos ∧
      ∃ n, ((opened [1, 2, 3] .rdonly false false).readAll
        ((List.range n).map fun _ => .gives 2)).isSome = true :=
  ⟨by decide, (positioned_file (2 ^ 63 - 1) [1, 2, 3] .rdonly false false []).2 _ (by decide) fun _ => .gives 2⟩

/-- A seek to -1 raises, and leaves the position there. -/
theorem seek_before_start :
    ¬ Along step (Refines (2 ^ 63 - 1)) (opened [1, 2, 3] .rdonly false false)
      [.seek (-1) 0 false none] := by
  rintro ⟨hrefines, -⟩
  have hgood := (hrefines none { opened [1, 2, 3] .rdonly false false with pos := -1 } (by decide)).1
  exact absurd hgood.nonneg (by decide)

end Pytealet.Io.ProactorFile
