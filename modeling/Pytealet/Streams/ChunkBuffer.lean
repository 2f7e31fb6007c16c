import Mathlib.Data.List.Basic
import Mathlib.Algebra.Order.Group.Unbundled.Int
import Pytealet.Lib.Transition

/-!
# ChunkBuffer — the read buffer of a stream, and the calls that read from it

`ReaderCore` and `SSLStream` each have a byte buffer with an offset, and the methods `read`,
`readinto`, `readexactly` and `readline` with the same bodies; they differ in `_append_next_chunk`.
Here the calls are given what each `_append_next_chunk` comes to, one input for each, from inputs of
any kind.  A call that the inputs do not suffice for is still parked in the last of them.

One tealet reads at a time.
-/

namespace Pytealet.Streams

open Lib.Transition List Bool

/-- What a call of `_append_next_chunk` comes to: a chunk is appended, the end is noted, or it
raises. -/
inductive Appended (ε : Type*)
  | grew (chunk : List UInt8)
  | ended
  | raised (e : ε) (eof : Bool)
  deriving DecidableEq, Repr

/-- The bytes that are put into the buffer. -/
def Appended.chunk {ε : Type*} : Appended ε → List UInt8
  | .grew chunk => chunk
  | _ => []

/-- `_buffer`, `_buffer_pos`, and the flag `_eof` (`_tls_eof`). -/
structure ChunkBuffer where
  buffer : List UInt8 := []
  bufferPos : Nat := 0
  eof : Bool := false
  bufferPos_le : bufferPos ≤ buffer.length := by simp
  deriving DecidableEq, Repr

inductive Exn (ε : Type*)
  | valueError
  /-- `IncompleteReadError` -/
  | incompleteRead (got : List UInt8) (expected : Nat)
  /-- `LimitOverrunError` -/
  | limitOverrun (consumed : Nat)
  | inner (e : ε)
  deriving DecidableEq, Repr

inductive Outcome (ε α : Type*)
  | returns (a : α)
  | raises (e : Exn ε)
  | parked
  deriving DecidableEq, Repr

/-- What a call returns: the bytes, or how many it has put into the view, and the view. -/
inductive Reply
  | bytes (payload : List UInt8)
  | filled (total : Nat) (view : List UInt8)
  deriving DecidableEq, Repr

/-- The bytes that a call hands over, with those of an `IncompleteReadError`. -/
def Outcome.bytes {ε : Type*} : Outcome ε Reply → List UInt8
  | .returns (.bytes payload) => payload
  | .returns (.filled total view) => view.take total
  | .raises (.incompleteRead got _) => got
  | _ => []

inductive Call
  | read (n : Int)
  | readinto (view : List UInt8)
  | readexactly (n : Int)
  | readline
  deriving DecidableEq, Repr

namespace ChunkBuffer

/-! ## The buffer -/

/-- The bytes that have not been returned. -/
def unread (s : ChunkBuffer) : List UInt8 :=
  s.buffer.drop s.bufferPos

/-- `_buffer_available` -/
def available (s : ChunkBuffer) : Nat :=
  s.buffer.length - s.bufferPos

/-- `_compact_buffer` -/
def compact (s : ChunkBuffer) : ChunkBuffer :=
  if s.bufferPos = 0 then s else { buffer := s.buffer.drop s.bufferPos, eof := s.eof }

def compactPrefix : Nat := 4096

/-- `_maybe_compact_buffer` -/
def maybeCompact (s : ChunkBuffer) : ChunkBuffer :=
  if compactPrefix ≤ s.bufferPos ∧ s.buffer.length / 2 ≤ s.bufferPos then s.compact else s

/-- `_buffer_pos += count` -/
def advance (s : ChunkBuffer) (count : Nat) (h : count ≤ s.available) : ChunkBuffer :=
  { s with
    bufferPos := s.bufferPos + count
    bufferPos_le := by
      have hle := s.bufferPos_le
      unfold available at h
      omega }

def takeBytes (s : ChunkBuffer) (n : Nat) : List UInt8 × ChunkBuffer :=
  let count := min n s.available
  if count = 0 then ([], s)
  else ((s.buffer.drop s.bufferPos).take count, (s.advance count (Nat.min_le_right n _)).maybeCompact)

/-- `_take_into`, with the view it writes to -/
def takeInto (s : ChunkBuffer) (view : List UInt8) (offset n : Nat) : Nat × List UInt8 × ChunkBuffer :=
  let count := min n s.available
  if count = 0 then (0, view, s)
  else
    (count, view.take offset ++ (s.buffer.drop s.bufferPos).take count ++ view.drop (offset + count),
      (s.advance count (Nat.min_le_right n _)).maybeCompact)

/-- All that is left is taken, and the buffer cleared. -/
def takeAll (s : ChunkBuffer) : List UInt8 × ChunkBuffer :=
  (s.buffer.drop s.bufferPos, { eof := s.eof })

/-- `_append_next_chunk` -/
def append {ε : Type*} (s : ChunkBuffer) : Appended ε → Except ε Bool × ChunkBuffer
  | .grew chunk =>
    (.ok true, { s with
      buffer := s.buffer ++ chunk
      bufferPos_le := Nat.le_trans s.bufferPos_le (by rw [length_append]; exact Nat.le_add_right _ _) })
  | .ended => (.ok false, { s with eof := true })
  | .raised e eof => (.error e, { s with eof := s.eof || eof })

/-! ## The calls -/

section Calls

variable {ε ι : Type*} (f : ι → Appended ε)

/-- `while go: if not self._append_next_chunk(): break` -/
def appendWhile (go : ChunkBuffer → Bool) : ChunkBuffer → List ι → Outcome ε Unit × ChunkBuffer × List ι
  | s, [] => if go s then (.parked, s, []) else (.returns (), s, [])
  | s, i :: inputs =>
    if go s then
      match s.append (f i) with
      | (.ok true, s') => appendWhile go s' inputs
      | (.ok false, s') => (.returns (), s', inputs)
      | (.error e, s') => (.raises (.inner e), s', inputs)
    else (.returns (), s, i :: inputs)

def fillBuffer (minBytes : Nat) (s : ChunkBuffer) (inputs : List ι) :
    Outcome ε Unit × ChunkBuffer × List ι :=
  appendWhile f (fun s => decide (s.available < minBytes) && !s.eof) s inputs

/-- A call that needs no more inputs. -/
def leave {α : Type*} (r : Outcome ε α × ChunkBuffer) (inputs : List ι) :
    Outcome ε α × ChunkBuffer × List ι :=
  (r.1, r.2, inputs)

/-- The rest of a call, where it has not raised and is not parked. -/
def andThen {α β : Type*} (r : Outcome ε α × ChunkBuffer × List ι)
    (k : ChunkBuffer → Outcome ε β × ChunkBuffer) :
    Outcome ε β × ChunkBuffer × List ι :=
  match r with
  | (.returns _, s, inputs) => leave (k s) inputs
  | (.raises e, s, inputs) => (.raises e, s, inputs)
  | (.parked, s, inputs) => (.parked, s, inputs)

def returnBytes (r : List UInt8 × ChunkBuffer) : Outcome ε Reply × ChunkBuffer :=
  (.returns (.bytes r.1), r.2)

/-- A single `_append_next_chunk`. -/
def appendNext (s : ChunkBuffer) : List ι → Outcome ε Bool × ChunkBuffer × List ι
  | [] => (.parked, s, [])
  | i :: inputs =>
    match s.append (f i) with
    | (.ok b, s') => (.returns b, s', inputs)
    | (.error e, s') => (.raises (.inner e), s', inputs)

def read (n : Int) (s : ChunkBuffer) (inputs : List ι) : Outcome ε Reply × ChunkBuffer × List ι :=
  if n = 0 then (.returns (.bytes []), s, inputs)
  else if n < 0 then andThen (appendWhile f (fun s => !s.eof) s inputs) fun s => returnBytes s.takeAll
  else if s.available ≠ 0 then leave (returnBytes (s.takeBytes (min n.toNat s.available))) inputs
  else if s.eof then (.returns (.bytes []), s, inputs)
  else andThen (appendNext f s inputs) fun s => returnBytes (s.takeBytes (min n.toNat s.available))

/-- The last loop of `readinto`, which ends within as many rounds as the view has bytes. -/
def fillView (nbytes : Nat) : Nat → Nat → List UInt8 → ChunkBuffer → Nat × List UInt8 × ChunkBuffer
  | 0, total, view, s => (total, view, s)
  | rounds + 1, total, view, s =>
    if total < nbytes ∧ s.available ≠ 0 then
      let r := s.takeInto view total (nbytes - total)
      fillView nbytes rounds (total + r.1) r.2.1 r.2.2
    else (total, view, s)

/-- The end of `readinto`. -/
def takeView (view : List UInt8) (s : ChunkBuffer) : Outcome ε Reply × ChunkBuffer :=
  let r := fillView view.length view.length 0 view s
  (.returns (.filled r.1 r.2.1), r.2.2)

def readinto (view : List UInt8) (s : ChunkBuffer) (inputs : List ι) :
    Outcome ε Reply × ChunkBuffer × List ι :=
  if view.length = 0 then (.returns (.filled 0 view), s, inputs)
  else if s.eof ∧ s.available = 0 then (.returns (.filled 0 view), s, inputs)
  else if s.available < view.length ∧ s.eof = false then
    andThen (fillBuffer f view.length s inputs) (takeView view)
  else leave (takeView view s) inputs

/-- The end of `readexactly`. -/
def takeExactly (n : Nat) (s : ChunkBuffer) : Outcome ε Reply × ChunkBuffer :=
  if s.available < n then (.raises (.incompleteRead s.takeAll.1 n), s.takeAll.2) else
    returnBytes (s.takeBytes n)

def readexactly (n : Int) (s : ChunkBuffer) (inputs : List ι) : Outcome ε Reply × ChunkBuffer × List ι :=
  if n < 0 then (.raises .valueError, s, inputs)
  else if n = 0 then (.returns (.bytes []), s, inputs)
  else if s.available < n.toNat ∧ s.eof = false then
    andThen (fillBuffer f n.toNat s inputs) (takeExactly n.toNat)
  else leave (takeExactly n.toNat s) inputs

/-- The byte that ends a line. -/
def newline : UInt8 := 10

/-- `self._buffer.find(b"\n", self._buffer_pos)`, counted from the offset -/
def findNewline (s : ChunkBuffer) : Option Nat :=
  s.unread.findIdx? fun b => b == newline

def readline (limit : Int) : ChunkBuffer → List ι → Outcome ε Reply × ChunkBuffer × List ι
  | s, inputs =>
    match s.findNewline with
    | some k => leave (returnBytes (s.takeBytes (k + 1))) inputs
    | none =>
      if s.eof then leave (returnBytes (s.takeBytes s.available)) inputs
      else if limit ≤ s.available then (.raises (.limitOverrun s.available), s, inputs)
      else
        match inputs with
        | [] => (.parked, s, [])
        | i :: inputs =>
          match s.append (f i) with
          | (.ok true, s') => readline limit s' inputs
          | (.ok false, s') => leave (returnBytes (s'.takeBytes s'.available)) inputs
          | (.error e, s') => (.raises (.inner e), s', inputs)

def call (limit : Int) (c : Call) (s : ChunkBuffer) (inputs : List ι) :
    Outcome ε Reply × ChunkBuffer × List ι :=
  match c with
  | .read n => read f n s inputs
  | .readinto view => readinto f view s inputs
  | .readexactly n => readexactly f n s inputs
  | .readline => readline f limit s inputs

end Calls

/-! ## What the operations do to the unread bytes -/

section Unread

variable (s : ChunkBuffer)

@[simp] theorem length_unread : s.unread.length = s.available := by
  simp [unread, available]

@[simp] theorem unread_maybeCompact : s.maybeCompact.unread = s.unread := by
  unfold maybeCompact compact
  split
  · split
    · rfl
    · rfl
  · rfl

@[simp] theorem eof_maybeCompact : s.maybeCompact.eof = s.eof := by
  unfold maybeCompact compact
  split
  · split
    · rfl
    · rfl
  · rfl

@[simp] theorem unread_advance (count : Nat) (h : count ≤ s.available) :
    (s.advance count h).unread = s.unread.drop count := by
  simp [unread, advance, drop_drop]

theorem takeBytes_fst (n : Nat) : (s.takeBytes n).1 = s.unread.take n := by
  have htake : s.unread.take (min n s.available) = s.unread.take n := by
    rw [← length_unread, ← take_take, take_length]
  unfold takeBytes
  dsimp only
  split
  · rename_i hzero
    rw [← htake, hzero]
    rfl
  · exact htake

theorem unread_takeBytes (n : Nat) : (s.takeBytes n).2.unread = s.unread.drop n := by
  have hdrop : s.unread.drop (min n s.available) = s.unread.drop n := by
    rcases le_total n s.available with hle | hle
    · rw [min_eq_left hle]
    · rw [min_eq_right hle, drop_eq_nil_of_le (length_unread s).le,
        drop_eq_nil_of_le ((length_unread s).le.trans hle)]
  unfold takeBytes
  dsimp only
  split
  · rename_i hzero
    rw [← hdrop, hzero]
    rfl
  · rw [unread_maybeCompact, unread_advance, hdrop]

theorem eof_takeBytes (n : Nat) : (s.takeBytes n).2.eof = s.eof := by
  unfold takeBytes
  dsimp only
  split
  · rfl
  · rw [eof_maybeCompact]
    rfl

theorem takeInto_eq (view : List UInt8) (offset n : Nat) :
    s.takeInto view offset n = ((s.takeBytes n).1.length,
      view.take offset ++ (s.takeBytes n).1 ++ view.drop (offset + (s.takeBytes n).1.length),
      (s.takeBytes n).2) := by
  unfold takeInto takeBytes
  dsimp only
  by_cases hzero : min n s.available = 0
  · simp [hzero]
  · have hlength : (List.take (min n s.available) (List.drop s.bufferPos s.buffer)).length =
        min n s.available := by
      rw [length_take, length_drop]
      exact Nat.min_eq_left (Nat.min_le_right n _)
    rw [if_neg hzero, if_neg hzero, hlength]

theorem append_grew {ε : Type*} (chunk : List UInt8) :
    (s.append (.grew chunk : Appended ε)).2.unread = s.unread ++ chunk := by
  simp [append, unread, drop_append_of_le_length s.bufferPos_le]

end Unread

theorem fillView_eq (view : List UInt8) (s : ChunkBuffer) :
    fillView view.length view.length 0 view s = ((s.takeBytes view.length).1.length,
      (s.takeBytes view.length).1 ++ view.drop (s.takeBytes view.length).1.length,
      (s.takeBytes view.length).2) := by
  have hstop : ∀ rounds total v (t : ChunkBuffer), ¬ (total < view.length ∧ t.available ≠ 0) →
      fillView view.length rounds total v t = (total, v, t) := by
    intro rounds total v t hdone
    cases rounds with
    | zero => rfl
    | succ rounds => exact if_neg hdone
  by_cases hgo : 0 < view.length ∧ s.available ≠ 0
  · rcases Nat.exists_eq_succ_of_ne_zero hgo.1.ne' with ⟨rounds, hrounds⟩
    have hfirst : fillView view.length view.length 0 view s =
        fillView view.length rounds (0 + (s.takeInto view 0 (view.length - 0)).1)
          (s.takeInto view 0 (view.length - 0)).2.1 (s.takeInto view 0 (view.length - 0)).2.2 :=
      calc
        _ = fillView view.length (rounds + 1) 0 view s := by rw [← Nat.succ_eq_add_one, ← hrounds]
        _ = _ := if_pos hgo
    rw [hfirst, takeInto_eq, Nat.sub_zero, Nat.zero_add, Nat.zero_add, take_zero, nil_append]
    apply hstop
    -- either the view is full, or the buffer is empty
    rintro ⟨hless, havailable⟩
    rw [takeBytes_fst, length_take, length_unread] at hless
    rw [← length_unread, unread_takeBytes, length_drop, length_unread] at havailable
    omega
  · rw [hstop _ _ _ _ hgo]
    have hnone : (s.takeBytes view.length) = ([], s) := by
      unfold takeBytes
      exact if_pos (by omega)
    rw [hnone]
    simp

/-! ## No byte is lost -/

section Flow

variable {ε ι : Type*} {f : ι → Appended ε} {s : ChunkBuffer} {inputs : List ι}

/-- What has been returned and what is left is what there was, with what the inputs that have been
used have brought. -/
def Flows (f : ι → Appended ε) (s : ChunkBuffer) (inputs : List ι) (bytes : List UInt8) (s' : ChunkBuffer)
    (rest : List ι) : Prop :=
  ∃ used, inputs = used ++ rest ∧ bytes ++ s'.unread = s.unread ++ used.flatMap fun i => (f i).chunk

theorem flows_stay {bytes : List UInt8} {s' : ChunkBuffer} (h : bytes ++ s'.unread = s.unread) :
    Flows f s inputs bytes s' inputs :=
  ⟨[], rfl, by rw [h, flatMap_nil, append_nil]⟩

theorem Flows.trans {bytes : List UInt8} {s₁ s₂ : ChunkBuffer} {rest₁ rest₂ : List ι}
    (h₁ : Flows f s inputs [] s₁ rest₁)
    (h₂ : Flows f s₁ rest₁ bytes s₂ rest₂) : Flows f s inputs bytes s₂ rest₂ := by
  rcases h₁ with ⟨used₁, rfl, hbytes₁⟩
  rcases h₂ with ⟨used₂, rfl, hbytes₂⟩
  rw [nil_append] at hbytes₁
  refine ⟨used₁ ++ used₂, (append_assoc _ _ _).symm, ?_⟩
  rw [hbytes₂, hbytes₁, flatMap_append, append_assoc]

theorem unread_append (s : ChunkBuffer) (a : Appended ε) : (s.append a).2.unread = s.unread ++ a.chunk := by
  cases a with
  | grew chunk => exact append_grew s chunk
  | ended => exact (append_nil _).symm
  | raised e eof => exact (append_nil _).symm

theorem flows_append (s : ChunkBuffer) (i : ι) (inputs : List ι) :
    Flows f s (i :: inputs) [] (s.append (f i)).2 inputs :=
  ⟨[i], rfl, by rw [nil_append, unread_append, flatMap_singleton]⟩

theorem flows_takeBytes (n : Nat) : Flows f s inputs (s.takeBytes n).1 (s.takeBytes n).2 inputs := by
  apply flows_stay
  rw [takeBytes_fst, unread_takeBytes, take_append_drop]

theorem flows_takeAll : Flows f s inputs s.takeAll.1 s.takeAll.2 inputs := by
  apply flows_stay
  exact append_nil s.unread

theorem flows_returnBytes (n : Nat) : Flows f s inputs (returnBytes (ε := ε) (s.takeBytes n)).1.bytes
    (returnBytes (ε := ε) (s.takeBytes n)).2 inputs :=
  flows_takeBytes n

theorem flows_appendWhile (go : ChunkBuffer → Bool) (inputs : List ι) (s : ChunkBuffer) :
    Flows f s inputs [] (appendWhile f go s inputs).2.1 (appendWhile f go s inputs).2.2 := by
  induction inputs generalizing s with
  | nil =>
    unfold appendWhile
    split <;> exact flows_stay rfl
  | cons i inputs ih =>
    unfold appendWhile
    split
    · have hstep := flows_append (f := f) s i inputs
      split
      · rename_i s' hs
        rw [hs] at hstep
        exact hstep.trans (ih s')
      · rename_i s' hs
        rw [hs] at hstep
        exact hstep
      · rename_i e s' hs
        rw [hs] at hstep
        exact hstep
    · exact flows_stay rfl

theorem flows_appendNext (s : ChunkBuffer) (inputs : List ι) :
    Flows f s inputs [] (appendNext f s inputs).2.1 (appendNext f s inputs).2.2 := by
  cases inputs with
  | nil => exact flows_stay rfl
  | cons i inputs =>
    have hstep := flows_append (f := f) s i inputs
    unfold appendNext
    dsimp only
    split
    · rename_i b s' hs
      rw [hs] at hstep
      exact hstep
    · rename_i e s' hs
      rw [hs] at hstep
      exact hstep

/-- How the loop ends: it is over, or the stream is; it raises what `_append_next_chunk` raises; it
is parked where there are no more inputs. -/
def Ends (go : ChunkBuffer → Bool) : Outcome ε Unit × ChunkBuffer × List ι → Prop
  | (.returns _, t, _) => go t = false ∨ t.eof = true
  | (.raises e, _, _) => ∃ e', e = .inner e'
  | (.parked, t, rest) => rest = [] ∧ go t = true

theorem appendWhile_ends (go : ChunkBuffer → Bool) (inputs : List ι) (s : ChunkBuffer) :
    Ends go (appendWhile f go s inputs) := by
  induction inputs generalizing s with
  | nil =>
    unfold appendWhile
    split
    · rename_i hgo
      exact ⟨rfl, hgo⟩
    · rename_i hgo
      exact .inl (eq_false_of_not_eq_true hgo)
  | cons i inputs ih =>
    unfold appendWhile
    split
    · cases hi : f i with
      | grew chunk => exact ih _
      | ended => exact .inr rfl
      | raised e eof => exact ⟨e, rfl⟩
    · rename_i hgo
      exact .inl (eq_false_of_not_eq_true hgo)

/-- A single `_append_next_chunk` has put bytes into the buffer, or the stream is over. -/
theorem appendNext_ends (hgrew : ∀ i, f i ≠ .grew []) (s : ChunkBuffer) (inputs : List ι) :
    (∃ b t rest, appendNext f s inputs = (.returns b, t, rest) ∧ (t.unread ≠ [] ∨ t.eof = true)) ∨
      (∃ e t rest, appendNext f s inputs = (.raises (.inner e), t, rest)) ∨
      inputs = [] ∧ appendNext f s inputs = (.parked, s, []) := by
  cases inputs with
  | nil => exact .inr (.inr ⟨rfl, rfl⟩)
  | cons i inputs =>
    have happend := unread_append s (f i)
    have hne := hgrew i
    unfold appendNext
    dsimp only
    cases hi : f i with
    | grew chunk =>
      refine .inl ⟨_, _, _, rfl, .inl ?_⟩
      rw [hi] at happend hne
      exact ne_of_eq_of_ne happend
        (append_ne_nil_of_right_ne_nil _ fun hnil => hne (congrArg Appended.grew hnil))
    | ended => exact .inl ⟨_, _, _, rfl, .inr rfl⟩
    | raised e eof => exact .inr (.inl ⟨e, _, _, rfl⟩)

theorem Ends.raises {go : ChunkBuffer → Bool} {r : Outcome ε Unit × ChunkBuffer × List ι}
    (h : Ends go r) {e : Exn ε}
    (hr : r.1 = .raises e) : ∃ e', e = .inner e' := by
  rcases r with ⟨o, t, rest⟩
  cases hr
  exact h

theorem appendNext_raises {e : Exn ε} (h : (appendNext f s inputs).1 = .raises e) :
    ∃ e', e = .inner e' := by
  cases inputs with
  | nil => cases h
  | cons i inputs =>
    unfold appendNext at h
    dsimp only at h
    split at h
    · cases h
    · cases h
      exact ⟨_, rfl⟩

theorem flows_andThen {α : Type*} {r : Outcome ε α × ChunkBuffer × List ι}
    {k : ChunkBuffer → Outcome ε Reply × ChunkBuffer}
    (h : Flows f s inputs [] r.2.1 r.2.2) (hraises : ∀ e, r.1 = .raises e → ∃ e', e = .inner e')
    (hk : ∀ t, Flows f t r.2.2 (k t).1.bytes (k t).2 r.2.2) :
    Flows f s inputs (andThen r k).1.bytes (andThen r k).2.1 (andThen r k).2.2 := by
  rcases r with ⟨a | e | _, t, rest⟩
  · exact h.trans (hk t)
  · rcases hraises e rfl with ⟨e', rfl⟩
    exact h
  · exact h

theorem flows_read (n : Int) (s : ChunkBuffer) (inputs : List ι) :
    Flows f s inputs (read f n s inputs).1.bytes (read f n s inputs).2.1 (read f n s inputs).2.2 := by
  unfold read
  split
  · exact flows_stay rfl
  · split
    · exact flows_andThen (flows_appendWhile _ inputs s)
        (fun e he => (appendWhile_ends _ inputs s).raises he)
        fun t => flows_takeAll
    · split
      · exact flows_returnBytes _
      · split
        · exact flows_stay rfl
        · exact flows_andThen (flows_appendNext s inputs) (fun e he => appendNext_raises he)
            fun t => flows_returnBytes _

theorem flows_takeView (view : List UInt8) (s : ChunkBuffer) (inputs : List ι) :
    Flows f s inputs (takeView (ε := ε) view s).1.bytes (takeView (ε := ε) view s).2 inputs := by
  show Flows f s inputs
    ((fillView view.length view.length 0 view s).2.1.take (fillView view.length view.length 0 view s).1)
    (fillView view.length view.length 0 view s).2.2 inputs
  rw [fillView_eq, take_left']
  · exact flows_takeBytes _
  · rfl

theorem flows_readinto (view : List UInt8) (s : ChunkBuffer) (inputs : List ι) :
    Flows f s inputs (readinto f view s inputs).1.bytes (readinto f view s inputs).2.1
      (readinto f view s inputs).2.2 := by
  unfold readinto
  split
  · exact flows_stay rfl
  · split
    · exact flows_stay rfl
    · split
      · exact flows_andThen (flows_appendWhile _ inputs s)
          (fun e he => (appendWhile_ends _ inputs s).raises he)
          fun t => flows_takeView view t _
      · exact flows_takeView view s inputs

theorem flows_takeExactly (n : Nat) (s : ChunkBuffer) (inputs : List ι) :
    Flows f s inputs (takeExactly (ε := ε) n s).1.bytes (takeExactly (ε := ε) n s).2 inputs := by
  unfold takeExactly
  split
  · exact flows_takeAll
  · exact flows_returnBytes n

theorem flows_readexactly (n : Int) (s : ChunkBuffer) (inputs : List ι) :
    Flows f s inputs (readexactly f n s inputs).1.bytes (readexactly f n s inputs).2.1
      (readexactly f n s inputs).2.2 := by
  unfold readexactly
  split
  · exact flows_stay rfl
  · split
    · exact flows_stay rfl
    · split
      · exact flows_andThen (flows_appendWhile _ inputs s)
          (fun e he => (appendWhile_ends _ inputs s).raises he)
          fun t => flows_takeExactly n.toNat t _
      · exact flows_takeExactly n.toNat s inputs

theorem flows_readline (limit : Int) (inputs : List ι) (s : ChunkBuffer) :
    Flows f s inputs (readline f limit s inputs).1.bytes (readline f limit s inputs).2.1
      (readline f limit s inputs).2.2 := by
  induction inputs generalizing s with
  | nil =>
    unfold readline
    split
    · exact flows_returnBytes _
    · split
      · exact flows_returnBytes _
      · split <;> exact flows_stay rfl
  | cons i inputs ih =>
    unfold readline
    split
    · exact flows_returnBytes _
    · split
      · exact flows_returnBytes _
      · split
        · exact flows_stay rfl
        · have hstep := flows_append (f := f) s i inputs
          dsimp only
          split
          · rename_i s' hs
            rw [hs] at hstep
            exact hstep.trans (ih s')
          · rename_i s' hs
            rw [hs] at hstep
            exact hstep.trans (flows_returnBytes _)
          · rename_i e s' hs
            rw [hs] at hstep
            exact hstep

theorem flows_call (limit : Int) (c : Call) (s : ChunkBuffer) (inputs : List ι) :
    Flows f s inputs (call f limit c s inputs).1.bytes (call f limit c s inputs).2.1
      (call f limit c s inputs).2.2 := by
  cases c with
  | read n => exact flows_read n s inputs
  | readinto view => exact flows_readinto view s inputs
  | readexactly n => exact flows_readexactly n s inputs
  | readline => exact flows_readline limit inputs s

end Flow

/-! ## What the calls promise -/

/-- A line, with its newline. -/
def EndsLine (line : List UInt8) : Prop :=
  ∃ body, newline ∉ body ∧ line = body ++ [newline]

theorem findNewline_some {s : ChunkBuffer} {k : Nat} (h : s.findNewline = some k) :
    EndsLine (s.unread.take (k + 1)) := by
  rcases List.findIdx?_eq_some_iff_getElem.1 h with ⟨hk, hnewline, hbefore⟩
  refine ⟨s.unread.take k, fun hin => ?_, ?_⟩
  · rcases mem_iff_getElem.1 hin with ⟨j, hj, heq⟩
    rw [length_take] at hj
    rw [getElem_take] at heq
    exact hbefore j (by omega) (by rw [heq]; exact beq_self_eq_true newline)
  · rw [take_succ_eq_append_getElem hk, beq_iff_eq.1 hnewline]

theorem findNewline_none {s : ChunkBuffer} : s.findNewline = none ↔ newline ∉ s.unread := by
  unfold findNewline
  rw [List.findIdx?_eq_none_iff]
  constructor
  · intro hnone hin
    exact absurd (hnone newline hin) (by simp)
  · intro hout b hb
    exact beq_false_of_ne fun heq => hout (heq ▸ hb)

section Promises

variable {ε ι : Type*}

/-- A call needs another chunk: the buffer does not hold what it is asked for, and the stream has
not ended. -/
def Lacks (limit : Int) (t : ChunkBuffer) (c : Call) : Prop :=
  t.eof = false ∧
    match c with
    | .read n => n < 0 ∨ 0 < n ∧ t.unread = []
    | .readinto view => t.available < view.length
    | .readexactly n => (t.available : Int) < n
    | .readline => newline ∉ t.unread ∧ (t.available : Int) < limit

/-- The stream has ended, and all has been read. -/
def AtEnd (t : ChunkBuffer) : Prop :=
  t.eof = true ∧ t.unread = []

/-- What is promised of an answer, with the buffer that the call leaves. -/
def Answers (t : ChunkBuffer) : Call → Reply → Prop
  -- no more than what is asked for; nothing, or all, at the end only
  | .read n, .bytes b => (0 ≤ n → (b.length : Int) ≤ n) ∧ (n < 0 ∨ 0 < n ∧ b = [] → t.AtEnd)
  -- the rest of the view is as it was, and there is no rest but at the end
  | .readinto view, .filled total view' =>
    total ≤ view.length ∧ view'.length = view.length ∧ view'.drop total = view.drop total ∧
      (total < view.length → t.AtEnd)
  | .readexactly n, .bytes b => (b.length : Int) = n
  | .readline, .bytes b => EndsLine b ∨ newline ∉ b ∧ t.AtEnd
  | _, _ => False

/-- What a call promises, of its outcome, the buffer after it, and the inputs that it leaves. -/
def Promises (f : ι → Appended ε) (limit : Int) (c : Call) (s : ChunkBuffer) (inputs : List ι) :
    Outcome ε Reply × ChunkBuffer × List ι → Prop
  | (.returns reply, t, _) => t.Answers c reply
  -- `readexactly` raises it at the end of the stream only, with all that is left
  | (.raises (.incompleteRead got expected), t, _) =>
    c = .readexactly expected ∧ got.length < expected ∧ t.AtEnd
  -- what raises another exception takes nothing out of the buffer
  | (.raises _, t, rest) => Flows f s inputs [] t rest
  -- a call is parked only where the inputs are used up and do not suffice
  | (.parked, t, rest) => rest = [] ∧ t.Lacks limit c

variable {f : ι → Appended ε} {limit : Int} {c : Call} {s : ChunkBuffer} {inputs : List ι}

/-- A call that first appends keeps its promise if the rest of it does, where it goes on. -/
theorem promises_andThen {go : ChunkBuffer → Bool} {r : Outcome ε Unit × ChunkBuffer × List ι}
    {k : ChunkBuffer → Outcome ε Reply × ChunkBuffer} (hflows : Flows f s inputs [] r.2.1 r.2.2)
    (hends : Ends go r)
    (hlacks : ∀ t, go t = true → t.Lacks limit c)
    (hk : ∀ t rest, go t = false ∨ t.eof = true → Promises f limit c s inputs (leave (k t) rest)) :
    Promises f limit c s inputs (andThen r k) := by
  rcases r with ⟨_ | e | _, t, rest⟩
  · exact hk t rest hends
  · rcases hends with ⟨e', rfl⟩
    exact hflows
  · exact ⟨hends.1, hlacks t hends.2⟩

theorem unread_eq_nil {t : ChunkBuffer} : t.unread = [] ↔ t.available = 0 := by
  rw [← length_unread, length_eq_zero_iff]

theorem promises_trans {s₁ : ChunkBuffer} {rest₁ : List ι} {r : Outcome ε Reply × ChunkBuffer × List ι}
    (h : Flows f s inputs [] s₁ rest₁) (hr : Promises f limit c s₁ rest₁ r) :
      Promises f limit c s inputs r := by
  rcases r with ⟨reply | e | _, t, rest⟩
  · exact hr
  · cases e with
    | incompleteRead got expected => exact hr
    | valueError => exact h.trans hr
    | limitOverrun consumed => exact h.trans hr
    | inner e => exact h.trans hr
  · exact hr

/-- `read` of a positive number takes the bytes that there are. -/
theorem answers_takeBytes {n : Int} {t : ChunkBuffer} (hn : 0 < n) (h : t.unread ≠ [] ∨ t.eof = true) :
    (t.takeBytes (min n.toNat t.available)).2.Answers (.read n)
    (.bytes (t.takeBytes (min n.toNat t.available)).1) := by
  have hbytes : (t.takeBytes (min n.toNat t.available)).1.length = min n.toNat t.available := by
    rw [takeBytes_fst, length_take, length_unread]
    omega
  refine ⟨fun _ => by omega, fun hnone => ?_⟩
  have hempty := (hnone.resolve_left (not_lt.2 hn.le)).2
  rw [hempty] at hbytes
  have havailable : t.available = 0 := by
    simp only [length_nil] at hbytes
    omega
  have hunread := unread_eq_nil.2 havailable
  refine ⟨(eof_takeBytes t _).trans (h.resolve_left fun hne => hne hunread), ?_⟩
  rw [unread_takeBytes, hunread, drop_nil]

theorem promises_read (hgrew : ∀ i, f i ≠ .grew []) (n : Int) (s : ChunkBuffer) (inputs : List ι) :
    Promises f limit (.read n) s inputs (read f n s inputs) := by
  unfold read
  split
  · rename_i hzero
    exact ⟨fun _ => by simp [hzero], fun hor => by omega⟩
  · rename_i hne
    split
    · rename_i hneg
      refine promises_andThen (flows_appendWhile _ inputs s) (appendWhile_ends _ inputs s) (fun t hgo => ?_)
        fun t rest hor => ⟨fun hle => absurd hneg (not_lt.2 hle), fun _ => ⟨?_, rfl⟩⟩
      · exact ⟨by simpa using hgo, .inl hneg⟩
      · exact hor.elim (fun hgo => (not_eq_false' t.eof).mp hgo) id
    · have hpos : 0 < n := by omega
      split
      · rename_i havailable
        exact answers_takeBytes hpos (.inl fun hnil => havailable (unread_eq_nil.1 hnil))
      · rename_i hnone
        have hunread := unread_eq_nil.2 (not_not.1 hnone)
        split
        · rename_i heof
          exact ⟨fun hle => by simpa using hle, fun _ => ⟨heof, hunread⟩⟩
        · rename_i heof
          have hflows := flows_appendNext (f := f) s inputs
          rcases appendNext_ends hgrew s inputs with ⟨b, t, rest, heq, hor⟩ | ⟨e, t, rest, heq⟩ | ⟨-, heq⟩
          · rw [heq]
            exact answers_takeBytes hpos hor
          · rw [heq] at hflows ⊢
            exact hflows
          · rw [heq]
            exact ⟨rfl, eq_false_of_not_eq_true heof, .inr ⟨hpos, hunread⟩⟩

/-- The view is full, or the stream at its end. -/
theorem answers_takeView {view : List UInt8} {t : ChunkBuffer}
    (h : view.length ≤ t.available ∨ t.eof = true)
    (rest : List ι) : Promises f limit (.readinto view) s inputs (leave (takeView view t) rest) := by
  have hlength : (t.takeBytes view.length).1.length = min view.length t.available := by
    rw [takeBytes_fst, length_take, length_unread]
  unfold takeView
  rw [fillView_eq]
  refine ⟨by omega, ?_, ?_, fun hless => ?_⟩
  · rw [length_append, length_drop]
    omega
  · rw [drop_left']
    rfl
  · refine ⟨(eof_takeBytes t _).trans (h.resolve_left (by omega)), ?_⟩
    rw [unread_takeBytes]
    exact drop_eq_nil_of_le ((length_unread t).trans_le (by omega))

theorem fillBuffer_go {n : Nat} {t : ChunkBuffer} :
    (decide (t.available < n) && !t.eof) = true ↔ t.available < n ∧ t.eof = false := by
  simp

theorem not_fill {n : Nat} {t : ChunkBuffer} (h : ¬ (t.available < n ∧ t.eof = false)) :
    n ≤ t.available ∨ t.eof = true := by
  by_cases hless : t.available < n
  · exact .inr (eq_true_of_not_eq_false fun heof => h ⟨hless, heof⟩)
  · exact .inl (not_lt.1 hless)

/-- A call that fills the buffer up to `n` bytes, unless there are as many, goes on with them or at
the end. -/
theorem promises_fillBuffer {n : Nat} {k : ChunkBuffer → Outcome ε Reply × ChunkBuffer}
    (hlacks : ∀ t : ChunkBuffer, t.available < n → t.eof = false → t.Lacks limit c)
    (hk : ∀ (t : ChunkBuffer) (rest : List ι), n ≤ t.available ∨ t.eof = true →
      Promises f limit c s inputs (leave (k t) rest)) :
    Promises f limit c s inputs
      (if s.available < n ∧ s.eof = false then andThen (fillBuffer f n s inputs) k else
        leave (k s) inputs) := by
  split
  · refine promises_andThen (flows_appendWhile _ inputs s) (appendWhile_ends _ inputs s) (fun t hgo => ?_)
      fun t rest hor => hk t rest (hor.elim (fun hgo => not_fill fun hfill => ?_) .inr)
    · exact hlacks t (fillBuffer_go.1 hgo).1 (fillBuffer_go.1 hgo).2
    · rw [fillBuffer_go.2 hfill] at hgo
      cases hgo
  · rename_i hfill
    exact hk s inputs (not_fill hfill)

theorem promises_readinto (view : List UInt8) (s : ChunkBuffer) (inputs : List ι) :
    Promises f limit (.readinto view) s inputs (readinto f view s inputs) := by
  unfold readinto
  split
  · rename_i hzero
    exact ⟨Nat.zero_le _, rfl, rfl, fun hless => absurd hless (by omega)⟩
  · split
    · rename_i hend
      exact ⟨Nat.zero_le _, rfl, rfl, fun _ => ⟨hend.1, unread_eq_nil.2 hend.2⟩⟩
    · exact promises_fillBuffer (fun t hless heof => ⟨heof, hless⟩) fun t rest hor =>
        answers_takeView hor rest

theorem promises_takeExactly {n : Int} (hn : 0 < n) {t : ChunkBuffer}
    (h : n.toNat ≤ t.available ∨ t.eof = true)
    (rest : List ι) : Promises f limit (.readexactly n) s inputs (leave (takeExactly n.toNat t) rest) := by
  unfold takeExactly
  split
  · rename_i hless
    exact ⟨congrArg Call.readexactly (by omega), (length_unread t).trans_lt hless,
      h.resolve_left (Nat.not_le.2 hless),
      rfl⟩
  · have hlength : (t.takeBytes n.toNat).1.length = n.toNat := by
      rw [takeBytes_fst, length_take, length_unread]
      omega
    show ((t.takeBytes n.toNat).1.length : Int) = n
    omega

theorem promises_readexactly (n : Int) (s : ChunkBuffer) (inputs : List ι) :
    Promises f limit (.readexactly n) s inputs (readexactly f n s inputs) := by
  unfold readexactly
  split
  · exact flows_stay rfl
  · split
    · rename_i hzero
      exact hzero.symm
    · have hpos : 0 < n := by omega
      exact promises_fillBuffer (fun t hless heof => ⟨heof, by omega⟩) fun t rest hor =>
        promises_takeExactly hpos hor rest

/-- What is left without a newline is the last line. -/
theorem answers_last {t : ChunkBuffer} (hout : newline ∉ t.unread) (heof : t.eof = true) :
    (t.takeBytes t.available).2.Answers .readline (.bytes (t.takeBytes t.available).1) := by
  refine .inr ⟨?_, (eof_takeBytes t _).trans heof, ?_⟩
  · rw [takeBytes_fst]
    exact fun hin => hout (mem_of_mem_take hin)
  · rw [unread_takeBytes]
    exact drop_eq_nil_of_le (length_unread t).le

theorem answers_line {t : ChunkBuffer} {k : Nat} (h : t.findNewline = some k) :
    (t.takeBytes (k + 1)).2.Answers .readline (.bytes (t.takeBytes (k + 1)).1) := by
  refine .inl ?_
  rw [takeBytes_fst]
  exact findNewline_some h

theorem promises_readline (inputs : List ι) (s : ChunkBuffer) :
    Promises f limit .readline s inputs (readline f limit s inputs) := by
  -- with the inputs that are left the loop begins again
  induction inputs generalizing s with
  | nil =>
    unfold readline
    split
    · rename_i k hk
      exact answers_line hk
    · rename_i hnone
      have hout := findNewline_none.1 hnone
      split
      · rename_i heof
        exact answers_last hout heof
      · rename_i heof
        split
        · exact flows_stay rfl
        · rename_i hless
          exact ⟨rfl, eq_false_of_not_eq_true heof, hout, not_le.1 hless⟩
  | cons i inputs ih =>
    unfold readline
    split
    · rename_i k hk
      exact answers_line hk
    · rename_i hnone
      have hout := findNewline_none.1 hnone
      split
      · rename_i heof
        exact answers_last hout heof
      · split
        · exact flows_stay rfl
        · have hstep := flows_append (f := f) s i inputs
          dsimp only
          cases hi : f i with
          | grew chunk =>
            rw [hi] at hstep
            exact promises_trans hstep (ih _)
          | ended => exact answers_last (t := (s.append (.ended : Appended ε)).2) hout rfl
          | raised e eof =>
            rw [hi] at hstep
            exact hstep

theorem call_promises (hgrew : ∀ i, f i ≠ .grew []) (limit : Int) (c : Call)
    (s : ChunkBuffer) (inputs : List ι) :
    Promises f limit c s inputs (call f limit c s inputs) := by
  cases c with
  | read n => exact promises_read hgrew n s inputs
  | readinto view => exact promises_readinto view s inputs
  | readexactly n => exact promises_readexactly n s inputs
  | readline => exact promises_readline inputs s

end Promises

end ChunkBuffer

/-! ## Runs -/

/-- One tealet makes calls, one after the other. -/
structure Session (ε ι : Type*) where
  buffer : ChunkBuffer := {}
  /-- what the calls of `_append_next_chunk` are going to come to -/
  inputs : List ι
  used : List ι := []
  outcomes : List (Outcome ε Reply) := []
  parked : Bool := false

namespace Session

variable {ε ι : Type*}

def step (call : Call → ChunkBuffer → List ι → Outcome ε Reply × ChunkBuffer × List ι)
    (s : Session ε ι) (c : Call) :
    Option (Session ε ι) :=
  if s.parked then none
  else
    let r := call c s.buffer s.inputs
    some {
      buffer := r.2.1
      inputs := r.2.2
      used := s.used ++ s.inputs.take (s.inputs.length - r.2.2.length)
      outcomes := s.outcomes ++ [r.1]
      parked := match r.1 with
        | .parked => true
        | _ => false }

/-- The bytes that the calls have handed over. -/
def returned (s : Session ε ι) : List UInt8 :=
  s.outcomes.flatMap Outcome.bytes

theorem take_used {inputs used rest : List ι} (h : inputs = used ++ rest) :
    inputs.take (inputs.length - rest.length) = used := by
  subst h
  simp

theorem returned_append_unread (f : ι → Appended ε) (limit : Int) (inputs : List ι) (calls : List Call) :
    Always (step (ChunkBuffer.call f limit))
      (fun s : Session ε ι => s.returned ++ s.buffer.unread = s.used.flatMap fun i => (f i).chunk)
      { inputs := inputs } calls := by
  refine always_of_invariant (I := fun s : Session ε ι => s.returned ++ s.buffer.unread =
    s.used.flatMap fun i => (f i).chunk) (fun _ h => h) (fun s c s' h hs => ?_) calls _ rfl
  unfold step at hs
  split at hs
  · cases hs
  · cases hs
    rcases ChunkBuffer.flows_call (f := f) limit c s.buffer s.inputs with ⟨used, hinputs, hbytes⟩
    have hused := take_used hinputs
    show (s.outcomes ++ [_]).flatMap Outcome.bytes ++ _ = (s.used ++ _).flatMap _
    rw [hused, flatMap_append, flatMap_singleton, append_assoc, hbytes, ← append_assoc,
      flatMap_append]
    exact congrArg (fun l => l ++ _) h

end Session

end Pytealet.Streams
