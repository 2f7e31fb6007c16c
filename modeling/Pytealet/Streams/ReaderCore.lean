import Pytealet.Streams.ChunkBuffer

/-!
# ReaderCore — the reader of a plain stream

`ReaderCore` gets its bytes from `RecvIterBuffer.take_next`.  An item whose index tells of pressure
brings nothing, and `_append_next_chunk` takes the next one; an empty chunk is the end of the
stream.
-/

namespace Pytealet.Streams

open Lib.Transition

def recvManyBufferPressure : Int := -1

/-- What `take_next` gives while one call of `_append_next_chunk` runs. -/
inductive Taking (ε : Type*)
  /-- an item that tells of pressure, and what is taken after it -/
  | pressure (chunk : List UInt8) (next : Taking ε)
  | item (index : Int) (hindex : index ≠ recvManyBufferPressure) (chunk : List UInt8)
  /-- `None` -/
  | done
  | raises (e : ε)
  deriving DecidableEq, Repr

namespace Taking

variable {ε : Type*}

/-- `_append_next_chunk` -/
def appended : Taking ε → Appended ε
  | .pressure _ next => next.appended
  | .item _ _ chunk => if chunk = [] then .ended else .grew chunk
  | .done => .ended
  | .raises e => .raised e false

/-- The bytes of the stream that `take_next` has given. -/
def bytes : Taking ε → List UInt8
  | .pressure _ next => next.bytes
  | .item _ _ chunk => chunk
  | .done => []
  | .raises _ => []

theorem appended_ne (t : Taking ε) : t.appended ≠ .grew [] := by
  induction t with
  | pressure chunk next ih => exact ih
  | item index hindex chunk =>
    unfold appended
    split
    · nofun
    · rename_i hne
      exact fun heq => hne (Appended.grew.inj heq)
  | done => nofun
  | raises e => nofun

theorem chunk_appended (t : Taking ε) : t.appended.chunk = t.bytes := by
  induction t with
  | pressure chunk next ih => exact ih
  | item index hindex chunk =>
    unfold appended bytes
    split
    · rename_i hempty
      exact hempty.symm
    · rfl
  | done => rfl
  | raises e => rfl

end Taking

namespace ReaderCore

variable {ε : Type*}

def read (n : Int) (s : ChunkBuffer) (items : List (Taking ε)) :
    Outcome ε Reply × ChunkBuffer × List (Taking ε) :=
  ChunkBuffer.read Taking.appended n s items

def readinto (view : List UInt8) (s : ChunkBuffer) (items : List (Taking ε)) :
    Outcome ε Reply × ChunkBuffer × List (Taking ε) :=
  ChunkBuffer.readinto Taking.appended view s items

def readexactly (n : Int) (s : ChunkBuffer) (items : List (Taking ε)) :
    Outcome ε Reply × ChunkBuffer × List (Taking ε) :=
  ChunkBuffer.readexactly Taking.appended n s items

def readline (limit : Int) (s : ChunkBuffer) (items : List (Taking ε)) :
    Outcome ε Reply × ChunkBuffer × List (Taking ε) :=
  ChunkBuffer.readline Taking.appended limit s items

def call (limit : Int) (c : Call) (s : ChunkBuffer) (items : List (Taking ε)) :
    Outcome ε Reply × ChunkBuffer × List (Taking ε) :=
  match c with
  | .read n => read n s items
  | .readinto view => readinto view s items
  | .readexactly n => readexactly n s items
  | .readline => readline limit s items

theorem call_eq (limit : Int) : call (ε := ε) limit = ChunkBuffer.call Taking.appended limit := by
  funext c s items
  cases c <;> rfl

/-- However the stream comes in chunks, and whatever is called, the bytes that have been handed over
and those that are left in the buffer are the bytes taken so far; and each call keeps its promise,
so that it is parked only where the items are used up and do not suffice. -/
theorem reader_core_refines (limit : Int) (items : List (Taking ε)) (calls : List Call) :
    Always (Session.step (call limit))
      (fun s => s.returned ++ s.buffer.unread = s.used.flatMap Taking.bytes)
        { inputs := items } calls ∧
      ∀ (c : Call) (s : ChunkBuffer) (rest : List (Taking ε)),
        ChunkBuffer.Promises Taking.appended limit c s rest (call limit c s rest) := by
  rw [call_eq]
  constructor
  · refine (Session.returned_append_unread Taking.appended limit items calls).mono fun s h => ?_
    rw [h]
    simp only [Taking.chunk_appended]
  · intro c s rest
    exact ChunkBuffer.call_promises Taking.appended_ne limit c s rest

/-- Two lines and a bit in three items, with pressure in between. -/
def linesAndABit : List (Taking Empty) :=
  [.item 1 (by decide) [65, 10, 66], .pressure [] (.item 2 (by decide) [10, 67]), .done]

/-- A line, the rest of it with `readexactly`, and what is left with a view that is too long. -/
theorem reader_core_refines_lines : ∃ s, exec (Session.step (call 64)) { inputs := linesAndABit }
      [.readline, .readexactly 2, .readinto [0, 0]] = some s ∧
    s.outcomes = [.returns (.bytes [65, 10]), .returns (.bytes [66, 10]), .returns (.filled 1 [67, 0])] ∧
    s.returned ++ s.buffer.unread = [65, 10, 66, 10, 67] := by
  have hrun : ∃ s, exec (Session.step (call 64)) { inputs := linesAndABit }
        [.readline, .readexactly 2, .readinto [0, 0]] = some s ∧
      s.outcomes = [.returns (.bytes [65, 10]), .returns (.bytes [66, 10]), .returns (.filled 1 [67, 0])] ∧
      s.used = linesAndABit := ⟨_, rfl, by decide +kernel, by decide +kernel⟩
  rcases hrun with ⟨s, hs, houtcomes, hused⟩
  have hlaw := (reader_core_refines 64 linesAndABit [.readline, .readexactly 2, .readinto [0, 0]]).1.exec hs
  exact ⟨s, hs, houtcomes, hlaw.trans (hused ▸ rfl)⟩

end ReaderCore

end Pytealet.Streams
