import Pytealet.Streams.ChunkBuffer

/-!
# SslRead — the reading side of `SSLStream`

`SSLStream._append_next_chunk` decrypts with `sslobj.read`, retried after the outgoing BIO has been
flushed and the incoming one fed, and then flushes once more before the plaintext is appended.  A
flush or a feed may park, so that other tealets run, and may raise whatever is thrown in there.  Of
the writing tealet the reading one sees only what its own operations come to, so a `Reading` is any
sequence of these.

What `sslobj.read` has returned to a call that is parked in the last flush counts when that flush is
over.
-/

namespace Pytealet.Streams

open Lib.Transition List

/-- The exceptions that `_read_some` and `_retry` tell apart. -/
inductive SslExn (ε : Type*)
  /-- `ssl.SSLZeroReturnError` -/
  | zeroReturn
  | wantRead
  | other (e : ε)
  deriving DecidableEq, Repr

/-- A call of `_retry(self._sslobj.read, n)`. -/
inductive Retry (ε : Type*)
  /-- `sslobj.read` returns. -/
  | data (bytes : List UInt8)
  /-- It raises neither of the two wants. -/
  | raises (x : SslExn ε)
  /-- It wants to read, or to write, and `_flush_outgoing` raises. -/
  | flushRaises (x : SslExn ε)
  /-- It wants to read, and the incoming BIO is at its end. -/
  | incomingEof
  /-- It wants to read, and `_feed_incoming` raises. -/
  | feedRaises (x : SslExn ε)
  /-- It wants to read; the BIOs are flushed and fed. -/
  | wantRead (next : Retry ε)
  /-- It wants to write; the outgoing BIO is flushed. -/
  | wantWrite (next : Retry ε)
  deriving DecidableEq, Repr

/-- A call of `_append_next_chunk`: the retries, and what the flush after them raises. -/
structure Reading (ε : Type*) where
  retry : Retry ε
  flush : Option (SslExn ε) := none
  deriving DecidableEq, Repr

namespace Retry

variable {ε : Type*}

/-- `_retry` -/
def result : Retry ε → Except (SslExn ε) (List UInt8)
  | .data bytes => .ok bytes
  | .raises x => .error x
  | .flushRaises x => .error x
  | .incomingEof => .error .wantRead
  | .feedRaises x => .error x
  | .wantRead next => next.result
  | .wantWrite next => next.result

/-- The bytes that `sslobj.read` has returned. -/
def decrypted : Retry ε → List UInt8
  | .data bytes => bytes
  | .wantRead next => next.decrypted
  | .wantWrite next => next.decrypted
  | _ => []

theorem decrypted_eq (r : Retry ε) : r.decrypted = match r.result with
    | .ok bytes => bytes
    | .error _ => [] := by
  induction r with
  | wantRead next ih => exact ih
  | wantWrite next ih => exact ih
  | _ => rfl

end Retry

namespace Reading

variable {ε : Type*}

/-- `_read_some`, and whether it has set `_tls_eof` -/
def readSome (r : Reading ε) : Except (SslExn ε) (List UInt8) × Bool :=
  match r.retry.result with
  | .error .zeroReturn =>
    match r.flush with
    | some x => (.error x, true)
    | none => (.ok [], true)
  | .error x => (.error x, false)
  | .ok data =>
    match r.flush with
    | some x => (.error x, false)
    | none => if data = [] then (.ok [], true) else (.ok data, false)

/-- `_append_next_chunk` -/
def appended (r : Reading ε) : Appended (SslExn ε) :=
  match r.readSome with
  | (.error x, eof) => .raised x eof
  | (.ok chunk, _) => if chunk = [] then .ended else .grew chunk

/-- The flush raises after `sslobj.read` has returned plaintext. -/
def Drops (r : Reading ε) : Prop :=
  r.retry.decrypted ≠ [] ∧ r.flush ≠ none

instance (r : Reading ε) : Decidable r.Drops :=
  decidable_of_iff (r.retry.decrypted ≠ [] ∧ r.flush.isSome)
    (by unfold Drops; rw [Option.isSome_iff_ne_none])

theorem chunk_eq (r : Reading ε) : r.appended.chunk = if r.flush = none then r.retry.decrypted else [] := by
  rw [r.retry.decrypted_eq]
  unfold appended readSome
  cases r.retry.result with
  | error x =>
    cases x with
    | zeroReturn => cases r.flush <;> rfl
    | wantRead => cases r.flush <;> rfl
    | other e => cases r.flush <;> rfl
  | ok data =>
    cases r.flush with
    | none =>
      by_cases hdata : data = []
      · simp [hdata, Appended.chunk]
      · simp [hdata, Appended.chunk]
    | some x => rfl

theorem chunk_of_drops {r : Reading ε} (h : r.Drops) : r.appended.chunk = [] := by
  rw [chunk_eq, if_neg h.2]

theorem chunk_of_not {r : Reading ε} (h : ¬ r.Drops) : r.appended.chunk = r.retry.decrypted := by
  rw [chunk_eq]
  split
  · rfl
  · rename_i hflush
    by_contra hne
    exact h ⟨fun hnil => hne hnil.symm, hflush⟩

end Reading

namespace SslStream

variable {ε : Type*}

def read (n : Int) (s : ChunkBuffer) (readings : List (Reading ε)) :
    Outcome (SslExn ε) Reply × ChunkBuffer × List (Reading ε) :=
  ChunkBuffer.read Reading.appended n s readings

def readinto (view : List UInt8) (s : ChunkBuffer) (readings : List (Reading ε)) :
    Outcome (SslExn ε) Reply × ChunkBuffer × List (Reading ε) :=
  ChunkBuffer.readinto Reading.appended view s readings

def readexactly (n : Int) (s : ChunkBuffer) (readings : List (Reading ε)) :
    Outcome (SslExn ε) Reply × ChunkBuffer × List (Reading ε) :=
  ChunkBuffer.readexactly Reading.appended n s readings

def readline (limit : Int) (s : ChunkBuffer) (readings : List (Reading ε)) :
    Outcome (SslExn ε) Reply × ChunkBuffer × List (Reading ε) :=
  ChunkBuffer.readline Reading.appended limit s readings

def call (limit : Int) (c : Call) (s : ChunkBuffer) (readings : List (Reading ε)) :
    Outcome (SslExn ε) Reply × ChunkBuffer × List (Reading ε) :=
  match c with
  | .read n => read n s readings
  | .readinto view => readinto view s readings
  | .readexactly n => readexactly n s readings
  | .readline => readline limit s readings

theorem call_eq (limit : Int) : call (ε := ε) limit = ChunkBuffer.call Reading.appended limit := by
  funext c s readings
  cases c <;> rfl

/-- The bytes that have been handed over and those left in the buffer are those that `sslobj.read`
has returned. -/
def Keeps (s : Session (SslExn ε) (Reading ε)) : Prop :=
  s.returned ++ s.buffer.unread = s.used.flatMap fun r => r.retry.decrypted

instance (s : Session (SslExn ε) (Reading ε)) : Decidable (Keeps s) := by
  unfold Keeps
  infer_instance

theorem flatMap_eq_iff (used : List (Reading ε)) :
    (used.flatMap fun r => r.appended.chunk) = (used.flatMap fun r => r.retry.decrypted) ↔
      ∀ r ∈ used, ¬ r.Drops := by
  have hle : ∀ l : List (Reading ε),
      (l.flatMap fun r => r.appended.chunk).length ≤ (l.flatMap fun r => r.retry.decrypted).length := by
    intro l
    induction l with
    | nil => exact le_rfl
    | cons r l ih =>
      rw [flatMap_cons, flatMap_cons, length_append, length_append]
      refine Nat.add_le_add ?_ ih
      by_cases hdrops : r.Drops
      · rw [Reading.chunk_of_drops hdrops]
        exact Nat.zero_le _
      · rw [Reading.chunk_of_not hdrops]
  induction used with
  | nil => simp
  | cons r used ih =>
    rw [flatMap_cons, flatMap_cons, forall_mem_cons]
    refine Iff.trans ?_ (and_congr_right' ih)
    by_cases hdrops : r.Drops
    · -- what has been dropped is missing in the length
      refine ⟨fun heq => ?_, fun h => absurd hdrops h.1⟩
      have hlength := congrArg List.length heq
      rw [Reading.chunk_of_drops hdrops, nil_append, length_append] at hlength
      have hpos := length_pos_iff.2 hdrops.1
      have := hle used
      omega
    · rw [Reading.chunk_of_not hdrops, append_cancel_left_eq]
      exact ⟨fun heq => ⟨hdrops, heq⟩, fun h => h.2⟩

/-- No decrypted byte is lost in a run if and only if no flush raises after `sslobj.read` has
returned plaintext. -/
theorem ssl_keeps_iff (limit : Int) (readings : List (Reading ε)) (calls : List Call) :
    Always (Session.step (call limit)) Keeps { inputs := readings } calls ↔
      Always (Session.step (call limit)) (fun s => ∀ r ∈ s.used, ¬ r.Drops)
        { inputs := readings } calls := by
  rw [call_eq]
  refine (Session.returned_append_unread Reading.appended limit readings calls).congr fun s h => ?_
  unfold Keeps
  rw [h]
  exact flatMap_eq_iff s.used

/-- The flush after a read is cancelled: the two bytes that had been decrypted are gone. -/
theorem cancelled_flush_loses_plaintext : ∃ s : Session (SslExn String) (Reading String),
    exec (Session.step (call 8))
      { inputs := [⟨.data [104, 105], some (.other "cancelled")⟩, ⟨.data [33], none⟩] }
        [.read 3, .read 3] = some s ∧
      s.returned ++ s.buffer.unread = [33] ∧ (s.used.flatMap fun r => r.retry.decrypted) = [104, 105, 33] ∧
      ¬ Keeps s :=
  ⟨_, rfl, rfl, rfl, by decide⟩

end SslStream

end Pytealet.Streams
