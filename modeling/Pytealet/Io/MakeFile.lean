import Mathlib.Data.List.Basic
import Pytealet.Lib.Transition

/-!
# MakeFile — the descriptor of a socket and the streams over it

`makefile` opens a raw stream that counts as a reference to the socket, and may wrap it.  `close`
releases the descriptor if no stream is open, or else the stream that is closed last does.  That
stream does not look at the count: `_decref_socketios` calls `_real_close` whenever the socket has
been closed.

A descriptor is released when it is closed, or when its close has been queued behind a send that is
in flight.
-/

namespace Pytealet.Io.MakeFile

open Lib Lib.Transition List

inductive Kind
  | raw
  | reader
  | writer
  | pair
  deriving DecidableEq, Repr

/-- `_SocketRaw`, with what `makefile` puts over it; `_sock` is `None` when it is closed. -/
structure Stream where
  kind : Kind
  closed : Bool := false
  /-- it was opened when the descriptor had been released -/
  late : Bool
  deriving DecidableEq, Repr

structure State where
  /-- of the real socket, `none` for -1 -/
  fileno : Option Nat
  closed : Bool := false
  ioRefs : Nat := 0
  streams : List Stream := []
  /-- closes that wait until a send is over -/
  queued : Nat := 0
  /-- the descriptors that were closed -/
  closes : List Nat := []
  /-- the descriptor was given to the caller of `detach` -/
  detached : Bool := false
  deriving DecidableEq, Repr

namespace State

def released (s : State) : Bool :=
  !s.closes.isEmpty || decide (0 < s.queued)

/-- `_real_close`; `defers` says that a send is in flight. -/
def realClose (s : State) (defers : Bool) : State :=
  match s.fileno with
  | none => s
  | some fd =>
    if defers then { s with queued := s.queued + 1 } else
      { s with fileno := none, closes := s.closes ++ [fd] }

def decrefSocketios (s : State) (defers : Bool) : State :=
  let s₁ := if 0 < s.ioRefs then { s with ioRefs := s.ioRefs - 1 } else s
  if s₁.closed then s₁.realClose defers else s₁

def close (s : State) (defers : Bool) : State :=
  let s₁ := { s with closed := true }
  if 0 < s₁.ioRefs then s₁ else s₁.realClose defers

def detach (s : State) : State :=
  { s with closed := true, fileno := none, detached := s.detached || s.fileno.isSome }

/-- `_SocketRaw.__init__` -/
def openRaw (s : State) (kind : Kind) : State :=
  { s with ioRefs := s.ioRefs + 1, streams := s.streams ++ [{ kind, late := s.released }] }

/-- `_SocketRaw.close` -/
def closeRaw (s : State) (i : Nat) (defers : Bool) : State :=
  match s.streams[i]? with
  | none => s
  | some r =>
    if r.closed then s else
      { s with streams := s.streams.set i { r with closed := true } }.decrefSocketios defers

/-- Closing what `makefile` has returned; a pair closes its raw stream as writer and as reader. -/
def closeStream (s : State) (i : Nat) (defers : Bool) : State :=
  match s.streams[i]?.map Stream.kind with
  | some .pair => (s.closeRaw i defers).closeRaw i defers
  | _ => s.closeRaw i defers

end State

/-- What a raw stream of this mode and size is wrapped in. -/
def kindOf (mode : String) (buffering : Option Int) : Kind :=
  let writing := 'w' ∈ mode.toList
  let reading := 'r' ∈ mode.toList ∨ ¬ writing
  if buffering = some 0 then .raw
  else if reading ∧ writing then .pair
  else if reading then .reader
  else .writer

def validMode (mode : String) : Bool :=
  mode.toList.all fun c => c = 'r' || c = 'w' || c = 'b'

/-- The mode and the size that `makefile` refuses once it has opened the raw stream. -/
def refused (mode : String) (buffering : Option Int) : Bool :=
  decide (buffering = some 0) && !decide ('b' ∈ mode.toList)

/-- When the wrapper raises, the raw stream is open until its finalizer closes it. -/
def State.makefile (s : State) (mode : String) (buffering : Option Int) (defers : Bool) : State :=
  if validMode mode then
    let s₁ := s.openRaw (kindOf mode buffering)
    if refused mode buffering then s₁.closeRaw s.streams.length defers else s₁
  else s

inductive Action
  | makefile (mode : String) (buffering : Option Int) (defers : Bool)
  | closeStream (i : Nat) (defers : Bool)
  | close (defers : Bool)
  | detach
  /-- a close that was queued is made -/
  | drain
  deriving DecidableEq, Repr

def step (s : State) : Action → Option State
  | .makefile mode buffering defers => some (s.makefile mode buffering defers)
  | .closeStream i defers => some (s.closeStream i defers)
  | .close defers => some (s.close defers)
  | .detach => some s.detach
  | .drain => if 0 < s.queued then some ({ s with queued := s.queued - 1 }.realClose false) else none

def init (fd : Nat) : State where
  fileno := some fd

/-! ## The property -/

/-- The streams that count: those opened before the descriptor was released. -/
def State.AllClosed (s : State) : Prop :=
  ∀ r ∈ s.streams, r.late = false → r.closed = true

/-- The descriptor is closed once, when the socket and its streams are. -/
structure Accounted (s : State) : Prop where
  /-- the descriptor stays open while the socket or a stream is open -/
  stays : s.released = true → s.closed = true ∧ s.AllClosed
  once : s.closes.length ≤ 1
  /-- it is released as soon as all are closed, if it was not detached -/
  last : s.closed = true → s.AllClosed → s.detached = true ∨ s.released = true
  detached : s.detached = true → s.closes = []

/-- The streams that are open. -/
def State.opens (s : State) : Nat :=
  s.streams.countP fun r => !r.closed

/-- A stream that is closed after the socket is the last one. -/
def Last (s : State) : Action → Prop
  | .makefile mode buffering _ =>
    validMode mode = true → refused mode buffering = true → s.closed = true → s.fileno.isSome = true →
      s.released = false → s.opens = 0
  | .closeStream i _ =>
    (s.streams[i]?.map Stream.closed) = some false → s.closed = true → s.fileno.isSome = true →
      s.released = false → s.opens ≤ 1
  | _ => True

instance (s : State) : ∀ a, Decidable (Last s a)
  | .makefile _ _ _ => inferInstanceAs (Decidable (_ → _))
  | .closeStream _ _ => inferInstanceAs (Decidable (_ → _))
  | .close _ => isTrue trivial
  | .detach => isTrue trivial
  | .drain => isTrue trivial

/-! ## The invariant -/

/-- What holds also while a close is on its way. -/
structure Core (s : State) : Prop where
  stays : s.released = true → s.closed = true ∧ s.AllClosed
  once : s.closes.length ≤ 1
  detached : s.detached = true → s.closes = []
  refs : s.ioRefs = s.opens
  gone : s.fileno = none ↔ s.closes ≠ [] ∨ s.detached = true
  late : ∀ r ∈ s.streams, r.late = true → s.detached = true ∨ s.released = true

structure Inv (s : State) : Prop extends Core s where
  last : s.closed = true → s.AllClosed → s.detached = true ∨ s.released = true

variable {s s' : State} {i : Nat} {r : Stream}

theorem Inv.accounted (h : Inv s) : Accounted s :=
  ⟨h.stays, h.once, h.last, h.detached⟩

theorem released_iff (s : State) : s.released = true ↔ s.closes ≠ [] ∨ 0 < s.queued := by
  simp [State.released]

theorem allClosed_of_opens (h : s.opens = 0) : s.AllClosed := by
  intro r hr _
  have hr' := countP_eq_zero.mp h r hr
  simpa using hr'

/-- A stream is closed, and its reference goes. -/
def State.drop (s : State) (i : Nat) (r : Stream) : State :=
  { s with streams := s.streams.set i { r with closed := true }, ioRefs := s.ioRefs - 1 }

theorem opens_drop (hi : s.streams[i]? = some r) (hr : r.closed = false) :
    (s.drop i r).opens + 1 = s.opens := by
  rcases List.getElem?_eq_some_iff.mp hi with ⟨hlt, heq⟩
  have hopen : (!(s.streams[i]).closed) = true := by
    rw [heq, hr]
    rfl
  have hpos : 0 < s.streams.countP fun r => !r.closed :=
    countP_pos_iff.mpr ⟨_, getElem_mem hlt, hopen⟩
  simp only [State.opens, State.drop, countP_set hlt, hopen, if_true]
  simp only [Bool.not_true, Bool.false_eq_true, if_false]
  omega

@[simp] theorem streams_realClose (s : State) (defers : Bool) :
    (s.realClose defers).streams = s.streams := by
  unfold State.realClose
  split
  · rfl
  · split <;> rfl

theorem closeRaw_eq (hi : s.streams[i]? = some r) (hr : r.closed = false)
    (hrefs : 0 < s.ioRefs) (defers : Bool) :
    s.closeRaw i defers = if s.closed then (s.drop i r).realClose defers else s.drop i r := by
  unfold State.closeRaw State.decrefSocketios
  rw [hi]
  dsimp only
  rw [hr, if_neg Bool.false_ne_true, if_pos hrefs]
  rfl

theorem closeRaw_of_closed (h : s.streams[i]?.map Stream.closed ≠ some false) (defers : Bool) :
    s.closeRaw i defers = s := by
  unfold State.closeRaw
  cases hi : s.streams[i]? with
  | none => rfl
  | some r =>
    have hr : r.closed = true := by
      rw [hi] at h
      simpa using h
    dsimp only
    rw [if_pos hr]

theorem closeStream_eq (hrefs : s.ioRefs = s.opens) (i : Nat) (defers : Bool) :
    s.closeStream i defers = s.closeRaw i defers := by
  unfold State.closeStream
  split
  · apply closeRaw_of_closed
    cases hi : s.streams[i]? with
    | none =>
      have hsame : s.closeRaw i defers = s := closeRaw_of_closed (by simp [hi]) defers
      rw [hsame, hi]
      exact nofun
    | some r =>
      cases hr : r.closed with
      | true =>
        have hsame : s.closeRaw i defers = s := closeRaw_of_closed (by simp [hi, hr]) defers
        rw [hsame, hi]
        simp [hr]
      | false =>
        have hpos : 0 < s.ioRefs := by
          rw [hrefs, ← opens_drop hi hr]
          exact Nat.succ_pos _
        have hlt := (List.getElem?_eq_some_iff.mp hi).1
        rw [closeRaw_eq hi hr hpos]
        split <;> simp [State.drop, hlt]
  · rfl

namespace Core

theorem realClose (h : Core s) (hclosed : s.closed = true)
    (hopens : s.fileno.isSome = true → s.released = false → s.opens = 0) (defers : Bool) :
      Inv (s.realClose defers) := by
  unfold State.realClose
  cases hfileno : s.fileno with
  | none =>
    refine ⟨h, fun _ _ => ?_⟩
    rcases h.gone.mp hfileno with hcloses | hdetached
    · exact .inr ((released_iff s).mpr (.inl hcloses))
    · exact .inl hdetached
  | some fd =>
    have hhere : ¬ (s.closes ≠ [] ∨ s.detached = true) := by
      rw [← h.gone, hfileno]
      exact nofun
    rcases not_or.mp hhere with ⟨hcloses, hdetached⟩
    have hall : s.AllClosed := by
      cases hreleased : s.released with
      | true => exact (h.stays hreleased).2
      | false => exact allClosed_of_opens (hopens (hfileno ▸ rfl) hreleased)
    dsimp only
    split
    · have hreleased : ({ s with queued := s.queued + 1 } : State).released = true :=
        (released_iff _).mpr (.inr (Nat.succ_pos _))
      refine ⟨⟨fun _ => ⟨hclosed, hall⟩, h.once, h.detached, h.refs, ?_, fun _ _ _ => .inr hreleased⟩,
        fun _ _ => .inr hreleased⟩
      simpa [hfileno] using h.gone
    · have hreleased : ({ s with fileno := none, closes := s.closes ++ [fd] } : State).released = true :=
        (released_iff _).mpr (.inl (by simp))
      refine ⟨⟨fun _ => ⟨hclosed, hall⟩, ?_, fun hd => absurd hd hdetached, h.refs, ?_,
        fun _ _ _ => .inr hreleased⟩,
        fun _ _ => .inr hreleased⟩
      · rw [not_not.mp hcloses]
        exact Nat.le_refl 1
      · simp

theorem not_accounted (h : Core s) (hsome : s.fileno.isSome = true) (hreleased : s.released = false)
    (hopens : 0 < s.opens)
    (defers : Bool) : ¬ Accounted (s.realClose defers) := by
  intro hacc
  rcases Option.isSome_iff_exists.mp hsome with ⟨fd, hfileno⟩
  have hafter : (s.realClose defers).released = true := by
    rw [released_iff]
    unfold State.realClose
    rw [hfileno]
    dsimp only
    split
    · exact .inr (Nat.succ_pos _)
    · exact .inl (by simp)
  rcases countP_pos_iff.mp hopens with ⟨r, hr, hopen⟩
  have hlate : r.late = false := by
    cases hlate : r.late with
    | false => rfl
    | true =>
      rcases h.late r hr hlate with hdetached | hbefore
      · have hnone := h.gone.mpr (.inr hdetached)
        rw [hfileno] at hnone
        cases hnone
      · rw [hreleased] at hbefore
        cases hbefore
  have hclosed := (hacc.stays hafter).2 r (by rwa [streams_realClose]) hlate
  rw [hclosed] at hopen
  cases hopen

end Core

namespace Inv

theorem close (h : Inv s) (defers : Bool) : Inv (s.close defers) := by
  have hcore : Core { s with closed := true } :=
    ⟨fun hr => ⟨rfl, (h.stays hr).2⟩, h.once, h.detached, h.refs, h.gone, h.late⟩
  unfold State.close
  dsimp only
  split
  · rename_i hrefs
    refine ⟨hcore, fun _ hall => ?_⟩
    -- one of the streams that are open was opened late
    have hopens : 0 < s.opens := h.refs ▸ hrefs
    rcases countP_pos_iff.mp hopens with ⟨r, hr, hopen⟩
    cases hlate : r.late with
    | true => exact h.late r hr hlate
    | false =>
      rw [hall r hr hlate] at hopen
      cases hopen
  · rename_i hrefs
    refine hcore.realClose rfl (fun _ _ => ?_) defers
    exact h.refs.symm.trans (Nat.le_zero.mp (Nat.not_lt.mp hrefs))

theorem drop (h : Inv s) (hi : s.streams[i]? = some r) (hr : r.closed = false) : Core (s.drop i r) := by
  have hopens := opens_drop hi hr
  refine ⟨fun hreleased => ?_, h.once, h.detached, ?_, h.gone, ?_⟩
  · rcases h.stays hreleased with ⟨hclosed, hall⟩
    refine ⟨hclosed, fun r' hr' hlate => ?_⟩
    rcases mem_or_eq_of_mem_set hr' with hr' | rfl
    · exact hall r' hr' hlate
    · rfl
  · calc
      s.ioRefs - 1 = s.opens - 1 := by rw [h.refs]
      _ = (s.drop i r).opens := by
        rw [← hopens]
        rfl
  · intro r' hr' hlate
    rcases mem_or_eq_of_mem_set hr' with hr' | rfl
    · exact h.late r' hr' hlate
    · exact h.late r (mem_of_getElem? hi) hlate

theorem pos (h : Inv s) (hi : s.streams[i]? = some r) (hr : r.closed = false) : 0 < s.ioRefs := by
  rw [h.refs, ← opens_drop hi hr]
  exact Nat.succ_pos _

theorem closeRaw (h : Inv s) (i : Nat) (defers : Bool)
    (hlast : s.streams[i]?.map Stream.closed = some false → s.closed = true → s.fileno.isSome = true →
      s.released = false → s.opens ≤ 1) : Inv (s.closeRaw i defers) := by
  by_cases hopen : s.streams[i]?.map Stream.closed = some false
  · rcases Option.map_eq_some_iff.mp hopen with ⟨r, hi, hr⟩
    rw [closeRaw_eq hi hr (h.pos hi hr)]
    split
    · rename_i hclosed
      refine (h.drop hi hr).realClose hclosed (fun hsome hreleased => ?_) defers
      have hle : s.opens ≤ 1 := hlast hopen hclosed hsome hreleased
      have hopens := opens_drop hi hr
      omega
    · rename_i hclosed
      exact ⟨h.drop hi hr, fun hc => absurd hc hclosed⟩
  · rw [closeRaw_of_closed hopen]
    exact h

theorem closeRaw_breaks (h : Inv s) (i : Nat) (defers : Bool)
    (hlast : ¬ (s.streams[i]?.map Stream.closed = some false → s.closed = true → s.fileno.isSome = true →
      s.released = false → s.opens ≤ 1)) : ¬ Accounted (s.closeRaw i defers) := by
  push Not at hlast
  rcases hlast with ⟨hopen, hclosed, hsome, hreleased, hmore⟩
  rcases Option.map_eq_some_iff.mp hopen with ⟨r, hi, hr⟩
  have hopens := opens_drop hi hr
  rw [closeRaw_eq hi hr (h.pos hi hr), if_pos hclosed]
  exact (h.drop hi hr).not_accounted hsome hreleased (by omega) defers

theorem openRaw (h : Inv s) (kind : Kind) : Inv (s.openRaw kind) := by
  refine ⟨⟨fun hreleased => ?_, h.once, h.detached, ?_, h.gone, ?_⟩, fun hclosed hall => ?_⟩
  · rcases h.stays hreleased with ⟨hclosed, hall⟩
    refine ⟨hclosed, fun r hr hlate => ?_⟩
    rcases mem_append.mp hr with hr | hr
    · exact hall r hr hlate
    · -- it was opened late
      cases mem_singleton.mp hr
      have hnot : s.released = false := hlate
      have hyes : s.released = true := hreleased
      rw [hnot] at hyes
      cases hyes
  · simp [State.openRaw, State.opens, h.refs]
  · intro r hr hlate
    rcases mem_append.mp hr with hr | hr
    · exact h.late r hr hlate
    · cases mem_singleton.mp hr
      exact .inr hlate
  · exact h.last hclosed fun r hr hlate => hall r (mem_append_left _ hr) hlate

theorem detach (h : Inv s) : Inv s.detach := by
  have hgone : s.fileno = none → s.closes ≠ [] ∨ s.detached = true := h.gone.mp
  refine ⟨⟨fun hreleased => ⟨rfl, (h.stays hreleased).2⟩, h.once, ?_, h.refs, ?_, ?_⟩, ?_⟩
  · intro hdetached
    cases hfileno : s.fileno with
    | none =>
      apply h.detached
      simpa [State.detach, hfileno] using hdetached
    | some fd =>
      have hhere : ¬ (s.closes ≠ [] ∨ s.detached = true) := by
        rw [← h.gone, hfileno]
        exact nofun
      exact not_not.mp (not_or.mp hhere).1
  · cases hfileno : s.fileno with
    | none =>
      simpa [State.detach, hfileno] using hgone hfileno
    | some fd => simp [State.detach, hfileno]
  · intro r hr hlate
    rcases h.late r hr hlate with hdetached | hreleased
    · exact .inl (by simp [State.detach, hdetached])
    · exact .inr hreleased
  · intro _ _
    cases hfileno : s.fileno with
    | none =>
      rcases hgone hfileno with hcloses | hdetached
      · exact .inr ((released_iff _).mpr (.inl hcloses))
      · exact .inl (by simp [State.detach, hdetached])
    | some fd => exact .inl (by simp [State.detach, hfileno])

theorem drain (h : Inv s) (hqueued : 0 < s.queued) :
    Inv ({ s with queued := s.queued - 1 }.realClose false) := by
  have hreleased : s.released = true := (released_iff s).mpr (.inr hqueued)
  rcases h.stays hreleased with ⟨hclosed, hall⟩
  unfold State.realClose
  cases hfileno : s.fileno with
  | none =>
    -- it was closed or detached in the meantime
    have hgone : s.detached = true ∨ ({ s with queued := s.queued - 1 } : State).released = true := by
      rcases h.gone.mp hfileno with hcloses | hdetached
      · exact .inr ((released_iff _).mpr (.inl hcloses))
      · exact .inl hdetached
    have hsame : Inv { s with queued := s.queued - 1 } :=
      ⟨⟨fun _ => ⟨hclosed, hall⟩, h.once, h.detached, h.refs, h.gone, fun _ _ _ => hgone⟩, fun _ _ => hgone⟩
    simpa [hfileno] using hsame
  | some fd =>
    have hhere : ¬ (s.closes ≠ [] ∨ s.detached = true) := by
      rw [← h.gone, hfileno]
      exact nofun
    rcases not_or.mp hhere with ⟨hcloses, hdetached⟩
    have hafter : ({ s with fileno := none, queued := s.queued - 1, closes := s.closes ++ [fd] } :
        State).released = true :=
      (released_iff _).mpr (.inl (by simp))
    refine ⟨⟨fun _ => ⟨hclosed, hall⟩, ?_, fun hd => absurd hd hdetached, h.refs, ?_,
      fun _ _ _ => .inr hafter⟩,
      fun _ _ => .inr hafter⟩
    · simp [not_not.mp hcloses]
    · simp

end Inv

/-! ## Steps -/

theorem last_refused (kind : Kind) :
    ((s.openRaw kind).streams[s.streams.length]?.map Stream.closed = some false → s.closed = true →
      s.fileno.isSome = true → s.released = false → (s.openRaw kind).opens ≤ 1) ↔
    (s.closed = true → s.fileno.isSome = true → s.released = false → s.opens = 0) := by
  simp [State.openRaw, State.opens]

/-- The close that is the last one releases the descriptor. -/
theorem Inv.step {a : Action} (h : Inv s) (hlast : Last s a) (hs : MakeFile.step s a = some s') :
    Inv s' := by
  cases a with
  | makefile mode buffering defers =>
    cases hs
    unfold State.makefile
    split
    · rename_i hvalid
      dsimp only
      split
      · rename_i hrefused
        exact (h.openRaw _).closeRaw _ defers ((last_refused _).mpr (hlast hvalid hrefused))
      · exact h.openRaw _
    · exact h
  | closeStream i defers =>
    cases hs
    rw [closeStream_eq h.refs]
    exact h.closeRaw i defers hlast
  | close defers =>
    cases hs
    exact h.close defers
  | detach =>
    cases hs
    exact h.detach
  | drain =>
    simp only [MakeFile.step] at hs
    split at hs
    · rename_i hqueued
      cases hs
      exact h.drain hqueued
    · cases hs

theorem Inv.breaks {a : Action} (h : Inv s) (hlast : ¬ Last s a) (hs : MakeFile.step s a = some s') :
    ¬ Accounted s' := by
  cases a with
  | makefile mode buffering defers =>
    cases hs
    simp only [Last, not_forall] at hlast
    rcases hlast with ⟨hvalid, hrefused, hlast⟩
    unfold State.makefile
    rw [if_pos hvalid]
    dsimp only
    rw [if_pos hrefused]
    refine (h.openRaw _).closeRaw_breaks _ defers fun hle => ?_
    have hzero := (last_refused _).mp hle
    simp only [exists_prop] at hlast
    rcases hlast with ⟨hclosed, hsome, hreleased, hopens⟩
    exact hopens (hzero hclosed hsome hreleased)
  | closeStream i defers =>
    cases hs
    rw [closeStream_eq h.refs]
    exact h.closeRaw_breaks i defers hlast
  | _ => exact absurd trivial hlast

theorem Inv.init (fd : Nat) : Inv (init fd) := by
  refine ⟨⟨nofun, Nat.zero_le _, nofun, rfl, ?_, fun r hr => absurd hr not_mem_nil⟩, nofun⟩
  simp [MakeFile.init]

/-- The descriptor is released once, by what is closed last, in exactly those runs in which a stream
that is closed after the socket is the last one that is open. -/
theorem released_by_last (fd : Nat) (run : List Action) :
    Always step Accounted (init fd) run ↔ Along step Last (init fd) run :=
  always_iff_along (I := Inv) (fun _ h => h.accounted) (fun _ _ _ h hlast hs => h.step hlast hs)
    (fun _ _ _ h hlast hs => h.breaks hlast hs) run _ (Inv.init fd)

/-- Two streams, of which the first takes the descriptor from the second. -/
theorem taken_from_stream : ¬ Always step Accounted (init 7)
    [.makefile "rb" none false, .makefile "wb" none false, .close false, .closeStream 0 false] := by
  intro h
  have hlost := (((h.next rfl).next rfl).next rfl).next rfl
  have hall := (hlost.head.stays rfl).2
  exact absurd (hall ⟨.writer, false, false⟩ (by decide) rfl) (by decide)

end Pytealet.Io.MakeFile
