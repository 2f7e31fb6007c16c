import Pytealet.Io.SendCloseRuns

/-!
# Shutdown — closing a stream

`shutdown_stream_writer` closes a stream and then waits until it is closed.  At the bottom of a
stream is a `StreamWriter` over a send buffer, with its reader; over it stand any number of
`SSLStream`s, each of which has the stream below it for its inner pair.  `wait_closed` of the bottom
writer chooses between three ways to close the socket: behind the bytes it has stolen, by the leg
that is under way, or at once.

A call that is under way is a stack of frames, as for the send buffer, whose other calls,
completions and errors come in between.  An exception may be raised or thrown before a frame has
done its work or after it; what a frame raises by itself is the sticky error of the buffer.
-/

namespace Pytealet.Streams.Shutdown

open Io Lib Lib.Transition List

/-- The classes of exceptions that the code tests for. -/
structure Kinds (ε : Type*) extends SendBuffer.Errors ε where
  /-- `ssl.SSLError` and its subclasses -/
  isSSLError : ε → Bool
  isException : ε → Bool

/-- The flags of an `SSLStream`. -/
structure Tls where
  closing : Bool := false
  closed : Bool := false
  unwrapped : Bool := false
  deriving DecidableEq, Repr

/-- Where a call goes on; `i` is the level of an `SSLStream`, which stands over the stream of level
`i`. -/
inductive Frame (β : Type*)
  /-- `close` of the reader of the bottom pair -/
  | recvClose
  /-- `WriterCore.close` -/
  | coreClose
  | tlsClose (i : Nat)
  /-- the one-shot `unwrap` of `SSLStream.close` -/
  | tlsUnwrap (i : Nat)
  /-- `_flush_outgoing` of `SSLStream.close` -/
  | tlsFlush (i : Nat)
  | tlsWait (i : Nat)
  /-- the `try` of `SSLStream.wait_closed` -/
  | tlsTry (i : Nat)
  /-- after its `except OSError` -/
  | tlsWaited (i : Nat)
  /-- `WriterCore.wait_closed` -/
  | coreWait
  | steal
  | sendClose (data : List β)
  | arm
  | sockClose
  /-- `_closed` of the core is set last -/
  | coreClosed
  deriving DecidableEq, Repr

inductive Caller
  | close
  | waitClosed
  | shutdown (bestEffort : Bool)
  deriving DecidableEq, Repr

def Caller.closes : Caller → Bool
  | .close | .shutdown _ => true
  | .waitClosed => false

def Caller.waits : Caller → Bool
  | .waitClosed | .shutdown _ => true
  | .close => false

/-- What leaves the call when `e` leaves its frames. -/
def Caller.raises {ε : Type*} (x : Kinds ε) (e : ε) : Caller → Option ε
  | .close | .waitClosed => some e
  | .shutdown bestEffort =>
    if x.isOSError e then none
    else if x.isException e && bestEffort then none
    else some e

structure Call (β ε : Type*) where
  caller : Caller
  frames : List (Frame β)
  /-- what the call has raised -/
  raised : Option ε := none
  deriving DecidableEq, Repr

structure State (β ε : Type*) where
  /-- the send buffer, its other calls and the socket -/
  out : SendBuffer.State β ε
  /-- the `StreamWriter` has a reader -/
  paired : Bool
  /-- `_closed` of the receive buffer -/
  readerClosed : Bool := false
  /-- `_closing` and `_closed` of the `WriterCore` -/
  closing : Bool := false
  closed : Bool := false
  tls : List Tls
  /-- the number of legs under way when `arm_close_when_idle` armed the buffer -/
  armed : Option Nat := none
  calls : List (Call β ε) := []
  deriving DecidableEq, Repr

/-- What happens at a frame: it does its work, or an exception comes before or after. -/
inductive Reply (ε : Type*)
  | ok
  | raises (e : ε)
  | late (e : ε)
  deriving DecidableEq, Repr

inductive Action (β ε : Type*)
  /-- a call of the stream of level `i` begins -/
  | call (caller : Caller) (i : Nat)
  | go (k : Nat) (reply : Reply ε)
  /-- what happens to the send buffer meanwhile -/
  | other (a : SendBuffer.Act β ε)
  /-- a call of `SSLStream.unwrap` ends -/
  | unwrap (i : Nat)
  deriving DecidableEq, Repr

variable {β ε : Type*}

/-- `close` of the stream of level `i`. -/
def closeFrames (paired : Bool) : Nat → List (Frame β)
  | 0 => (if paired then [.recvClose] else []) ++ [.coreClose]
  | i + 1 => [.tlsClose i]

/-- `close` of the reader of the stream of level `i`: an `SSLStream` is its own reader. -/
def readerFrames : Nat → List (Frame β)
  | 0 => [.recvClose]
  | i + 1 => [.tlsClose i]

/-- `wait_closed` of the stream of level `i`. -/
def waitFrames : Nat → List (Frame β)
  | 0 => [.coreWait]
  | i + 1 => [.tlsWait i]

def callFrames (paired : Bool) (i : Nat) : Caller → List (Frame β)
  | .close => closeFrames paired i
  | .waitClosed => waitFrames i
  | .shutdown _ => closeFrames paired i ++ waitFrames i

namespace State

def level (s : State β ε) (i : Nat) : Tls :=
  s.tls.getD i {}

def setLevel (s : State β ε) (i : Nat) (t : Tls) : State β ε :=
  { s with tls := s.tls.set i t }

/-- The work of a frame: the state it leaves and the frames it goes on with, or the exception it
raises by itself. -/
def work (x : Kinds ε) (s : State β ε) : Frame β → Except ε (State β ε × List (Frame β))
  | .recvClose => .ok ({ s with readerClosed := true }, [])
  | .coreClose =>
    if s.closing || s.closed then .ok (s, [])
    else .ok ({ s with closing := true, out := SendBuffer.call x.toErrors s.out .close }, [])
  | .tlsClose i =>
    if (s.level i).closing || (s.level i).closed then .ok (s, [])
    else
      .ok (s.setLevel i { s.level i with closing := true },
        (if (s.level i).unwrapped then [] else [.tlsUnwrap i, .tlsFlush i]) ++
          readerFrames i ++ closeFrames s.paired i)
  | .tlsUnwrap _ | .tlsFlush _ => .ok (s, [])
  | .tlsWait i =>
    if (s.level i).closed then .ok (s, [])
    else .ok (s, (if (s.level i).closing then [] else [.tlsClose i]) ++ [.tlsTry i])
  | .tlsTry i => .ok (s, waitFrames i ++ [.tlsWaited i])
  | .tlsWaited i => .ok (s.setLevel i { s.level i with closed := true }, [])
  | .coreWait =>
    if s.closed then .ok (s, [])
    else .ok (s, (if s.closing then [] else [.coreClose]) ++ [.steal])
  | .steal =>
    match s.out.buf.sendError with
    | some e => .error e
    | none =>
      let data := SendBuffer.stolen s.out.buf
      .ok ({ s with out := SendBuffer.call x.toErrors s.out .stealPending },
        if data = [] then [.arm] else [.sendClose data])
  -- the descriptor is detached at submit, and closed behind the bytes
  | .sendClose _ => .ok ({ s with out := s.out.shut }, [.coreClosed])
  | .arm =>
    match s.out.buf.sendError with
    | some e => .error e
    | none =>
      if s.out.buf.active = false ∧ s.out.buf.held = [] then .ok (s, [.sockClose])
      else
        .ok ({ s with
          out :=
            { s.out with
              buf := (SendBuffer.armSection s.out.buf).buf
              trace := { s.out.trace with armed := true } }
          armed := some s.out.legs }, [.coreClosed])
  | .sockClose => .ok ({ s with out := s.out.shut }, [.coreClosed])
  | .coreClosed => .ok ({ s with closed := true }, [])

end State

/-- `SSLStream.close` goes on after an SSL error of `unwrap` and after an `OSError` of the flush. -/
def Frame.catches (x : Kinds ε) (e : ε) : Frame β → Bool
  | .tlsUnwrap _ => x.isSSLError e
  | .tlsFlush _ => x.isOSError e
  | _ => false

/-- An exception leaves the frames up to the `except OSError` of `SSLStream.wait_closed`. -/
def unwind (x : Kinds ε) (e : ε) : List (Frame β) → List (Frame β)
  | [] => []
  | .tlsWaited i :: rest => if x.isOSError e then .tlsWaited i :: rest else unwind x e rest
  | _ :: rest => unwind x e rest

namespace State

def setCall (s : State β ε) (k : Nat) (c : Call β ε) : State β ε :=
  { s with calls := s.calls.set k c }

/-- The exception `e` comes in call `k`, at frame `f` over `rest`. -/
def raise (x : Kinds ε) (s : State β ε) (k : Nat) (caller : Caller) (f : Frame β) (rest : List (Frame β))
    (e : ε) : State β ε :=
  if f.catches x e then s.setCall k { caller, frames := rest }
  else
    match unwind x e rest with
    | [] => s.setCall k { caller, frames := [], raised := caller.raises x e }
    | g :: frames => s.setCall k { caller, frames := g :: frames }

/-- Call `k`, at frame `f` over `rest`, goes on. -/
def go (x : Kinds ε) (s : State β ε) (k : Nat) (caller : Caller) (f : Frame β) (rest : List (Frame β)) :
    Reply ε → Option (State β ε)
  | .ok =>
    match s.work x f with
    | .ok (s', frames) => some (s'.setCall k { caller, frames := frames ++ rest })
    | .error e => some (s.raise x k caller f rest e)
  | .raises e => some (s.raise x k caller f rest e)
  | .late e =>
    match s.work x f with
    | .ok (s', _) => some (s'.raise x k caller f rest e)
    | .error _ => none

end State

/-- The streams close the buffer themselves. -/
def outside : SendBuffer.Act β ε → Bool
  | .call .close | .call .stealPending | .call .waitClosed => false
  | _ => true

def step (x : Kinds ε) (s : State β ε) : Action β ε → Option (State β ε)
  | .call caller i =>
    if i ≤ s.tls.length then
      some { s with calls := s.calls ++ [{ caller, frames := callFrames s.paired i caller }] }
    else none
  | .go k reply =>
    match s.calls[k]? with
    | some ⟨caller, f :: rest, _⟩ => s.go x k caller f rest reply
    | _ => none
  | .other a =>
    if outside a then (SendBuffer.step x.toErrors s.out a).map fun out => { s with out }
    else none
  | .unwrap i => some (s.setLevel i { s.level i with unwrapped := true })

def init (highWater lowWater : Int) (minWrite : Nat) (paired : Bool) (levels : Nat) : State β ε where
  out := SendBuffer.init highWater lowWater minWrite
  paired := paired
  tls := List.replicate levels {}

/-! ## The property and the condition -/

namespace State

/-- The paired reader has been closed. -/
def readerDone (s : State β ε) : Bool :=
  !s.paired || s.readerClosed

/-- The socket is closed (or its close submitted), or the buffer was armed with a leg under way. -/
def socketDone (s : State β ε) : Bool :=
  !s.out.sockOpen || s.armed == some 1

end State

/-- A call that has ended, in whatever way, has closed the reader if it closes, and has seen to the
socket if it waits. -/
def Released (s : State β ε) : Prop :=
  ∀ c ∈ s.calls, c.frames = [] →
    (c.caller.closes = true → s.readerDone = true) ∧ (c.caller.waits = true → s.socketDone = true)

/-- An exception that comes late finds the reader closed by the frame. -/
def Frame.closesReader (f : Frame β) : Reply ε → Bool
  | .late _ =>
    match f with
    | .recvClose => true
    | _ => false
  | _ => false

namespace State

/-- The step raises past the handlers of `SSLStream.close`: a sticky error, or an exception that
comes. -/
def escapes (x : Kinds ε) (s : State β ε) (f : Frame β) : Reply ε → Bool
  | .ok =>
    match f with
    | .steal | .arm => s.out.buf.sendError.isSome
    | _ => false
  | .raises e | .late e => !f.catches x e

/-- An exception that comes late finds that the frame has seen to the socket. -/
def closesSocket (s : State β ε) (f : Frame β) : Reply ε → Bool
  | .late _ =>
    match f with
    | .sendClose _ | .sockClose => true
    | .arm => s.out.buf.active || !s.out.buf.held.isEmpty
    | _ => false
  | _ => false

/-- `SSLStream.close` finds another one that has not closed the reader yet. -/
def busy (s : State β ε) : Frame β → Bool
  | .tlsClose i => ((s.level i).closing || (s.level i).closed) && !s.readerDone
  | _ => false

/-- No exception leaves a frame before the reader is closed and the socket seen to, and no `close`
of a TLS stream finds another one under way. -/
def Clear (x : Kinds ε) (s : State β ε) : Action β ε → Prop
  | .go k reply =>
    match s.calls[k]? with
    | some ⟨caller, f :: _, _⟩ =>
      (caller.closes = true → s.busy f = false) ∧
        (s.escapes x f reply = true →
          (caller.closes = true → s.readerDone = true ∨ f.closesReader reply = true) ∧
            (caller.waits = true → s.socketDone = true ∨ s.closesSocket f reply = true))
    | _ => True
  | _ => True

instance (x : Kinds ε) (s : State β ε) (a : Action β ε) : Decidable (s.Clear x a) := by
  unfold Clear
  split
  · split <;> infer_instance
  · infer_instance

end State

instance (s : State β ε) : Decidable (Released s) :=
  inferInstanceAs (Decidable (∀ c ∈ s.calls, _))

/-! ## Frames -/

namespace Frame

/-- The reader is closed at this frame, or behind it. -/
def toReader : Frame β → Bool
  | .recvClose | .tlsClose _ => true
  | _ => false

/-- The socket is seen to at this frame, or behind it. -/
def toSocket : Frame β → Bool
  | .tlsWait _ | .tlsTry _ | .coreWait | .steal | .sendClose _ | .arm | .sockClose => true
  | _ => false

/-- The socket has been seen to when the call comes here. -/
def marks : Frame β → Bool
  | .coreClosed | .tlsWaited _ => true
  | _ => false

def waited : Frame β → Bool
  | .tlsWaited _ => true
  | _ => false

/-- The buffer is closed when the call comes here. -/
def needsClosed : Frame β → Bool
  | .steal | .sendClose _ | .arm | .sockClose | .coreClosed => true
  | _ => false

def closesBuffer : Frame β → Bool
  | .coreClose => true
  | _ => false

/-- Behind the frame a call only leaves `wait_closed`. -/
def ofWait (f : Frame β) : Bool :=
  f.toSocket || f.marks

end Frame

/-- Where the frames need a closed buffer it is closed: `p` says that it is closed already. -/
def Guarded (p : Prop) : List (Frame β) → Prop
  | [] => True
  | f :: rest => (f.needsClosed = true → p) ∧ Guarded (p ∨ f.closesBuffer = true) rest

theorem Guarded.mono {p q : Prop} {frames : List (Frame β)} (h : Guarded p frames) (hpq : p → q) :
    Guarded q frames := by
  induction frames generalizing p q with
  | nil => trivial
  | cons f rest ih => exact ⟨fun hf => hpq (h.1 hf), ih h.2 fun hor => hor.imp_left hpq⟩

theorem Guarded.append {p : Prop} {frames rest : List (Frame β)} (h : Guarded p frames)
    (hrest : Guarded p rest) : Guarded p (frames ++ rest) := by
  induction frames generalizing p with
  | nil => exact hrest
  | cons f frames ih => exact ⟨h.1, ih h.2 (hrest.mono .inl)⟩

theorem guarded_of_waited {p : Prop} {frames : List (Frame β)} (h : ∀ f ∈ frames, f.waited = true) :
    Guarded p frames := by
  induction frames generalizing p with
  | nil => trivial
  | cons f rest ih =>
    refine ⟨fun hneeds => ?_, ih fun g hg => h g (mem_cons_of_mem f hg)⟩
    have hf := h f mem_cons_self
    cases f <;> simp_all [Frame.waited, Frame.needsClosed]

/-! ## The invariant -/

/-- The frames of a call in the state `s`. -/
structure Good (s : State β ε) (caller : Caller) (frames : List (Frame β)) : Prop where
  reader : caller.closes = true → s.readerDone = true ∨ ∃ f ∈ frames, f.toReader = true
  socket : caller.waits = true → s.socketDone = true ∨ ∃ f ∈ frames, f.toSocket = true
  waits : ∀ f ∈ frames, f.ofWait = true → caller.waits = true
  order : frames.Pairwise fun f g => f.ofWait = true → g.waited = true
  guarded : Guarded (s.out.buf.closed = true) frames
  arm : ∀ f ∈ frames, f = .arm → s.out.buf.closed = true ∧ s.out.buf.Resting

/-- What a step keeps. -/
structure Moves (s s' : State β ε) : Prop where
  reader : s.readerDone = true → s'.readerDone = true
  socket : s.socketDone = true → s'.socketDone = true
  buf : s.out.buf.Settles s'.out.buf

theorem Moves.of_eq {s s' : State β ε} (hpaired : s'.paired = s.paired)
    (hreader : s'.readerClosed = s.readerClosed) (harmed : s'.armed = s.armed) (hout : s'.out = s.out) :
    Moves s s' := by
  refine ⟨fun h => ?_, fun h => ?_, ?_⟩
  · rwa [State.readerDone, hpaired, hreader]
  · rwa [State.socketDone, harmed, hout]
  · rw [hout]
    exact .refl _

theorem Good.move {s s' : State β ε} {caller : Caller} {frames : List (Frame β)} (h : Good s caller frames)
    (hm : Moves s s') : Good s' caller frames where
  reader := fun hc => (h.reader hc).imp_left hm.reader
  socket := fun hc => (h.socket hc).imp_left hm.socket
  waits := h.waits
  order := h.order
  guarded := h.guarded.mono hm.buf.closed
  arm := fun f hf hfa =>
    have harm := h.arm f hf hfa
    ⟨hm.buf.closed harm.1, hm.buf.resting harm.1 harm.2⟩

theorem good_of_waited {s : State β ε} {caller : Caller} {frames : List (Frame β)}
    (hreader : caller.closes = true → s.readerDone = true)
    (hsocket : caller.waits = true → s.socketDone = true)
    (hwaited : ∀ f ∈ frames, f.waited = true) (hwaits : frames ≠ [] → caller.waits = true) :
    Good s caller frames where
  reader := fun hc => .inl (hreader hc)
  socket := fun hc => .inl (hsocket hc)
  waits := fun f hf _ => hwaits (ne_nil_of_mem hf)
  order := pairwise_of_forall_mem_list fun _ _ g hg _ => hwaited g hg
  guarded := guarded_of_waited hwaited
  arm := fun f hf hfa => by
    have hw := hwaited f hf
    subst hfa
    cases hw

theorem Good.next {s s' : State β ε} {caller : Caller} {f : Frame β} {frames rest : List (Frame β)}
    (h : Good s caller (f :: rest)) (hm : Moves s s')
    (hreader : caller.closes = true → f.toReader = true →
      s'.readerDone = true ∨ ∃ g ∈ frames, g.toReader = true)
    (hsocket : f.toSocket = true → s'.socketDone = true ∨ ∃ g ∈ frames, g.toSocket = true)
    (hwaits : ∀ g ∈ frames, g.ofWait = true → f.ofWait = true)
    (horder : frames.Pairwise fun g g' => g.ofWait = true → g'.waited = true)
    (hguarded : Guarded (s'.out.buf.closed = true) frames)
    (hcloses : f.closesBuffer = true → s'.out.buf.closed = true)
    (harm : ∀ g ∈ frames, g = .arm → s'.out.buf.closed = true ∧ s'.out.buf.Resting) :
    Good s' caller (frames ++ rest) := by
  have hgood := h.move hm
  rcases pairwise_cons.1 h.order with ⟨hfirst, hrest⟩
  refine ⟨fun hc => ?_, fun hc => ?_, fun g hg hw => ?_, ?_, ?_, fun g hg hga => ?_⟩
  · rcases hgood.reader hc with hdone | ⟨g, hg, hto⟩
    · exact .inl hdone
    · rcases mem_cons.1 hg with rfl | hg
      · exact (hreader hc hto).imp_right fun ⟨g', hg', hto'⟩ => ⟨g', mem_append_left _ hg', hto'⟩
      · exact .inr ⟨g, mem_append_right _ hg, hto⟩
  · rcases hgood.socket hc with hdone | ⟨g, hg, hto⟩
    · exact .inl hdone
    · rcases mem_cons.1 hg with rfl | hg
      · exact (hsocket hto).imp_right fun ⟨g', hg', hto'⟩ => ⟨g', mem_append_left _ hg', hto'⟩
      · exact .inr ⟨g, mem_append_right _ hg, hto⟩
  · rcases mem_append.1 hg with hg | hg
    · exact h.waits f mem_cons_self (hwaits g hg hw)
    · exact h.waits g (mem_cons_of_mem f hg) hw
  · refine pairwise_append.2 ⟨horder, hrest, fun g hg r hr hw => ?_⟩
    exact hfirst r hr (hwaits g hg hw)
  · refine hguarded.append (hgood.guarded.2.mono ?_)
    rintro (hcl | hf)
    · exact hcl
    · exact hcloses hf
  · rcases mem_append.1 hg with hg | hg
    · exact harm g hg hga
    · exact hgood.arm g (mem_cons_of_mem f hg) hga

theorem Good.marked {s : State β ε} {caller : Caller} {f : Frame β} {rest : List (Frame β)}
    (h : Good s caller (f :: rest)) (hf : f.marks = true) : s.socketDone = true := by
  have hw : f.ofWait = true := by simp [Frame.ofWait, hf]
  rcases h.socket (h.waits f mem_cons_self hw) with hdone | ⟨g, hg, hto⟩
  · exact hdone
  · rcases mem_cons.1 hg with rfl | hg
    · cases g <;> simp_all [Frame.marks, Frame.toSocket]
    · -- only marks stand behind it
      have hwaited := (pairwise_cons.1 h.order).1 g hg hw
      cases g <;> simp_all [Frame.waited, Frame.toSocket]

/-- The state apart from the calls. -/
structure Base (s : State β ε) : Prop where
  stream : SendBuffer.Stream s.out
  closing : s.closing = true ∨ s.closed = true → s.out.buf.closed = true
  core : s.closed = true → s.socketDone = true
  tls : ∀ t ∈ s.tls, t.closed = true → s.socketDone = true

structure Inv (s : State β ε) : Prop extends Base s where
  calls : ∀ c ∈ s.calls, Good s c.caller c.frames

theorem Inv.released {s : State β ε} (h : Inv s) : Released s := by
  intro c hc hnil
  have hgood := h.calls c hc
  rw [hnil] at hgood
  exact ⟨fun hcl => (hgood.reader hcl).resolve_right (by simp),
    fun hw => (hgood.socket hw).resolve_right (by simp)⟩

theorem Inv.init (highWater lowWater : Int) (minWrite : Nat) (paired : Bool) (levels : Nat) :
    Inv (init highWater lowWater minWrite paired levels : State β ε) where
  stream := SendBuffer.Stream.init highWater lowWater minWrite
  closing := by simp [Shutdown.init]
  core := fun h => by cases h
  tls := fun t ht hcl => by
    have heq := eq_of_mem_replicate ht
    subst heq
    cases hcl
  calls := fun c hc => absurd hc not_mem_nil

end Pytealet.Streams.Shutdown
