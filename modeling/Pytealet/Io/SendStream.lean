import Pytealet.Io.SendBuffer

/-!
# SendStream — the byte stream of a send buffer

In every run, the bytes handed over so far, the bytes of the leg that is reserved, and the backlog
make up the bytes of the accepted writes, in this order; and at most one leg is under way.

While no error is known, `_active` is set exactly while a leg is under way, so that a leg is
reserved only when there is none.  Once an error is known no leg is reserved any more.
-/

namespace Pytealet.Io.SendBuffer

open Lib Lib.Transition List

variable {β ε : Type*}

/-! ## Fields -/

namespace Buffer

variable {b : Buffer β ε}

/-- `_pending_bytes` is the length of the backlog. -/
def Counted (b : Buffer β ε) : Prop :=
  b.pendingBytes = b.held.length

theorem held_appendPending (b : Buffer β ε) (data : List β) :
    (b.appendPending data).held = b.held ++ data := by
  unfold appendPending held
  cases b.pending <;> rfl

theorem counted_appendPending (b : Buffer β ε) (data : List β) : (b.appendPending data).Counted := by
  unfold appendPending Counted held
  cases b.pending <;> rfl

theorem held_prependPending (b : Buffer β ε) (chunk : List β) :
    (b.prependPending chunk).held = chunk ++ b.held := by
  unfold prependPending held
  cases b.pending <;> simp

theorem counted_prependPending (b : Buffer β ε) (chunk : List β) :
    (b.prependPending chunk).Counted := by
  unfold prependPending Counted held
  cases b.pending <;> simp

/-- The fields once there is no backlog. -/
def empty (b : Buffer β ε) : Buffer β ε :=
  { b with pending := none, pendingBytes := 0 }

/-- The fields once the backlog has become a leg. -/
def lease (b : Buffer β ε) : Buffer β ε :=
  { b with
    active := true
    pending := none
    pendingBytes := 0
    inFlightBytes := b.held.length }

@[simp]
theorem held_empty (b : Buffer β ε) : b.empty.held = [] :=
  rfl

@[simp]
theorem held_lease (b : Buffer β ε) : b.lease.held = [] :=
  rfl

theorem takePending_cases (b : Buffer β ε) :
    (b.held = [] ∧ b.takePending = (b.empty, none)) ∨
      (b.held ≠ [] ∧ b.takePending =
        ({ b.empty with inFlightBytes := b.held.length }, some b.held)) := by
  unfold takePending empty held
  cases hp : b.pending with
  | none => exact .inl ⟨rfl, rfl⟩
  | some chunk =>
    cases chunk with
    | nil => exact .inl ⟨rfl, rfl⟩
    | cons x xs => exact .inr ⟨by simp, rfl⟩

theorem reserveLeg_cases (b : Buffer β ε) (force : Bool) :
    b.reserveLeg force = (b, none) ∨
      (b.active = false ∧ b.sendError = none ∧ b.reserveLeg force = (b.lease, some b.held)) := by
  unfold reserveLeg
  split
  · exact .inl rfl
  · rename_i hidle
    split
    · exact .inl rfl
    · rename_i hheld
      split
      · exact .inl rfl
      · refine .inr ⟨by simpa using fun h => hidle (.inl h), ?_, ?_⟩
        · cases he : b.sendError with
          | none => rfl
          | some e => exact absurd (.inr (by simp [he])) hidle
        · rcases takePending_cases ({ b with active := true } : Buffer β ε) with ⟨hnil, -⟩ | ⟨-, htake⟩
          · exact absurd hnil hheld
          · exact htake

theorem held_maybeShutdown (b : Buffer β ε) (x : Errors ε) (fault : Option ε) :
    (b.maybeShutdown x fault).held = b.held := by
  unfold maybeShutdown
  split <;> rfl

theorem counted_maybeShutdown {x : Errors ε} {fault : Option ε} (hb : b.Counted) :
    (b.maybeShutdown x fault).Counted := by
  unfold maybeShutdown
  split <;> exact hb

theorem active_maybeShutdown (b : Buffer β ε) (x : Errors ε) (fault : Option ε) :
    (b.maybeShutdown x fault).active = b.active := by
  unfold maybeShutdown
  split <;> rfl

end Buffer

/-! ## Stacks -/

/-- The frames that stay on the stack while something runs on top of them. -/
def Frame.passive : Frame β ε → Bool
  | .onDone | .inCall _ | .check _ => true
  | _ => false

@[simp]
theorem legCount_nil : legCount ([] : List (Frame β ε)) = 0 :=
  rfl

@[simp]
theorem legCount_cons (f : Frame β ε) (call : List (Frame β ε)) :
    legCount (f :: call) = legCount call + if f.isLeg then 1 else 0 :=
  countP_cons

@[simp]
theorem legCount_append (call call' : List (Frame β ε)) :
    legCount (call ++ call') = legCount call + legCount call' :=
  countP_append

@[simp]
theorem chunkOf_nil : chunkOf ([] : List (Frame β ε)) = [] :=
  rfl

@[simp]
theorem chunkOf_cons (f : Frame β ε) (call : List (Frame β ε)) :
    chunkOf (f :: call) = f.chunk ++ chunkOf call :=
  flatMap_cons

@[simp]
theorem chunkOf_append (call call' : List (Frame β ε)) :
    chunkOf (call ++ call') = chunkOf call ++ chunkOf call' :=
  flatMap_append

def Passive (call : List (Frame β ε)) : Prop :=
  ∀ f ∈ call, f.passive = true

theorem Frame.chunk_eq_nil {f : Frame β ε} (hf : f.isLeg = false) : f.chunk = [] := by
  cases f <;> simp_all [Frame.isLeg, Frame.chunk]

theorem Frame.isLeg_of_passive {f : Frame β ε} (hf : f.passive = true) : f.isLeg = false := by
  cases f <;> simp_all [Frame.isLeg, Frame.passive]

theorem chunkOf_eq_nil {call : List (Frame β ε)} (h : legCount call = 0) : chunkOf call = [] := by
  simp only [legCount, countP_eq_zero] at h
  rw [chunkOf, flatMap_eq_nil_iff]
  intro f hf
  exact Frame.chunk_eq_nil (by simpa using h f hf)

theorem Passive.legCount {call : List (Frame β ε)} (h : Passive call) : legCount call = 0 := by
  simp only [SendBuffer.legCount, countP_eq_zero]
  intro f hf
  simp [Frame.isLeg_of_passive (h f hf)]

theorem Passive.unwind {call : List (Frame β ε)} (h : Passive call) (e : ε) :
    SendBuffer.legCount (unwind e call) = 0 ∧ Passive (unwind e call).tail := by
  induction call with
  | nil => exact ⟨rfl, fun f hf => absurd hf (not_mem_nil)⟩
  | cons f rest ih =>
    have hrest : Passive rest := fun g hg => h g (mem_cons_of_mem f hg)
    cases f with
    | onDone =>
      refine ⟨?_, hrest⟩
      simpa [SendBuffer.unwind, Frame.isLeg] using hrest.legCount
    | _ => exact ih hrest

theorem Passive.leaveError {call : List (Frame β ε)} (h : Passive call) (e : ε) :
    Passive (leaveError e call) := by
  unfold SendBuffer.leaveError
  split
  · intro f hf
    rcases mem_cons.1 hf with rfl | hf
    · rfl
    · exact h f (mem_cons_of_mem _ hf)
  · exact h

@[simp]
theorem legCount_notify (call : List (Frame β ε)) :
    legCount (call.map Frame.notify) = legCount call := by
  simp only [legCount, countP_map]
  congr 1
  funext f
  cases f <;> rfl

@[simp]
theorem chunkOf_notify (call : List (Frame β ε)) :
    chunkOf (call.map Frame.notify) = chunkOf call := by
  simp only [chunkOf, flatMap_map]
  congr 1
  funext f
  cases f <;> rfl

theorem passive_notify {f : Frame β ε} : f.notify.passive = f.passive := by
  cases f <;> rfl

/-- The frames with which a section goes on. -/
def Section.frames (sec : Section β ε) : List (Frame β ε) :=
  match sec.next with
  | .ok frames => frames
  | .error _ => []

theorem Section.stack_spec (sec : Section β ε) {rest : List (Frame β ε)} (hrest : Passive rest)
    (hsec : Passive sec.frames.tail) :
    legCount (sec.stack rest) = legCount sec.frames ∧ chunkOf (sec.stack rest) = chunkOf sec.frames ∧
      Passive (sec.stack rest).tail := by
  unfold Section.stack Section.frames at *
  cases hn : sec.next with
  | error e =>
    -- an exception leaves the frames below as far as `on_done`
    have hun := hrest.unwind e
    exact ⟨by simpa using hun.1, by simpa using chunkOf_eq_nil hun.1, hun.2⟩
  | ok frames =>
    simp only [hn] at hsec
    refine ⟨?_, ?_, ?_⟩
    · simp [hrest.legCount]
    · simp [chunkOf_eq_nil hrest.legCount]
    · cases frames with
      | nil =>
        intro f hf
        exact hrest f (mem_of_mem_tail hf)
      | cons f fs =>
        intro g hg
        rcases mem_append.1 hg with hg | hg
        · exact hsec g hg
        · exact hrest g hg

/-! ## The invariant -/

structure Stream (s : State β ε) : Prop where
  shape : ∀ call ∈ s.calls, Passive call.tail
  legs : s.legs ≤ 1
  active : s.buf.sendError = none → (s.buf.active = true ↔ s.legs = 1)
  bytes : s.trace.handedOver ++ s.reserved ++ s.buf.held = s.trace.accepted
  counted : s.buf.Counted

theorem Stream.init (highWater lowWater : Int) (minWrite : Nat) :
    Stream (init highWater lowWater minWrite : State β ε) where
  shape := fun call hcall => absurd hcall not_mem_nil
  legs := Nat.zero_le 1
  active := fun _ => by simp [SendBuffer.init, State.legs, tally]
  bytes := rfl
  counted := rfl

section Rules

variable {s : State β ε} {k : Nat} {f : Frame β ε} {rest stack : List (Frame β ε)}
  {sec : Section β ε}

theorem legs_enter (s : State β ε) (k : Nat) (rest : List (Frame β ε)) (sec : Section β ε) :
    (s.enter k rest sec).legs = (s.goOn k (sec.stack rest)).legs := by
  unfold State.enter State.goOn State.legs
  cases sec.notify with
  | false => rfl
  | true =>
    have hmap := Tally.tally_map (f := legCount) (t := List.map Frame.notify)
      (fun call => legCount_notify call) (s.calls.set k (sec.stack rest))
    simpa [notifyAll] using hmap

theorem reserved_enter (s : State β ε) (k : Nat) (rest : List (Frame β ε)) (sec : Section β ε) :
    (s.enter k rest sec).reserved = (s.goOn k (sec.stack rest)).reserved := by
  unfold State.enter State.goOn State.reserved
  cases sec.notify with
  | false => rfl
  | true =>
    simp only [notifyAll, if_true, flatMap_map]
    congr 1
    funext call
    exact chunkOf_notify call

theorem shape_set {calls : List (List (Frame β ε))} (h : ∀ call ∈ calls, Passive call.tail)
    (hstack : Passive stack.tail) : ∀ call ∈ calls.set k stack, Passive call.tail := by
  intro call hcall
  rcases mem_or_eq_of_mem_set hcall with hcall | rfl
  · exact h call hcall
  · exact hstack

theorem shape_enter (h : ∀ call ∈ s.calls, Passive call.tail)
    (hstack : Passive (sec.stack rest).tail) :
    ∀ call ∈ (s.enter k rest sec).calls, Passive call.tail := by
  have hset := shape_set (k := k) h hstack
  unfold State.enter
  cases sec.notify with
  | false => exact hset
  | true =>
    -- a notification changes a frame that is parked, and such a frame is on top
    intro call hcall
    rcases mem_map.1 hcall with ⟨old, hold, rfl⟩
    intro f hf
    rw [← map_tail] at hf
    rcases mem_map.1 hf with ⟨g, hg, rfl⟩
    rw [passive_notify]
    exact hset old hold g hg

@[simp]
theorem trace_bytes_enter (s : State β ε) (k : Nat) (rest : List (Frame β ε)) (sec : Section β ε) :
    (s.enter k rest sec).trace.handedOver = s.trace.handedOver ∧
      (s.enter k rest sec).trace.accepted = s.trace.accepted := by
  unfold State.enter
  cases sec.shut <;> exact ⟨rfl, rfl⟩

theorem Stream.rest_passive (h : Stream s) (hk : s.calls[k]? = some (f :: rest)) : Passive rest :=
  h.shape _ (mem_of_getElem? hk)

theorem Stream.leg_alone (h : Stream s) (hk : s.calls[k]? = some (f :: rest))
    (hf : f.isLeg = true) :
    s.awaiting = 0 ∧ s.legs = 1 ∧ s.reserved = f.chunk ∧
      ∀ stack, (s.goOn k stack).legs = legCount stack ∧ (s.goOn k stack).reserved = chunkOf stack := by
  have hrest := h.rest_passive hk
  have hone : legCount (f :: rest) = 1 := by
    simp [hrest.legCount, hf]
  have hle := Tally.le_tally (f := legCount) hk
  have hlegs := h.legs
  unfold State.legs at hlegs
  have htally : tally legCount s.calls ≤ 1 := by omega
  have hnil : ∀ call : List (Frame β ε), legCount call = 0 → chunkOf call = [] :=
    fun call => chunkOf_eq_nil
  refine ⟨by omega, by unfold State.legs; omega, ?_, ?_⟩
  · have hflat := Tally.flatMap_eq_of_tally (g := chunkOf) hnil hk (by omega)
    have hchunk : chunkOf (f :: rest) = f.chunk := by
      simp [chunkOf_eq_nil hrest.legCount]
    exact hflat.trans hchunk
  · intro stack
    have hset := Tally.tally_set (f := legCount) hk stack
    have hlen : k < s.calls.length := (List.getElem?_eq_some_iff.1 hk).1
    have hk' : (s.calls.set k stack)[k]? = some stack := by simp [hlen]
    refine ⟨?_, ?_⟩
    · simp only [State.legs, State.goOn]
      omega
    · have hle' : tally legCount (s.calls.set k stack) ≤ legCount stack := by omega
      exact Tally.flatMap_eq_of_tally (g := chunkOf) hnil hk' hle'

theorem Stream.leg_elsewhere (h : Stream s) (hk : s.calls[k]? = some (f :: rest))
    (hf : f.isLeg = false) (hstack : legCount stack = 0) :
    (s.goOn k stack).legs = s.legs ∧ (s.goOn k stack).reserved = s.reserved := by
  have hzero : legCount (f :: rest) = 0 := by
    simp [(h.rest_passive hk).legCount, hf]
  have hset := Tally.tally_set (f := legCount) hk stack
  refine ⟨?_, ?_⟩
  · simp only [State.legs, State.goOn]
    omega
  · refine Tally.flatMap_set hk ?_
    rw [chunkOf_eq_nil hstack, chunkOf_eq_nil hzero]

theorem Stream.enter_leg (h : Stream s) (hk : s.calls[k]? = some (f :: rest)) (hf : f.isLeg = true)
    (hsec : Passive sec.frames.tail) (hle : legCount sec.frames ≤ 1)
    (hact : sec.buf.sendError = none → (sec.buf.active = true ↔ legCount sec.frames = 1))
    (hbytes : chunkOf sec.frames ++ sec.buf.held = f.chunk ++ s.buf.held)
    (hcount : sec.buf.Counted) : Stream (s.enter k rest sec) := by
  rcases sec.stack_spec (h.rest_passive hk) hsec with ⟨hlegs, hchunk, hshape⟩
  rcases h.leg_alone hk hf with ⟨-, -, hres, hgo⟩
  have hlegs' : (s.enter k rest sec).legs = legCount sec.frames := by
    rw [legs_enter, (hgo _).1, hlegs]
  have hres' : (s.enter k rest sec).reserved = chunkOf sec.frames := by
    rw [reserved_enter, (hgo _).2, hchunk]
  refine ⟨shape_enter h.shape hshape, hlegs' ▸ hle, ?_, ?_, hcount⟩
  · rw [hlegs']
    exact hact
  · rw [(trace_bytes_enter s k rest sec).1, (trace_bytes_enter s k rest sec).2, hres', ← h.bytes,
      hres, append_assoc, append_assoc]
    exact congrArg _ hbytes

theorem Stream.enter_other (h : Stream s) (hk : s.calls[k]? = some (f :: rest))
    (hf : f.isLeg = false) (hsec : Passive sec.frames.tail) (hle : legCount sec.frames = 0)
    (herr : sec.buf.sendError = none →
      s.buf.sendError = none ∧ sec.buf.active = s.buf.active)
    (hbytes : sec.buf.held = s.buf.held) (hcount : sec.buf.Counted) :
    Stream (s.enter k rest sec) := by
  rcases sec.stack_spec (h.rest_passive hk) hsec with ⟨hlegs, -, hshape⟩
  rcases h.leg_elsewhere hk hf (hlegs.trans hle) with ⟨hgo, hres⟩
  have hlegs' : (s.enter k rest sec).legs = s.legs := by rw [legs_enter, hgo]
  refine ⟨shape_enter h.shape hshape, hlegs' ▸ h.legs, ?_, ?_, hcount⟩
  · intro hnone
    rcases herr hnone with ⟨hold, hactive⟩
    have hiff := h.active hold
    rw [hlegs']
    simpa [State.enter, hactive] using hiff
  · rw [(trace_bytes_enter s k rest sec).1, (trace_bytes_enter s k rest sec).2, reserved_enter, hres]
    have hbuf : (s.enter k rest sec).buf.held = s.buf.held := hbytes
    rw [hbuf]
    exact h.bytes

theorem Stream.goOn_other (h : Stream s) (hk : s.calls[k]? = some (f :: rest))
    (hf : f.isLeg = false) (hstack : legCount stack = 0) (hshape : Passive stack.tail) :
    Stream (s.goOn k stack) := by
  rcases h.leg_elsewhere hk hf hstack with ⟨hgo, hres⟩
  refine ⟨shape_set h.shape hshape, hgo ▸ h.legs, ?_, ?_, h.counted⟩
  · rw [hgo]
    exact h.active
  · rw [hres]
    exact h.bytes

theorem Stream.goOn_leg (h : Stream s) (hk : s.calls[k]? = some (f :: rest)) (hf : f.isLeg = true)
    (hstack : legCount stack = 1) (hshape : Passive stack.tail) (hchunk : chunkOf stack = f.chunk) :
    Stream (s.goOn k stack) := by
  rcases h.leg_alone hk hf with ⟨-, hone, hres, hgo⟩
  have hlegs : (s.goOn k stack).legs = s.legs := by rw [(hgo stack).1, hstack, hone]
  refine ⟨shape_set h.shape hshape, hlegs ▸ h.legs, ?_, ?_, h.counted⟩
  · rw [hlegs]
    exact h.active
  · rw [(hgo stack).2, hchunk, ← hres]
    exact h.bytes

theorem begin_calls (s : State β ε) (sec : Section β ε) :
    ((s.spawn []).calls.set s.calls.length (sec.stack [])) = s.calls ++ [sec.stack []] := by
  simp [State.spawn]

theorem Stream.idle (h : Stream s) (herr : s.buf.sendError = none) (hact : s.buf.active = false) :
    s.legs = 0 ∧ s.reserved = [] := by
  have hiff := h.active herr
  have hle := h.legs
  have hzero : s.legs = 0 := by
    rw [hact] at hiff
    have hne : s.legs ≠ 1 := fun heq => absurd (hiff.2 heq) (by simp)
    omega
  refine ⟨hzero, Tally.flatMap_eq_nil (f := legCount) (fun call => chunkOf_eq_nil) ?_⟩
  unfold State.legs at hzero
  omega

theorem passive_nil : Passive ([] : List (Frame β ε)) :=
  fun _ hf => absurd hf not_mem_nil

theorem legs_begin (s : State β ε) (sec : Section β ε) (hsec : Passive sec.frames.tail) :
    (s.begin sec).legs = s.legs + legCount sec.frames := by
  unfold State.begin
  rw [legs_enter]
  simp only [State.legs, State.goOn, begin_calls, Tally.tally_append,
    (sec.stack_spec passive_nil hsec).1]
  simp only [State.spawn]
  omega

theorem reserved_begin (s : State β ε) (sec : Section β ε) (hsec : Passive sec.frames.tail) :
    (s.begin sec).reserved = s.reserved ++ chunkOf sec.frames := by
  unfold State.begin
  rw [reserved_enter]
  simp only [State.reserved, State.goOn, begin_calls, flatMap_append, flatMap_singleton,
    (sec.stack_spec passive_nil hsec).2.1]

theorem shape_begin (hsec : Passive sec.frames.tail) (hshape : ∀ call ∈ s.calls, Passive call.tail) :
    ∀ call ∈ (s.begin sec).calls, Passive call.tail := by
  refine shape_enter ?_ (sec.stack_spec passive_nil hsec).2.2
  intro call hcall
  rcases mem_append.1 hcall with hcall | hcall
  · exact hshape call hcall
  · have heq : call = [] := by simpa using hcall
    subst heq
    exact passive_nil

theorem Stream.begin (h : Stream s) (data : List β) (hsec : Passive sec.frames.tail)
    (hleg : (legCount sec.frames = 0 ∧ (sec.buf.sendError = none →
        s.buf.sendError = none ∧ sec.buf.active = s.buf.active)) ∨
      (legCount sec.frames = 1 ∧ s.buf.sendError = none ∧ s.buf.active = false ∧
        sec.buf.active = true))
    (hbytes : chunkOf sec.frames ++ sec.buf.held = s.buf.held ++ data) (hcount : sec.buf.Counted) :
    Stream ((s.begin sec).accept data) := by
  have hlegs' := legs_begin s sec hsec
  have hres' := reserved_begin s sec hsec
  have hhand : (s.begin sec).trace.handedOver = s.trace.handedOver :=
    (trace_bytes_enter (s.spawn []) s.calls.length [] sec).1
  have hacc : (s.begin sec).trace.accepted = s.trace.accepted :=
    (trace_bytes_enter (s.spawn []) s.calls.length [] sec).2
  have hbytes' : ((s.begin sec).accept data).trace.handedOver ++
      ((s.begin sec).accept data).reserved ++ ((s.begin sec).accept data).buf.held =
        ((s.begin sec).accept data).trace.accepted := by
    show (s.begin sec).trace.handedOver ++ (s.begin sec).reserved ++ sec.buf.held =
      (s.begin sec).trace.accepted ++ data
    rw [hhand, hacc, hres', ← h.bytes]
    simp only [append_assoc]
    rw [hbytes]
  -- a leg is begun by an idle buffer only
  have hle : s.legs + legCount sec.frames ≤ 1 := by
    rcases hleg with ⟨hzero, -⟩ | ⟨hone, herr, hact, -⟩
    · rw [hzero]
      exact h.legs
    · rw [hone, (h.idle herr hact).1]
  refine ⟨shape_begin hsec h.shape, ?_, ?_, hbytes', hcount⟩
  · show (s.begin sec).legs ≤ 1
    rw [hlegs']
    exact hle
  · show sec.buf.sendError = none → (sec.buf.active = true ↔ (s.begin sec).legs = 1)
    intro hnone
    rw [hlegs']
    rcases hleg with ⟨hzero, herr⟩ | ⟨hone, herr, hact, hact'⟩
    · rcases herr hnone with ⟨hold, hactive⟩
      rw [hzero, hactive]
      exact h.active hold
    · rw [hone, hact', (h.idle herr hact).1]
      simp

theorem accept_nil (s : State β ε) : s.accept [] = s := by
  simp [State.accept]

theorem Stream.begin_quiet (h : Stream s) (hsec : Passive sec.frames.tail)
    (hle : legCount sec.frames = 0)
    (herr : sec.buf.sendError = none → s.buf.sendError = none ∧ sec.buf.active = s.buf.active)
    (hheld : sec.buf.held = s.buf.held) (hcount : sec.buf.Counted) : Stream (s.begin sec) := by
  have hb := h.begin [] hsec (.inl ⟨hle, herr⟩) (by simp [chunkOf_eq_nil hle, hheld]) hcount
  rwa [accept_nil] at hb

end Rules

end Pytealet.Io.SendBuffer
