import Pytealet.Streams.ReaderCore
import Pytealet.Streams.SslRead

/-!
# LineCuts — `readline` on two ways of cutting a stream

The limit of `readline` is compared with the bytes in the buffer as long as there is no newline
among them.  A line that is longer than the limit is therefore returned when its newline comes with
the chunk that passes the limit, and refused when it comes later.  Where chunks have a greatest
length, a line that is longer by more than that is always refused.
-/

namespace Pytealet.Streams

open ChunkBuffer List

variable {ε ι : Type*}

/-- What a call of `readline` comes to: the line that it returns, or `LimitOverrunError`. -/
inductive Verdict
  | line (bytes : List UInt8)
  | refused
  | other
  deriving DecidableEq, Repr

def Outcome.verdict : Outcome ε Reply → Verdict
  | .returns (.bytes b) => .line b
  | .raises (.limitOverrun _) => .refused
  | _ => .other

/-- Calls of `readline`, one after the other. -/
def readlines (f : ι → Appended ε) (limit : Int) : Nat → ChunkBuffer → List ι → List Verdict
  | 0, _, _ => []
  | k + 1, s, inputs =>
    let r := readline f limit s inputs
    r.1.verdict :: readlines f limit k r.2.1 r.2.2

/-- The inputs cut the stream into chunks, none empty and none longer than the bound, and note its
end. -/
inductive Cut (f : ι → Appended ε) (bound : Option Nat) : List UInt8 → List ι → Prop
  | last {i : ι} : f i = .ended → Cut f bound [] [i]
  | chunk {i : ι} {c rest : List UInt8} {inputs : List ι} : f i = .grew c → c ≠ [] →
      (∀ m, bound = some m → c.length ≤ m) → Cut f bound rest inputs → Cut f bound (c ++ rest) (i :: inputs)

/-- The lines of a stream that end with a newline; `begun` is what there is of the first one. -/
def linesFrom (begun : List UInt8) : List UInt8 → List (List UInt8)
  | [] => []
  | b :: rest => if b = newline then (begun ++ [b]) :: linesFrom [] rest else linesFrom (begun ++ [b]) rest

def lines (stream : List UInt8) : List (List UInt8) :=
  linesFrom [] stream

/-- No cut decides about a line: it is within the limit, or refused in any case, and with it all
that follows. -/
def Clear (limit : Int) (bound : Option Nat) : List (List UInt8) → Prop
  | [] => True
  | line :: rest =>
    (line.length : Int) ≤ limit ∧ Clear limit bound rest ∨ ∃ m, bound = some m ∧
      limit + m ≤ (line.length : Int)

theorem clear_none (limit : Int) (ls : List (List UInt8)) :
    Clear limit none ls ↔ ∀ l ∈ ls, (l.length : Int) ≤ limit := by
  induction ls with
  | nil => simp [Clear]
  | cons l ls ih => simp [Clear, ih]

/-! ## The lines of a stream -/

theorem linesFrom_body {body : List UInt8} (hbody : newline ∉ body) (begun rest : List UInt8) :
    linesFrom begun (body ++ newline :: rest) = (begun ++ body ++ [newline]) :: lines rest := by
  induction body generalizing begun with
  | nil => simp [linesFrom, lines]
  | cons b body ih =>
    have hb : b ≠ newline := fun heq => hbody (heq ▸ mem_cons_self)
    show (if b = newline then _ else linesFrom (begun ++ [b]) (body ++ newline :: rest)) = _
    rw [if_neg hb, ih (fun hin => hbody (mem_cons_of_mem b hin))]
    simp

theorem lines_body {body : List UInt8} (hbody : newline ∉ body) (rest : List UInt8) :
    lines (body ++ newline :: rest) = (body ++ [newline]) :: lines rest := by
  unfold lines
  rw [linesFrom_body hbody, nil_append]
  rfl

theorem linesFrom_none {stream : List UInt8} (h : newline ∉ stream) (begun : List UInt8) :
    linesFrom begun stream = [] := by
  induction stream generalizing begun with
  | nil => rfl
  | cons b stream ih =>
    have hb : b ≠ newline := fun heq => h (heq ▸ mem_cons_self)
    show (if b = newline then _ else linesFrom (begun ++ [b]) stream) = []
    rw [if_neg hb]
    exact ih (fun hin => h (mem_cons_of_mem b hin)) _

theorem line_cases (stream : List UInt8) :
    newline ∉ stream ∨ ∃ body rest, newline ∉ body ∧ stream = body ++ newline :: rest := by
  by_cases hin : newline ∈ stream
  · rcases eq_append_cons_of_mem hin with ⟨body, rest, rfl, hbody⟩
    exact .inr ⟨body, rest, hbody, rfl⟩
  · exact .inl hin

theorem prefix_of_body {u rest body tail : List UInt8} (heq : u ++ rest = body ++ newline :: tail)
    (hu : newline ∉ u) :
    u.length ≤ body.length := by
  by_contra hlt
  have hget : (u ++ rest)[body.length]? = some newline := by
    rw [heq, List.getElem?_append_right le_rfl]
    simp
  rw [List.getElem?_append_left (by omega)] at hget
  exact hu (mem_of_getElem? hget)

theorem split_of_mem {u rest body tail : List UInt8} (heq : u ++ rest = body ++ newline :: tail)
    (hbody : newline ∉ body)
    (hu : newline ∈ u) : ∃ t, u = body ++ newline :: t ∧ t ++ rest = tail := by
  rcases eq_append_cons_of_mem hu with ⟨a, t, rfl, ha⟩
  rw [append_assoc, cons_append] at heq
  have hle := prefix_of_body heq ha
  have hge := prefix_of_body heq.symm hbody
  rcases append_inj heq (by omega) with ⟨rfl, hrest⟩
  exact ⟨t, rfl, (List.cons.inj hrest).2⟩

/-! ## One call -/

section Call

variable {f : ι → Appended ε} {limit : Int} {s : ChunkBuffer} {i : ι} {inputs : List ι}

theorem findNewline_body {body t : List UInt8} (hbody : newline ∉ body)
    (h : s.unread = body ++ newline :: t) :
    s.findNewline = some body.length := by
  unfold findNewline
  rw [h, List.findIdx?_eq_some_iff_getElem]
  refine ⟨by simp, by simp, fun j hj => ?_⟩
  rw [getElem_append_left hj]
  intro heq
  exact hbody (beq_iff_eq.1 heq ▸ getElem_mem hj)

theorem readline_found {k : Nat} (h : s.findNewline = some k) :
    readline f limit s inputs = leave (returnBytes (s.takeBytes (k + 1))) inputs := by
  unfold readline
  rw [h]

theorem readline_eof (h : newline ∉ s.unread) (heof : s.eof = true) :
    readline f limit s inputs = leave (returnBytes (s.takeBytes s.available)) inputs := by
  unfold readline
  rw [findNewline_none.2 h]
  exact if_pos heof

theorem readline_refused (h : newline ∉ s.unread) (heof : s.eof = false) (hlimit : limit ≤ s.available) :
    readline f limit s inputs = (.raises (.limitOverrun s.available), s, inputs) := by
  unfold readline
  rw [findNewline_none.2 h]
  exact (if_neg (by rw [heof]; exact Bool.false_ne_true)).trans (if_pos hlimit)

theorem readline_more (h : newline ∉ s.unread) (heof : s.eof = false) (hlimit : ¬ limit ≤ s.available) :
    readline f limit s (i :: inputs) = match s.append (f i) with
      | (.ok true, s') => readline f limit s' inputs
      | (.ok false, s') => leave (returnBytes (s'.takeBytes s'.available)) inputs
      | (.error e, s') => (.raises (.inner e), s', inputs) := by
  rw [readline]
  rw [findNewline_none.2 h]
  exact (if_neg (by rw [heof]; exact Bool.false_ne_true)).trans (if_neg hlimit)

theorem readline_chunk {c : List UInt8} (h : newline ∉ s.unread) (heof : s.eof = false)
    (hlimit : ¬ limit ≤ s.available)
    (hi : f i = .grew c) : readline f limit s (i :: inputs) =
      readline f limit (s.append (f i)).2 inputs := by
  rw [readline_more h heof hlimit, hi]
  rfl

theorem readline_last (h : newline ∉ s.unread) (heof : s.eof = false) (hlimit : ¬ limit ≤ s.available)
    (hi : f i = .ended) : readline f limit s (i :: inputs) =
      leave (returnBytes ((s.append (f i)).2.takeBytes (s.append (f i)).2.available)) inputs := by
  rw [readline_more h heof hlimit, hi]
  rfl

end Call

/-! ## The next call, on a cut of what is left of the stream -/

section Next

variable {f : ι → Appended ε} {limit : Int} {bound : Option Nat}

/-- From its first newline on, the buffer has no more than a chunk. -/
def Short (bound : Option Nat) (u : List UInt8) : Prop :=
  ∀ m, bound = some m → ∀ a t, u = a ++ newline :: t → newline ∉ a → t.length ≤ m

theorem short_of_le {u : List UInt8} (h : ∀ m, bound = some m → u.length ≤ m) : Short bound u := by
  intro m hm a t hu _
  have hlength := h m hm
  rw [hu, length_append, length_cons] at hlength
  omega

theorem short_append {u c : List UInt8} (hu : newline ∉ u) (hc : ∀ m, bound = some m → c.length ≤ m) :
    Short bound (u ++ c) := by
  intro m hm a t heq ha
  have hlength := congrArg List.length heq
  have hprefix := prefix_of_body heq hu
  have hbound := hc m hm
  rw [length_append, length_append, length_cons] at hlength
  omega

theorem next_line (limit : Int) {rest : List UInt8} {inputs : List ι}
    (hcut : Cut f bound rest inputs) (s : ChunkBuffer)
    {body tail : List UInt8} (heof : s.eof = false) (hstream : s.unread ++ rest = body ++ newline :: tail)
    (hbody : newline ∉ body) (hlimit : ((body.length : Int)) < limit) (hshort : Short bound s.unread) :
    ∃ s' inputs' rest', readline f limit s inputs = (.returns (.bytes (body ++ [newline])), s', inputs') ∧
      s'.eof = false ∧ Cut f bound rest' inputs' ∧ s'.unread ++ rest' = tail ∧
      ∀ m, bound = some m → s'.unread.length ≤ m := by
  -- the newline has come already
  have hfound : ∀ (s : ChunkBuffer) (rest : List UInt8) (inputs : List ι), Cut f bound rest inputs →
      s.eof = false →
      s.unread ++ rest = body ++ newline :: tail → Short bound s.unread → newline ∈ s.unread →
      ∃ s' inputs' rest', readline f limit s inputs = (.returns (.bytes (body ++ [newline])), s', inputs') ∧
        s'.eof = false ∧ Cut f bound rest' inputs' ∧ s'.unread ++ rest' = tail ∧
        ∀ m, bound = some m → s'.unread.length ≤ m := by
    intro s rest inputs hcut heof hstream hshort hin
    rcases split_of_mem hstream hbody hin with ⟨t, hunread, htail⟩
    have hline : s.unread = (body ++ [newline]) ++ t := by rw [hunread, append_assoc]; rfl
    have hlength : (body ++ [newline]).length = body.length + 1 := by simp
    have htake : (s.takeBytes (body.length + 1)).1 = body ++ [newline] := by
      rw [takeBytes_fst, hline, ← hlength, take_left']
      rfl
    have hdrop : (s.takeBytes (body.length + 1)).2.unread = t := by
      rw [unread_takeBytes, hline, ← hlength, drop_left']
      rfl
    refine ⟨(s.takeBytes (body.length + 1)).2, inputs, rest, ?_, (eof_takeBytes s _).trans heof,
      hcut, ?_, fun m hm => ?_⟩
    · rw [readline_found (findNewline_body hbody hunread), ← htake]
      rfl
    · rw [hdrop]
      exact htail
    · rw [hdrop]
      exact hshort m hm body t hunread hbody
  induction hcut generalizing s with
  | last hi =>
    refine hfound s [] _ (.last hi) heof hstream hshort ?_
    rw [append_nil] at hstream
    rw [hstream]
    simp
  | chunk hi hne hbound hcut ih =>
    rename_i i c rest inputs
    by_cases hin : newline ∈ s.unread
    · exact hfound s _ _ (.chunk hi hne hbound hcut) heof hstream hshort hin
    · have hprefix := prefix_of_body hstream hin
      have hbelow : ¬ limit ≤ (s.available : Int) := by
        rw [← length_unread]
        omega
      rw [readline_chunk hin heof hbelow hi]
      have hgrown : (s.append (f i)).2.unread = s.unread ++ c := by
        rw [hi]
        exact append_grew s c
      refine ih _ ?_ ?_ ?_
      · rw [hi]
        exact heof
      · rw [hgrown, append_assoc]
        exact hstream
      · rw [hgrown]
        exact short_append hin hbound

/-- The limit has been reached without a newline. -/
def Stuck (limit : Int) (s : ChunkBuffer) : Prop :=
  newline ∉ s.unread ∧ s.eof = false ∧ limit ≤ (s.available : Int)

theorem Stuck.readline {s : ChunkBuffer} (h : Stuck limit s) (inputs : List ι) :
    ChunkBuffer.readline f limit s inputs = (.raises (.limitOverrun s.available), s, inputs) :=
  readline_refused h.1 h.2.1 h.2.2

theorem next_refused (limit : Int) {rest : List UInt8} {inputs : List ι}
    (hcut : Cut f bound rest inputs) (s : ChunkBuffer)
    {body tail : List UInt8} {m : Nat} (heof : s.eof = false)
    (hstream : s.unread ++ rest = body ++ newline :: tail)
    (hbody : newline ∉ body) (hm : bound = some m) (hlong : limit + m ≤ (body.length : Int) + 1)
    (hnone : newline ∉ s.unread) :
    ∃ s' inputs', (∃ k, readline f limit s inputs = (.raises (.limitOverrun k), s', inputs')) ∧
      Stuck limit s' := by
  induction hcut generalizing s with
  | last hi =>
    rw [append_nil] at hstream
    rw [hstream] at hnone
    exact absurd (mem_append_right _ mem_cons_self) hnone
  | chunk hi hne hbound hcut ih =>
    rename_i i c rest inputs
    by_cases hlimit : limit ≤ (s.available : Int)
    · have hstuck : Stuck limit s := ⟨hnone, heof, hlimit⟩
      exact ⟨s, _, ⟨_, hstuck.readline _⟩, hstuck⟩
    · rw [readline_chunk hnone heof hlimit hi]
      have hgrown : (s.append (f i)).2.unread = s.unread ++ c := by
        rw [hi]
        exact append_grew s c
      refine ih _ ?_ ?_ ?_
      · rw [hi]
        exact heof
      · rw [hgrown, append_assoc]
        exact hstream
      · -- with this chunk the buffer is not yet as long as the line
        rw [hgrown]
        intro hin
        rw [← append_assoc] at hstream
        rcases split_of_mem hstream hbody hin with ⟨t, hunread, -⟩
        have hlength := congrArg List.length hunread
        rw [length_append, length_append, length_cons, length_unread] at hlength
        have hle := hbound m hm
        omega

theorem next_rest (limit : Int) {rest : List UInt8} {inputs : List ι}
    (hcut : Cut f bound rest inputs) (s : ChunkBuffer)
    (heof : s.eof = false) (hnone : newline ∉ s.unread ++ rest) :
    ∃ s' inputs', ((((s.unread ++ rest).length : Nat) : Int) < limit ∧
        readline f limit s inputs = (.returns (.bytes (s.unread ++ rest)), s', inputs') ∧
          s'.eof = true ∧ s'.unread = []) ∨
      (limit ≤ (((s.unread ++ rest).length : Nat) : Int) ∧
        (∃ k, readline f limit s inputs = (.raises (.limitOverrun k), s', inputs')) ∧ Stuck limit s') := by
  have hrefused : ∀ (s : ChunkBuffer) (rest : List UInt8) (inputs : List ι), s.eof = false →
      newline ∉ s.unread ++ rest → limit ≤ (s.available : Int) →
      limit ≤ (((s.unread ++ rest).length : Nat) : Int) ∧
        (∃ k, readline f limit s inputs = (.raises (.limitOverrun k), s, inputs)) ∧ Stuck limit s := by
    intro s rest inputs heof hnone hlimit
    have hstuck : Stuck limit s := ⟨fun hin => hnone (mem_append_left _ hin), heof, hlimit⟩
    refine ⟨?_, ⟨_, hstuck.readline inputs⟩, hstuck⟩
    rw [length_append, length_unread]
    omega
  induction hcut generalizing s with
  | last hi =>
    rename_i i
    by_cases hlimit : limit ≤ (s.available : Int)
    · exact ⟨s, [i], .inr (hrefused s [] [i] heof hnone hlimit)⟩
    · rw [append_nil] at hnone ⊢
      refine ⟨((s.append (f i)).2.takeBytes (s.append (f i)).2.available).2, [], .inl ⟨?_, ?_, ?_, ?_⟩⟩
      · rw [length_unread]
        omega
      · have hall : ((s.append (f i)).2.takeBytes (s.append (f i)).2.available).1 = s.unread := by
          rw [takeBytes_fst, ← length_unread, take_length, hi]
          rfl
        rw [readline_last hnone heof hlimit hi, ← hall]
        rfl
      · exact (eof_takeBytes _ _).trans (by rw [hi]; rfl)
      · rw [unread_takeBytes, ← length_unread, drop_length]
  | chunk hi hne hbound hcut ih =>
    rename_i i c rest inputs
    by_cases hlimit : limit ≤ (s.available : Int)
    · exact ⟨s, _, .inr (hrefused s _ _ heof hnone hlimit)⟩
    · have hgrown : (s.append (f i)).2.unread = s.unread ++ c := by
        rw [hi]
        exact append_grew s c
      have hnone' : newline ∉ s.unread := fun hin => hnone (mem_append_left _ hin)
      rw [readline_chunk hnone' heof hlimit hi, ← append_assoc, ← hgrown]
      refine ih _ ?_ ?_
      · rw [hi]
        exact heof
      · rw [hgrown, append_assoc]
        exact hnone

end Next

/-! ## Any two cuts -/

section Cuts

variable {f : ι → Appended ε} {limit : Int} {bound : Option Nat}

theorem Stuck.readlines {s : ChunkBuffer} (h : Stuck limit s) (k : Nat) (inputs : List ι) :
    Streams.readlines f limit k s inputs = List.replicate k .refused := by
  induction k with
  | zero => rfl
  | succ k ih =>
    unfold Streams.readlines
    rw [h.readline]
    exact congrArg (Verdict.refused :: ·) ih

theorem readlines_eof (k : Nat) (s : ChunkBuffer) (inputs : List ι) (heof : s.eof = true)
    (hunread : s.unread = []) :
    readlines f limit k s inputs = List.replicate k (.line []) := by
  induction k generalizing s with
  | zero => rfl
  | succ k ih =>
    have hout : newline ∉ s.unread := by rw [hunread]; exact not_mem_nil
    have hbytes : (s.takeBytes s.available).1 = [] := by rw [takeBytes_fst, hunread, take_nil]
    have hleft : (s.takeBytes s.available).2.unread = [] := by rw [unread_takeBytes, hunread, drop_nil]
    unfold readlines
    rw [readline_eof hout heof]
    show Verdict.line _ :: readlines f limit k (s.takeBytes s.available).2 inputs = _
    rw [hbytes, ih _ ((eof_takeBytes s _).trans heof) hleft]
    rfl

/-- On two cuts of one stream, with buffers that have come equally far, the calls come to the
same. -/
theorem readlines_agree (hlimit : 0 < limit) (k : Nat) (stream : List UInt8)
    (hclear : Clear limit bound ((lines stream).take k)) {s₁ s₂ : ChunkBuffer} {rest₁ rest₂ : List UInt8}
    {inputs₁ inputs₂ : List ι} (hcut₁ : Cut f bound rest₁ inputs₁) (hcut₂ : Cut f bound rest₂ inputs₂)
    (heof₁ : s₁.eof = false) (heof₂ : s₂.eof = false) (hstream₁ : s₁.unread ++ rest₁ = stream)
    (hstream₂ : s₂.unread ++ rest₂ = stream) (hshort₁ : ∀ m, bound = some m → s₁.unread.length ≤ m)
    (hshort₂ : ∀ m, bound = some m → s₂.unread.length ≤ m) :
    readlines f limit k s₁ inputs₁ = readlines f limit k s₂ inputs₂ := by
  induction k generalizing stream s₁ s₂ rest₁ rest₂ inputs₁ inputs₂ with
  | zero => rfl
  | succ k ih =>
    rcases line_cases stream with hnone | ⟨body, tail, hbody, rfl⟩
    · -- the rest of the stream, without a newline
      rcases next_rest limit hcut₁ s₁ heof₁ (hstream₁ ▸ hnone) with ⟨t₁, left₁, hcases₁⟩
      rcases next_rest limit hcut₂ s₂ heof₂ (hstream₂ ▸ hnone) with ⟨t₂, left₂, hcases₂⟩
      rw [hstream₁] at hcases₁
      rw [hstream₂] at hcases₂
      unfold readlines
      rcases hcases₁ with ⟨hless, hread₁, hend₁, hempty₁⟩ | ⟨hle, ⟨k₁, hread₁⟩, hstuck₁⟩
      · rcases hcases₂ with ⟨-, hread₂, hend₂, hempty₂⟩ | ⟨hle, -⟩
        · rw [hread₁, hread₂]
          dsimp only
          rw [readlines_eof k t₁ left₁ hend₁ hempty₁, readlines_eof k t₂ left₂ hend₂ hempty₂]
        · omega
      · rcases hcases₂ with ⟨hless, -⟩ | ⟨-, ⟨k₂, hread₂⟩, hstuck₂⟩
        · omega
        · rw [hread₁, hread₂]
          dsimp only
          rw [hstuck₁.readlines, hstuck₂.readlines]
          rfl
    · rw [lines_body hbody, take_succ_cons] at hclear
      unfold readlines
      rcases hclear with ⟨hwithin, hclear⟩ | ⟨m, hm, hlong⟩
      · -- a line within the limit
        rw [length_append, length_singleton] at hwithin
        rcases next_line limit hcut₁ s₁ heof₁ hstream₁ hbody (by omega) (short_of_le hshort₁) with
          ⟨t₁, left₁, more₁, hread₁, hopen₁, hcut₁', htail₁, hshort₁'⟩
        rcases next_line limit hcut₂ s₂ heof₂ hstream₂ hbody (by omega) (short_of_le hshort₂) with
          ⟨t₂, left₂, more₂, hread₂, hopen₂, hcut₂', htail₂, hshort₂'⟩
        rw [hread₁, hread₂]
        exact congrArg (_ :: ·) (ih tail hclear hcut₁' hcut₂' hopen₁ hopen₂ htail₁ htail₂ hshort₁' hshort₂')
      · -- a line that every cut refuses; its newline cannot have come before
        rw [length_append, length_singleton] at hlong
        have hout : ∀ {u rest : List UInt8}, u ++ rest = body ++ newline :: tail →
            u.length ≤ m → newline ∉ u := by
          intro u rest heq hle hin
          rcases split_of_mem heq hbody hin with ⟨t, rfl, -⟩
          rw [length_append, length_cons] at hle
          omega
        rcases next_refused limit hcut₁ s₁ heof₁ hstream₁ hbody hm (by omega)
          (hout hstream₁ (hshort₁ m hm)) with
          ⟨t₁, left₁, ⟨k₁, hread₁⟩, hstuck₁⟩
        rcases next_refused limit hcut₂ s₂ heof₂ hstream₂ hbody hm (by omega)
          (hout hstream₂ (hshort₂ m hm)) with
          ⟨t₂, left₂, ⟨k₂, hread₂⟩, hstuck₂⟩
        rw [hread₁, hread₂]
        dsimp only
        rw [hstuck₁.readlines, hstuck₂.readlines]
        rfl

/-! ## Two cuts that differ -/

variable {grow : List UInt8 → ι} {stop : ι}

/-- The stream comes byte by byte. -/
def bytewise (grow : List UInt8 → ι) (stop : ι) (stream : List UInt8) : List ι :=
  (stream.map fun b => grow [b]) ++ [stop]

theorem cut_bytes (hgrow : ∀ c, c ≠ [] → f (grow c) = .grew c) (hpos : ∀ m, bound = some m → 0 < m)
    (l : List UInt8)
    {rest : List UInt8} {inputs : List ι} (hcut : Cut f bound rest inputs) :
    Cut f bound (l ++ rest) ((l.map fun b => grow [b]) ++ inputs) := by
  induction l with
  | nil => exact hcut
  | cons b l ih =>
    have hchunk := Cut.chunk (hgrow [b] (cons_ne_nil b [])) (cons_ne_nil b []) (fun m hm => hpos m hm) ih
    exact hchunk

theorem cut_bytewise (hgrow : ∀ c, c ≠ [] → f (grow c) = .grew c) (hstop : f stop = .ended)
    (hpos : ∀ m, bound = some m → 0 < m) (stream : List UInt8) :
    Cut f bound stream (bytewise grow stop stream) := by
  have hcut := cut_bytes hgrow hpos stream (.last hstop)
  rwa [append_nil] at hcut

/-- A line comes byte by byte as far as it is below the limit, and then with a chunk: it is
returned. -/
theorem readline_bytes_chunk (hgrow : ∀ c, c ≠ [] → f (grow c) = .grew c) (p c inputs) (s : ChunkBuffer)
    (heof : s.eof = false) (hnone : newline ∉ s.unread ++ p ++ c)
    (hlimit : (((s.unread ++ p).length : Nat) : Int) < limit) :
    ∃ s', readline f limit s ((p.map fun b => grow [b]) ++ grow (c ++ [newline]) :: inputs) =
      (.returns (.bytes (s.unread ++ p ++ c ++ [newline])), s', inputs) ∧
        s'.eof = false ∧ s'.unread = [] := by
  induction p generalizing s with
  | nil =>
    rw [append_nil] at hnone hlimit ⊢
    have hbelow : ¬ limit ≤ (s.available : Int) := by
      rw [length_unread] at hlimit
      omega
    have hi : f (grow (c ++ [newline])) = .grew (c ++ [newline]) := hgrow _ (by simp)
    have hgrown : (s.append (f (grow (c ++ [newline])))).2.unread = (s.unread ++ c) ++ newline :: [] := by
      rw [hi, append_grew, append_assoc]
    rw [map_nil, nil_append,
      readline_chunk (fun hin => hnone (mem_append_left _ hin)) heof hbelow hi,
      readline_found (findNewline_body hnone hgrown)]
    have hlength : (s.append (f (grow (c ++ [newline])))).2.unread.length = (s.unread ++ c).length + 1 := by
      rw [hgrown, length_append]
      rfl
    have hopen : (s.append (f (grow (c ++ [newline])))).2.eof = false := by
      rw [hi]
      exact heof
    refine ⟨((s.append (f (grow (c ++ [newline])))).2.takeBytes ((s.unread ++ c).length + 1)).2, ?_,
      (eof_takeBytes _ _).trans hopen, ?_⟩
    · unfold leave returnBytes
      dsimp only
      rw [takeBytes_fst, ← hlength, take_length, hgrown]
    · rw [unread_takeBytes, ← hlength, drop_length]
  | cons b p ih =>
    have hi : f (grow [b]) = .grew [b] := hgrow [b] (by simp)
    have hgrown : (s.append (f (grow [b]))).2.unread = s.unread ++ [b] := by
      rw [hi]
      exact append_grew s [b]
    have hout : newline ∉ s.unread := fun hin =>
      hnone (mem_append_left _ (mem_append_left _ hin))
    have hbelow : ¬ limit ≤ (s.available : Int) := by
      rw [length_append, length_unread] at hlimit
      omega
    have hmove : s.unread ++ b :: p = (s.append (f (grow [b]))).2.unread ++ p := by
      rw [hgrown, append_assoc]
      rfl
    rw [hmove] at hnone hlimit ⊢
    rw [map_cons, cons_append, readline_chunk hout heof hbelow hi]
    exact ih _ (by rw [hi]; exact heof) hnone hlimit

/-- Where a line is over the limit, and not so long that it is refused in any case, there are two
cuts that decide about it. -/
theorem exists_cuts (hgrow : ∀ c, c ≠ [] → f (grow c) = .grew c) (hstop : f stop = .ended)
    (hpos : ∀ m, bound = some m → 0 < m) (hlimit : 0 < limit) (k : Nat) (stream : List UInt8)
    (h : ¬ Clear limit bound ((lines stream).take k)) :
    ∃ inputs₁ inputs₂, Cut f bound stream inputs₁ ∧ Cut f bound stream inputs₂ ∧
      ∀ s₁ s₂ : ChunkBuffer, s₁.eof = false → s₂.eof = false → s₁.unread = [] → s₂.unread = [] →
        readlines f limit k s₁ inputs₁ ≠ readlines f limit k s₂ inputs₂ := by
  induction k generalizing stream with
  | zero => exact absurd trivial h
  | succ k ih =>
    rcases line_cases stream with hnone | ⟨body, tail, hbody, rfl⟩
    · have hempty : lines stream = [] := linesFrom_none hnone []
      rw [hempty] at h
      exact absurd trivial h
    · rw [lines_body hbody, take_succ_cons] at h
      have hlength : (((body ++ [newline]).length : Nat) : Int) = (body.length : Int) + 1 := by simp
      rcases not_or.1 h with ⟨hfirst, hlong⟩
      have hsplit : body ++ newline :: tail = body ++ ([newline] ++ tail) := rfl
      by_cases hwithin : (((body ++ [newline]).length : Nat) : Int) ≤ limit
      · -- the first line is returned by both, and the cuts of the rest differ
        rcases ih tail fun hclear => hfirst ⟨hwithin, hclear⟩ with ⟨inputs₁, inputs₂, hcut₁, hcut₂, hdiffer⟩
        have hone : ∀ m, bound = some m → ([] ++ [newline]).length ≤ m := fun m hm => by
          rw [nil_append, length_singleton]
          exact hpos m hm
        have hcut : ∀ {inputs}, Cut f bound tail inputs →
            Cut f bound (body ++ newline :: tail)
              ((body.map fun b => grow [b]) ++ grow ([] ++ [newline]) :: inputs) :=
          fun hcut => cut_bytes hgrow hpos body
            (Cut.chunk (hgrow ([] ++ [newline]) (cons_ne_nil newline []))
            (cons_ne_nil newline []) hone hcut)
        refine ⟨_, _, hcut hcut₁, hcut hcut₂, fun s₁ s₂ heof₁ heof₂ hempty₁ hempty₂ heq => ?_⟩
        have hread : ∀ (s : ChunkBuffer) (inputs : List ι), s.eof = false → s.unread = [] →
            ∃ s', readline f limit s ((body.map fun b => grow [b]) ++ grow ([] ++ [newline]) :: inputs) =
              (.returns (.bytes (s.unread ++ body ++ [] ++ [newline])), s', inputs) ∧ s'.eof = false ∧
                s'.unread = [] := by
          intro s inputs heof hempty
          apply readline_bytes_chunk hgrow body [] inputs s heof
          · rw [hempty, nil_append, append_nil]
            exact hbody
          · rw [hempty, nil_append]
            omega
        rcases hread s₁ inputs₁ heof₁ hempty₁ with ⟨t₁, hread₁, hopen₁, hleft₁⟩
        rcases hread s₂ inputs₂ heof₂ hempty₂ with ⟨t₂, hread₂, hopen₂, hleft₂⟩
        unfold readlines at heq
        rw [hread₁, hread₂] at heq
        exact hdiffer t₁ t₂ hopen₁ hopen₂ hleft₁ hleft₂ (List.cons.inj heq).2
      · -- the first line is returned when its end comes at once, and refused byte by byte
        rw [hlength] at hwithin
        have hcount : limit.toNat - 1 ≤ body.length := by omega
        have hparts : body = body.take (limit.toNat - 1) ++ body.drop (limit.toNat - 1) :=
          (take_append_drop _ _).symm
        refine ⟨((body.take (limit.toNat - 1)).map fun b => grow [b]) ++
          grow (body.drop (limit.toNat - 1) ++ [newline]) :: bytewise grow stop tail,
          bytewise grow stop (body ++ newline :: tail), ?_, cut_bytewise hgrow hstop hpos _,
          fun s₁ s₂ heof₁ heof₂ hempty₁ hempty₂ heq => ?_⟩
        · have hbound : ∀ m, bound = some m → (body.drop (limit.toNat - 1) ++ [newline]).length ≤ m := by
            intro m hm
            have hless : ¬ limit + m ≤ (body.length : Int) + 1 := fun hle =>
              hlong ⟨m, hm, by rw [hlength]; exact hle⟩
            rw [length_append, length_drop, length_singleton]
            omega
          have hcut := cut_bytes hgrow hpos (body.take (limit.toNat - 1))
            (Cut.chunk (hgrow (body.drop (limit.toNat - 1) ++ [newline]) (by simp)) (by simp) hbound
              (cut_bytewise hgrow hstop hpos tail))
          rw [append_assoc, ← append_assoc, ← hparts] at hcut
          exact hcut
        · have hnone : newline ∉ s₁.unread ++ body.take (limit.toNat - 1) ++
              body.drop (limit.toNat - 1) := by
            rw [hempty₁, nil_append, ← hparts]
            exact hbody
          have hbelow : (((s₁.unread ++ body.take (limit.toNat - 1)).length : Nat) : Int) < limit := by
            rw [hempty₁, nil_append, length_take]
            omega
          rcases readline_bytes_chunk hgrow _ _ (bytewise grow stop tail) s₁ heof₁ hnone hbelow with
            ⟨t₁, hread₁, -⟩
          have hone : Cut f (some 1) (body ++ newline :: tail)
              (bytewise grow stop (body ++ newline :: tail)) :=
            cut_bytewise hgrow hstop (fun m hm => by cases hm; exact Nat.one_pos) _
          rcases next_refused limit hone s₂ heof₂ (by rw [hempty₂]; rfl) hbody rfl (by omega)
            (by rw [hempty₂]; exact not_mem_nil) with ⟨t₂, left₂, ⟨k₂, hread₂⟩, -⟩
          unfold readlines at heq
          rw [hread₁, hread₂] at heq
          cases (List.cons.inj heq).1

/-- The calls of `readline` come to the same on all cuts of a stream if and only if no cut decides
about a line. -/
theorem readlines_cuts_iff (hgrow : ∀ c, c ≠ [] → f (grow c) = .grew c) (hstop : f stop = .ended)
    (hpos : ∀ m, bound = some m → 0 < m) (limit : Int) (k : Nat) (stream : List UInt8) :
    (∀ inputs₁ inputs₂, Cut f bound stream inputs₁ → Cut f bound stream inputs₂ →
        readlines f limit k {} inputs₁ = readlines f limit k {} inputs₂) ↔
      limit ≤ 0 ∨ Clear limit bound ((lines stream).take k) := by
  by_cases hlimit : limit ≤ 0
  · -- everything is refused
    have hstuck : Stuck limit {} := ⟨not_mem_nil, rfl, hlimit⟩
    refine ⟨fun _ => .inl hlimit, fun _ inputs₁ inputs₂ _ _ => ?_⟩
    rw [hstuck.readlines, hstuck.readlines]
  · rw [or_iff_right hlimit]
    constructor
    · intro hsame
      by_contra hclear
      rcases exists_cuts hgrow hstop hpos (not_le.1 hlimit) k stream hclear with
        ⟨inputs₁, inputs₂, hcut₁, hcut₂, hdiffer⟩
      exact hdiffer {} {} rfl rfl rfl rfl (hsame inputs₁ inputs₂ hcut₁ hcut₂)
    · intro hclear inputs₁ inputs₂ hcut₁ hcut₂
      exact readlines_agree (not_le.1 hlimit) k stream hclear hcut₁ hcut₂ rfl rfl rfl rfl
        (fun m _ => Nat.zero_le m)
        (fun m _ => Nat.zero_le m)

end Cuts

/-! ## The two readers -/

namespace Taking

variable {ε : Type*}

/-- A chunk as an item of `take_next`. -/
def ofChunk (c : List UInt8) : Taking ε :=
  .item 0 (by decide) c

theorem appended_ofChunk (c : List UInt8) (hc : c ≠ []) : (ofChunk c : Taking ε).appended = .grew c :=
  if_neg hc

end Taking

namespace Reading

variable {ε : Type*}

def ofChunk (c : List UInt8) : Reading ε :=
  { retry := .data c }

/-- The peer has closed the connection. -/
def closed : Reading ε :=
  { retry := .raises .zeroReturn }

theorem appended_ofChunk (c : List UInt8) (hc : c ≠ []) : (ofChunk c : Reading ε).appended = .grew c := by
  simp [ofChunk, appended, readSome, Retry.result, hc]

end Reading

/-- `_TLS_IO_SIZE`, the greatest number of bytes that `sslobj.read` is asked for -/
def tlsIoSize : Nat := 16384

/-- Any two ways of cutting a stream into chunks give the same outcomes of the first `k` calls of
`readline` if and only if the limit is not positive or none of the first `k` lines is over it; on an
`SSLStream`, whose chunks have a greatest length, a line that is longer by as much is refused in any
case. -/
theorem readline_cuts_iff {ε : Type*} (limit : Int) (k : Nat) (stream : List UInt8) :
    ((∀ inputs₁ inputs₂ : List (Taking ε), Cut Taking.appended none stream inputs₁ →
          Cut Taking.appended none stream inputs₂ →
          readlines Taking.appended limit k {} inputs₁ = readlines Taking.appended limit k {} inputs₂) ↔
        limit ≤ 0 ∨ ∀ line ∈ (lines stream).take k, (line.length : Int) ≤ limit) ∧
      ((∀ inputs₁ inputs₂ : List (Reading ε), Cut Reading.appended (some tlsIoSize) stream inputs₁ →
          Cut Reading.appended (some tlsIoSize) stream inputs₂ →
          readlines Reading.appended limit k {} inputs₁ = readlines Reading.appended limit k {} inputs₂) ↔
        limit ≤ 0 ∨ Clear limit (some tlsIoSize) ((lines stream).take k)) := by
  constructor
  · rw [← clear_none]
    have hgrow : ∀ c, c ≠ [] → (Taking.ofChunk c : Taking ε).appended = .grew c := Taking.appended_ofChunk
    have hstop : (Taking.done : Taking ε).appended = .ended := rfl
    exact readlines_cuts_iff hgrow hstop (fun m hm => by cases hm) limit k stream
  · have hgrow : ∀ c, c ≠ [] → (Reading.ofChunk c : Reading ε).appended = .grew c :=
    Reading.appended_ofChunk
    have hstop : (Reading.closed : Reading ε).appended = .ended := rfl
    refine readlines_cuts_iff hgrow hstop (fun m hm => ?_) limit k stream
    cases hm
    exact Nat.zero_lt_succ _

/-- The line `abc` on two cuts, with the limit `2`: it is returned where it comes at once, and
refused where its end comes later. -/
theorem cut_decides : ∃ whole parts : List (Taking String),
    Cut Taking.appended none [97, 98, 99, 10] whole ∧ Cut Taking.appended none [97, 98, 99, 10] parts ∧
      readlines Taking.appended 2 1 {} whole = [.line [97, 98, 99, 10]] ∧
      readlines Taking.appended 2 1 {} parts = [.refused] := by
  have hnone : ∀ (c : List UInt8) (m : Nat), none = some m → c.length ≤ m := fun _ _ hm => by cases hm
  have hlast : Cut Taking.appended none [] [(.done : Taking String)] := .last rfl
  have hend : Cut Taking.appended none ([99, 10] ++ []) [(.ofChunk [99, 10] : Taking String), .done] :=
    .chunk (Taking.appended_ofChunk _ (by decide)) (by decide) (hnone _) hlast
  have hwhole : Cut Taking.appended none ([97, 98, 99, 10] ++ [])
      [(.ofChunk [97, 98, 99, 10] : Taking String), .done] :=
    .chunk (Taking.appended_ofChunk _ (by decide)) (by decide) (hnone _) hlast
  have hparts : Cut Taking.appended none ([97, 98] ++ ([99, 10] ++ []))
      [(.ofChunk [97, 98] : Taking String), .ofChunk [99, 10], .done] :=
    .chunk (Taking.appended_ofChunk _ (by decide)) (by decide) (hnone _) hend
  exact ⟨_, _, hwhole, hparts, rfl, rfl⟩

end Pytealet.Streams
