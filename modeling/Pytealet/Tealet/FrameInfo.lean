import Mathlib.Data.List.Basic
import Pytealet.Lib.UndoLog

/-!
# FrameInfo — the frames of a tealet that is switched out

`HideFrames` rewrites the links below a captured frame object such that they skip the frames that
are not complete, and records what it writes; `ExposeFrames` undoes it.  The records are kept in the
two items of the structure itself, and in a block on the heap when there are more.

What CPython does is a parameter: which frames are complete, what `_PyFrame_GetFirstComplete`
returns, and whether a frame object can be made.  So is the allocator: it fails, or gives a block
with anything in it.
-/

namespace Pytealet.Tealet.FrameInfo

open Lib.UndoLog Function List

/-- A link: `f_frame` of the captured frame object, or `previous` of a frame. -/
inductive Location (φ : Type*)
  | top
  | previous (f : φ)
  deriving DecidableEq, Repr

variable {φ : Type*}

abbrev Links (φ : Type*) :=
  Location φ → Option φ

abbrev Record (φ : Type*) :=
  Entry (Location φ) (Option φ)

/-- `PyTealetFrameInfo` -/
structure Info (φ : Type*) where
  /-- `frame` is not `NULL` -/
  frame : Bool
  items : Nat → Record φ
  size : Nat
  capacity : Nat
  /-- `items` is not `fixed_items` -/
  heap : Bool

structure World (φ : Type*) where
  links : Links φ
  /-- the frames that have a frame object -/
  hasObject : φ → Bool
  info : Info φ
  /-- how often the allocator was asked, also in vain -/
  asked : Nat := 0

structure Env (φ : Type*) where
  /-- not `_PyFrame_IsIncomplete` -/
  complete : φ → Bool
  /-- `_PyFrame_GetFirstComplete` -/
  firstComplete : Links φ → φ → Option φ
  /-- whether `PyFrame_GetBack` can make the frame object -/
  makes : φ → Bool
  alloc : Nat → Option (Nat → Record φ)

/-- `PYTEALET_FRAMEINFO_FIXED_ITEMS` -/
def fixedItems : Nat :=
  2

namespace World

variable [DecidableEq φ]

def clearRewrites (w : World φ) : World φ :=
  { w with info := { w.info with size := 0 } }

/-- `PyTealetFrameInfo_EnsureFrameObject`; when it fails the error is cleared. -/
def ensureFrameObject (E : Env φ) (w : World φ) (f : φ) : World φ :=
  if w.hasObject f || !E.makes f then w else { w with hasObject := update w.hasObject f true }

def nextCapacity (capacity : Nat) : Nat :=
  let next := if capacity ≠ 0 then capacity * 2 else fixedItems
  if next ≤ capacity then capacity + 1 else next

/-- Room for one more item, or an error. -/
def grow (E : Env φ) (w : World φ) : Except (World φ) (World φ) :=
  if w.info.size = w.info.capacity then
    match E.alloc w.asked with
    | none => .error { w with asked := w.asked + 1 }
    | some block =>
      -- `memcpy` of the items, or `PyMem_Realloc` of the whole block
      let kept := if w.info.heap then w.info.capacity else w.info.size
      .ok { w with
        asked := w.asked + 1
        info := { w.info with
          items := fun i => if i < kept then w.info.items i else block i
          capacity := nextCapacity w.info.capacity
          heap := true } }
  else .ok w

/-- `PyTealetFrameInfo_RecordRewrite` -/
def recordRewrite (E : Env φ) (w : World φ) (location : Location φ) : Except (World φ) (World φ) :=
  (w.grow E).map fun w =>
    { w with info := { w.info with
        items := update w.info.items w.info.size ⟨location, w.links location⟩
        size := w.info.size + 1 } }

def write (w : World φ) (location : Location φ) (value : Option φ) : World φ :=
  { w with links := update w.links location value }

/-- The loop of `ExposeFrames`. -/
def restore (items : Nat → Record φ) : Nat → Links φ → Links φ
  | 0, links => links
  | n + 1, links => restore items n (update links (items n).location (items n).oldValue)

/-- `PyTealetFrameInfo_ExposeFrames` -/
def exposeFrames (w : World φ) : World φ :=
  { w.clearRewrites with links := restore w.info.items w.info.size w.links }

/-- How the loop of `HideFrames` ends. -/
inductive Walk (φ : Type*)
  | failed (w : World φ)
  | done (w : World φ) (lastLink : Location φ) (linked : Bool)

/-- The loop of `HideFrames`; `none` when the fuel is used up. -/
def hideLoop (E : Env φ) : Nat → World φ → Location φ → Option φ → Bool → Option (Walk φ)
  | _, w, lastLink, none, linked => some (.done w lastLink linked)
  | 0, _, _, some _, _ => none
  | fuel + 1, w, lastLink, some f, linked =>
    match E.firstComplete w.links f with
    | none => some (.done w lastLink linked)
    | some g =>
      if E.complete g then
        let w₁ := w.ensureFrameObject E g
        if w₁.links lastLink ≠ some g then
          match w₁.recordRewrite E lastLink with
          | .error w₂ => some (.failed w₂)
          | .ok w₂ =>
            let w₃ := w₂.write lastLink (some g)
            hideLoop E fuel w₃ (.previous g) (w₃.links (.previous g)) true
        else hideLoop E fuel w₁ (.previous g) (w₁.links (.previous g)) true
      else hideLoop E fuel w lastLink (w.links (.previous g)) linked

/-- `PyTealetFrameInfo_HideFrames`: whether it succeeds. -/
def hideFrames (E : Env φ) (fuel : Nat) (w : World φ) : Option (Bool × World φ) :=
  if w.info.frame then
    let w := w.clearRewrites
    match hideLoop E fuel w .top (w.links .top) false with
    | none => none
    | some (.failed w) => some (false, w.exposeFrames)
    | some (.done w lastLink linked) =>
      if linked then
        if w.links lastLink ≠ none then
          match w.recordRewrite E lastLink with
          | .error w => some (false, w.exposeFrames)
          | .ok w => some (true, w.write lastLink none)
        else some (true, w)
      else
        let w := w.exposeFrames
        some (true, { w with info := { w.info with frame := false } })
  else some (true, w)

end World

/-! ## Chains -/

/-- From a location on, the links lead to these frames and end with `NULL`. -/
def Linked (links : Links φ) : Location φ → List φ → Prop
  | a, [] => links a = none
  | a, f :: fs => links a = some f ∧ Linked links (.previous f) fs

/-- What is assumed of `_PyFrame_GetFirstComplete`, for the frames of a chain. -/
def FindsFirst (E : Env φ) (fs : List φ) : Prop :=
  ∀ links f rest, (f :: rest) <:+ fs → Linked links (.previous f) rest →
    E.firstComplete links f = (f :: rest).find? E.complete

/-- From `a` on, the links lead to these frames and to the location `last`, which is not among those
on the way. -/
def Path (links : Links φ) (last : Location φ) : Location φ → List φ → Prop
  | a, [] => a = last
  | a, f :: fs => a ≠ last ∧ links a = some f ∧ Path links last (.previous f) fs

variable {links links' : Links φ} {a last : Location φ} {f g : φ} {fs rest : List φ}

theorem Linked.unique {fs' : List φ} (h : Linked links a fs) (h' : Linked links a fs') : fs = fs' := by
  induction fs generalizing a fs' with
  | nil =>
    cases fs' with
    | nil => rfl
    | cons g _ => exact nomatch h.symm.trans h'.1
  | cons f fs ih =>
    cases fs' with
    | nil => exact nomatch h'.symm.trans h.1
    | cons g fs' =>
      cases h.1.symm.trans h'.1
      rw [ih h.2 h'.2]

theorem Linked.after {pre : List φ} (h : Linked links a (pre ++ f :: rest)) :
    Linked links (.previous f) rest := by
  induction pre generalizing a with
  | nil => exact h.2
  | cons x pre ih => exact ih h.2

theorem Linked.head (h : Linked links a fs) : links a = fs.head? := by
  cases fs with
  | nil => exact h
  | cons f fs => exact h.1

theorem Linked.nodup (h : Linked links a fs) : fs.Nodup := by
  induction fs generalizing a with
  | nil => exact nodup_nil
  | cons f fs ih =>
    refine nodup_cons.mpr ⟨fun hmem => ?_, ih h.2⟩
    rcases append_of_mem hmem with ⟨pre, rest, rfl⟩
    -- the same location would be followed by two chains
    have hsame := congrArg List.length (h.2.unique h.2.after)
    simp only [length_append, length_cons] at hsame
    omega

theorem Linked.congr (h : Linked links a fs) (ha : links' a = links a)
    (hfs : ∀ f ∈ fs, links' (.previous f) = links (.previous f)) : Linked links' a fs := by
  induction fs generalizing a with
  | nil => exact ha.trans h
  | cons f fs ih =>
    exact ⟨ha.trans h.1, ih h.2 (hfs f mem_cons_self) fun g hg => hfs g (mem_cons_of_mem f hg)⟩

namespace Path

theorem close (h : Path links last a fs) (hlast : links last = none) : Linked links a fs := by
  induction fs generalizing a with
  | nil =>
    cases h
    exact hlast
  | cons f fs ih => exact ⟨h.2.1, ih h.2.2⟩

theorem write [DecidableEq φ] (h : Path links last a fs) (value : Option φ) :
    Path (update links last value) last a fs := by
  induction fs generalizing a with
  | nil => exact h
  | cons f fs ih => exact ⟨h.1, (update_of_ne h.1 ..).trans h.2.1, ih h.2.2⟩

theorem concat (h : Path links last a fs) (hlast : links last = some g)
    (ha : a ≠ .previous g) (hg : g ∉ fs) :
    Path links (.previous g) a (fs ++ [g]) := by
  induction fs generalizing a with
  | nil =>
    cases h
    exact ⟨ha, hlast, rfl⟩
  | cons f fs ih =>
    refine ⟨ha, h.2.1, ih h.2.2 ?_ fun hmem => hg (mem_cons_of_mem f hmem)⟩
    intro heq
    cases heq
    exact hg mem_cons_self

end Path

theorem Path.last_eq (h : Path links last a fs) : last = a ∨ ∃ x ∈ fs, last = .previous x := by
  induction fs generalizing a with
  | nil => exact Or.inl h.symm
  | cons f fs ih =>
    rcases ih h.2.2 with heq | ⟨x, hx, heq⟩
    · exact Or.inr ⟨f, mem_cons_self, heq⟩
    · exact Or.inr ⟨x, mem_cons_of_mem f hx, heq⟩

/-! ## The records -/

variable [DecidableEq φ] {E : Env φ} {w w' : World φ}

namespace World

def records (w : World φ) : List (Record φ) :=
  (List.range w.info.size).map w.info.items

/-- From the state `w₀` to `w` the allocator has answered whenever it was asked. -/
structure Answered (E : Env φ) (w₀ w : World φ) : Prop where
  le : w₀.asked ≤ w.asked
  some : ∀ n, w₀.asked ≤ n → n < w.asked → (E.alloc n).isSome

omit [DecidableEq φ] in
theorem Answered.of_eq (h : w'.asked = w.asked) : Answered E w w' :=
  ⟨Nat.le_of_eq h.symm, fun _ hn hlt => absurd (h ▸ hlt) (Nat.not_lt.2 hn)⟩

omit [DecidableEq φ] in
theorem grow_spec (h : w.grow E = .ok w') :
    w'.links = w.links ∧ w'.info.size = w.info.size ∧
      (∀ i < w.info.size, w'.info.items i = w.info.items i) ∧
      (w'.asked = w.asked ∨ w'.asked = w.asked + 1 ∧ (E.alloc w.asked).isSome) := by
  unfold grow at h
  split at h
  · rename_i hfull
    split at h
    · cases h
    · rename_i block hblock
      cases h
      refine ⟨rfl, rfl, fun i hi => ?_, Or.inr ⟨rfl, Option.isSome_of_eq_some hblock⟩⟩
      -- all items are kept, whether they move from the structure or from one block to the next
      have hkept : i < if w.info.heap then w.info.capacity else w.info.size := by
        split
        · exact hfull ▸ hi
        · exact hi
      exact if_pos hkept
  · cases h
    exact ⟨rfl, rfl, fun _ _ => rfl, Or.inl rfl⟩

omit [DecidableEq φ] in
/-- A rewrite is recorded unless the allocator gives no block, and then nothing has changed. -/
theorem recordRewrite_error (h : w.recordRewrite E last = .error w') :
    w' = { w with asked := w.asked + 1 } ∧ E.alloc w.asked = none := by
  unfold recordRewrite grow at h
  split at h
  · split at h
    · rename_i hnone
      cases h
      exact ⟨rfl, hnone⟩
    · cases h
  · cases h

omit [DecidableEq φ] in
theorem recordRewrite_spec (h : w.recordRewrite E last = .ok w') :
    w'.links = w.links ∧ w'.records = w.records ++ [⟨last, w.links last⟩] ∧
      (w'.asked = w.asked ∨ w'.asked = w.asked + 1 ∧ (E.alloc w.asked).isSome) := by
  unfold recordRewrite at h
  cases hgrow : w.grow E with
  | error v =>
    rw [hgrow] at h
    cases h
  | ok v =>
  rw [hgrow] at h
  cases h
  rcases grow_spec hgrow with ⟨hlinks, hsize, hitems, hasked⟩
  refine ⟨hlinks, ?_, hasked⟩
  simp only [records, hsize, range_succ, map_append, map_cons, map_nil, update_self, hlinks]
  congr 1
  apply map_congr_left
  intro i hi
  have hlt := mem_range.mp hi
  rw [update_of_ne (Nat.ne_of_lt hlt), hitems i hlt]

theorem restore_eq (items : Nat → Record φ) (n : Nat) (links : Links φ) :
    restore items n links = undo links ((List.range n).map items) := by
  induction n generalizing links with
  | zero => rfl
  | succ n ih =>
    rw [range_succ, map_append, map_cons, map_nil, undo_concat]
    exact ih _

theorem exposeFrames_links (w : World φ) : w.exposeFrames.links = undo w.links w.records :=
  restore_eq _ _ _

@[simp] theorem ensureFrameObject_links (f : φ) : (w.ensureFrameObject E f).links = w.links := by
  unfold ensureFrameObject
  split <;> rfl

@[simp] theorem ensureFrameObject_asked (f : φ) : (w.ensureFrameObject E f).asked = w.asked := by
  unfold ensureFrameObject
  split <;> rfl

@[simp] theorem ensureFrameObject_records (f : φ) : (w.ensureFrameObject E f).records = w.records := by
  unfold ensureFrameObject
  split <;> rfl

end World

/-! ## The loop -/

/-- The loop has passed the frames `pre` of the chain. -/
structure Hiding (E : Env φ) (w₀ : World φ) (fs : List φ) (w : World φ)
    (last : Location φ) (pre rest : List φ) :
    Prop where
  chain : Linked w₀.links .top fs
  split : pre ++ rest = fs
  path : Path w.links last .top (pre.filter E.complete)
  undone : undo w.links w.records = w₀.links
  /-- the links that it still follows -/
  below : ∀ f ∈ rest, w.links (.previous f) = w₀.links (.previous f)
  answered : World.Answered E w₀ w

namespace Hiding

variable {w₀ : World φ} {pre : List φ}

theorem last_ne (h : Hiding E w₀ fs w last pre rest) (hf : f ∈ rest) : last ≠ .previous f := by
  have hnodup : (pre ++ rest).Nodup := h.split ▸ h.chain.nodup
  rcases h.path.last_eq with heq | ⟨x, hx, heq⟩
  · rw [heq]
    exact nofun
  · rw [heq]
    intro hsame
    cases hsame
    exact (nodup_append.mp hnodup).2.2 _ (mem_filter.mp hx).1 _ hf rfl

theorem record (h : Hiding E w₀ fs w last pre rest) (hw : w.recordRewrite E last = .ok w')
    (value : Option φ) :
    Hiding E w₀ fs (w'.write last value) last pre rest := by
  rcases World.recordRewrite_spec hw with ⟨hlinks, hrecords, hasked⟩
  refine ⟨h.chain, h.split, ?_, ?_, fun f hf => ?_, ?_⟩
  · simp only [World.write, hlinks]
    exact h.path.write value
  · have hundone : undo (w'.write last value).links (w'.write last value).records =
        undo (update w.links last value) (w.records ++ [⟨last, w.links last⟩]) := by
      rw [← hrecords, ← hlinks]
      rfl
    rw [hundone, undo_record]
    exact h.undone
  · simp only [World.write, hlinks]
    rw [update_of_ne (h.last_ne hf).symm]
    exact h.below f hf
  · have hle := h.answered.le
    have hsome := h.answered.some
    constructor <;> simp only [World.write] <;> grind

/-- A rewrite that is not recorded leaves the records for the frames that it has passed, and a
request that the allocator has not answered. -/
theorem refused (h : Hiding E w₀ fs w last pre rest) (hw : w.recordRewrite E last = .error w') :
    undo w'.links w'.records = w₀.links ∧ ∃ n, w₀.asked ≤ n ∧ n < w'.asked ∧ E.alloc n = none := by
  rcases World.recordRewrite_error hw with ⟨rfl, hnone⟩
  exact ⟨h.undone, w.asked, h.answered.le, Nat.lt_succ_self _, hnone⟩

theorem pass {skip : List φ} (h : Hiding E w₀ fs w last pre (skip ++ g :: rest))
    (hskip : ∀ x ∈ skip, E.complete x = false)
    (hg : E.complete g = true) (hlast : w.links last = some g) :
    Hiding E w₀ fs w (.previous g) (pre ++ (skip ++ [g])) rest := by
  have hfilter : (pre ++ (skip ++ [g])).filter E.complete = pre.filter E.complete ++ [g] := by
    have hnone : skip.filter E.complete = [] := filter_eq_nil_iff.mpr (by simpa using hskip)
    simp [filter_append, hnone, hg]
  have hnodup : (pre ++ (skip ++ g :: rest)).Nodup := h.split ▸ h.chain.nodup
  refine ⟨h.chain, ?_, ?_, h.undone, fun f hf => ?_, h.answered⟩
  · rw [← h.split]
    simp
  · rw [hfilter]
    refine h.path.concat hlast nofun fun hmem => ?_
    have hgrest : g ∈ skip ++ g :: rest := mem_append_right _ mem_cons_self
    exact (nodup_append.mp hnodup).2.2 _ (mem_filter.mp hmem).1 _ hgrest rfl
  · exact h.below f (mem_append_right _ (mem_cons_of_mem g hf))

theorem congr (h : Hiding E w₀ fs w last pre rest) (hlinks : w'.links = w.links)
    (hrecords : w'.records = w.records)
    (hasked : w'.asked = w.asked) : Hiding E w₀ fs w' last pre rest := by
  refine ⟨h.chain, h.split, hlinks ▸ h.path, ?_, fun f hf => ?_,
    ⟨hasked ▸ h.answered.le, hasked ▸ h.answered.some⟩⟩
  · rw [hlinks, hrecords]
    exact h.undone
  · rw [hlinks]
    exact h.below f hf

theorem next {skip : List φ} (h : Hiding E w₀ fs w last pre (skip ++ g :: rest)) :
    w.links (.previous g) = rest.head? := by
  have hchain : Linked w₀.links .top ((pre ++ skip) ++ g :: rest) := by
    rw [append_assoc, h.split]
    exact h.chain
  rw [h.below g (mem_append_right _ mem_cons_self), hchain.after.head]

theorem finish (h : Hiding E w₀ fs w last pre rest) (hrest : ∀ f ∈ rest, E.complete f = false) :
    Hiding E w₀ fs w last fs [] := by
  have hnone : rest.filter E.complete = [] := filter_eq_nil_iff.mpr (by simpa using hrest)
  refine ⟨h.chain, append_nil fs, ?_, h.undone, fun f hf => absurd hf not_mem_nil, h.answered⟩
  rw [← h.split, filter_append, hnone, append_nil]
  exact h.path

theorem found (h : Hiding E w₀ fs w last pre (f :: rest)) (hfirst : FindsFirst E fs) :
    E.firstComplete w.links f = (f :: rest).find? E.complete := by
  apply hfirst w.links f rest ⟨pre, h.split⟩
  have hchain : Linked w₀.links .top (pre ++ f :: rest) := by
    rw [h.split]
    exact h.chain
  exact hchain.after.congr (h.below f mem_cons_self) fun g hg => h.below g (mem_cons_of_mem f hg)

end Hiding

/-- What the loop leaves. -/
def Walked (E : Env φ) (w₀ : World φ) (fs : List φ) : World.Walk φ → Prop
  | .failed w =>
    undo w.links w.records = w₀.links ∧ ∃ n, w₀.asked ≤ n ∧ n < w.asked ∧ E.alloc n = none
  | .done w last linked => Hiding E w₀ fs w last fs [] ∧ (linked = true ↔ ∃ f ∈ fs, E.complete f = true)

theorem hideLoop_spec {w₀ : World φ} (hfirst : FindsFirst E fs) (fuel : Nat) {pre : List φ} (linked : Bool)
    (h : Hiding E w₀ fs w last pre rest) (hlinked : linked = true ↔ ∃ f ∈ pre, E.complete f = true)
    (hfuel : rest.length ≤ fuel) :
    ∃ r, World.hideLoop E fuel w last rest.head? linked = some r ∧ Walked E w₀ fs r := by
  induction fuel generalizing w last pre rest linked with
  | zero =>
    cases length_eq_zero_iff.mp (Nat.le_zero.mp hfuel)
    have hpre : pre = fs := by
      rw [← h.split, append_nil]
    exact ⟨_, rfl, h.finish nofun, hpre ▸ hlinked⟩
  | succ fuel ih =>
    cases rest with
    | nil =>
      have hpre : pre = fs := by
        rw [← h.split, append_nil]
      exact ⟨_, rfl, h.finish nofun, hpre ▸ hlinked⟩
    | cons f rest =>
      simp only [List.head?_cons, World.hideLoop, h.found hfirst]
      cases hfind : (f :: rest).find? E.complete with
      | none =>
        have hnone : ∀ x ∈ f :: rest, E.complete x = false := by
          simpa using List.find?_eq_none.mp hfind
        refine ⟨_, rfl, h.finish hnone, hlinked.trans ?_⟩
        rw [← h.split]
        constructor
        · rintro ⟨x, hx, hc⟩
          exact ⟨x, mem_append_left _ hx, hc⟩
        · rintro ⟨x, hx, hc⟩
          rcases mem_append.mp hx with hx | hx
          · exact ⟨x, hx, hc⟩
          · rw [hnone x hx] at hc
            cases hc
      | some g =>
        rcases List.find?_eq_some_iff_append.mp hfind with ⟨hg, skip, behind, heq, hskip⟩
        have hskip' : ∀ x ∈ skip, E.complete x = false := by simpa using hskip
        have hpassed : true = true ↔ ∃ x ∈ pre ++ (skip ++ [g]), E.complete x = true :=
          ⟨fun _ => ⟨g, by simp, hg⟩, fun _ => rfl⟩
        have hlength : behind.length ≤ fuel := by
          have hlen := congrArg List.length heq
          simp only [length_cons, length_append] at hlen hfuel
          omega
        rw [heq] at h
        have h₁ : Hiding E w₀ fs (w.ensureFrameObject E g) last pre (skip ++ g :: behind) :=
          h.congr (by simp) (by simp) (by simp)
        dsimp only
        rw [if_pos hg]
        split
        · cases hrecord : (w.ensureFrameObject E g).recordRewrite E last with
          | error w₂ => exact ⟨_, rfl, h₁.refused hrecord⟩
          | ok w₂ =>
            have h₃ := h₁.record hrecord (some g)
            dsimp only
            rw [h₃.next]
            exact ih true (h₃.pass hskip' hg (update_self ..)) hpassed hlength
        · rename_i hsame
          rw [h₁.next]
          exact ih true (h₁.pass hskip' hg (not_not.mp hsame)) hpassed hlength

/-! ## Hiding and exposing -/

/-- However the records are stored, hiding leaves the chain of the complete frames, and exposing
undoes it; without success nothing is left of it.  It succeeds exactly if the allocator answers
whenever it is asked. -/
theorem frames_hidden (E : Env φ) (w : World φ) (fs : List φ) (hchain : Linked w.links .top fs)
    (hframe : w.info.frame = true) (hfirst : FindsFirst E fs) (fuel : Nat) (hfuel : fs.length ≤ fuel) :
    ∃ ok w', w.hideFrames E fuel = some (ok, w') ∧
      (ok = true ↔ ∀ n, w.asked ≤ n → n < w'.asked → (E.alloc n).isSome) ∧
      (ok = true → (∃ f ∈ fs, E.complete f = true) →
        Linked w'.links .top (fs.filter E.complete) ∧ w'.exposeFrames.links = w.links) ∧
      (ok = false ∨ (∀ f ∈ fs, E.complete f = false) → w'.links = w.links) := by
  have hstart : Hiding E w fs w.clearRewrites .top [] fs :=
    ⟨hchain, rfl, rfl, rfl, fun _ _ => rfl, World.Answered.of_eq rfl⟩
  rcases hideLoop_spec hfirst fuel false hstart (by simp) hfuel with ⟨r, hr, hwalked⟩
  have hhead : w.clearRewrites.links .top = fs.head? := hchain.head
  -- a request without an answer is told from the requests up to the end
  have hrefused : ∀ {w' : World φ}, (∃ n, w.asked ≤ n ∧ n < w'.asked ∧ E.alloc n = none) →
      (false = true ↔ ∀ n, w.asked ≤ n → n < w'.asked → (E.alloc n).isSome) := by
    rintro w' ⟨n, hn, hlt, hnone⟩
    refine ⟨fun h => Bool.noConfusion h, fun h => ?_⟩
    have hsome := h n hn hlt
    rw [hnone] at hsome
    cases hsome
  unfold World.hideFrames
  rw [if_pos hframe]
  dsimp only
  rw [hhead, hr]
  cases r with
  | failed w₁ =>
    refine ⟨false, _, rfl, hrefused hwalked.2, nofun, fun _ => ?_⟩
    exact (World.exposeFrames_links w₁).trans hwalked.1
  | done w₁ last linked =>
    rcases hwalked with ⟨hend, hlinked⟩
    dsimp only
    have hexposed : w₁.exposeFrames.links = w.links := (World.exposeFrames_links w₁).trans hend.undone
    split
    · rename_i htrue
      have hsome := hlinked.mp htrue
      -- with a complete frame, only a failure has to leave the links
      have hcontra : ∀ {P : Prop}, (∀ f ∈ fs, E.complete f = false) → P := by
        intro P hnone
        rcases hsome with ⟨f, hf, hc⟩
        rw [hnone f hf] at hc
        cases hc
      split
      · cases hrecord : w₁.recordRewrite E last with
        | error w₂ =>
          have ⟨hundone, hnone⟩ := hend.refused hrecord
          exact ⟨false, _, rfl, hrefused hnone, nofun, fun _ => (World.exposeFrames_links w₂).trans hundone⟩
        | ok w₂ =>
          have h₂ := hend.record hrecord none
          refine ⟨true, _, rfl, iff_of_true rfl h₂.answered.some,
            fun _ _ => ⟨h₂.path.close (update_self ..), ?_⟩, fun h => ?_⟩
          · exact (World.exposeFrames_links _).trans h₂.undone
          · exact h.elim nofun hcontra
      · rename_i hlast
        refine ⟨true, _, rfl, iff_of_true rfl hend.answered.some,
          fun _ _ => ⟨hend.path.close (not_not.mp hlast), hexposed⟩, fun h => ?_⟩
        exact h.elim nofun hcontra
    · rename_i hfalse
      exact ⟨true, _, rfl, iff_of_true rfl hend.answered.some,
        fun _ hsome => absurd (hlinked.mpr hsome) hfalse, fun _ => hexposed⟩

/-- A `_PyFrame_GetFirstComplete` that follows at most `n` frames. -/
def firstWithin (complete : φ → Bool) : Nat → Links φ → φ → Option φ
  | 0, _, _ => none
  | n + 1, links, f =>
    if complete f then some f
    else
      match links (.previous f) with
      | none => none
      | some g => firstWithin complete n links g

omit [DecidableEq φ] in
theorem firstWithin_eq {complete : φ → Bool} {n : Nat} (h : Linked links (.previous f) rest)
    (hn : rest.length < n) :
    firstWithin complete n links f = (f :: rest).find? complete := by
  induction n generalizing f rest with
  | zero => exact absurd hn (Nat.not_lt_zero _)
  | succ n ih =>
    unfold firstWithin
    cases hf : complete f with
    | true => simp [hf]
    | false =>
      cases rest with
      | nil =>
        have hnone : links (.previous f) = none := h
        simp [hf, hnone]
      | cons g rest =>
        rw [h.1, List.find?_cons_of_neg (by simp [hf])]
        exact ih h.2 (Nat.lt_of_succ_lt_succ hn)

/-- Five frames, of which the second and the fourth are complete; the third record does not fit the
structure. -/
def fiveFrames : World Nat where
  links
    | .top => some 0
    | .previous f => if f < 4 then some (f + 1) else none
  hasObject := fun _ => false
  info :=
    { frame := true, items := fun _ => ⟨.top, none⟩, size := 0,
      capacity := fixedItems, heap := false }

def oddFrames : Env Nat where
  complete f := f % 2 = 1
  firstComplete := firstWithin (fun f => f % 2 = 1) 5
  makes _ := true
  alloc _ := some fun _ => ⟨.top, none⟩

theorem frames_hidden_five : ∃ w', fiveFrames.hideFrames oddFrames 5 = some (true, w') ∧
    Linked w'.links .top [1, 3] ∧ w'.exposeFrames.links = fiveFrames.links := by
  have hfirst : FindsFirst oddFrames [0, 1, 2, 3, 4] := fun links f rest hsuffix hlinked =>
    firstWithin_eq hlinked hsuffix.length_le
  rcases frames_hidden oddFrames fiveFrames [0, 1, 2, 3, 4] ⟨rfl, rfl, rfl, rfl, rfl, rfl⟩ rfl
    hfirst 5 (Nat.le_refl 5) with
    ⟨ok, w', hrun, hok, hsucceeds, -⟩
  -- the allocator of `oddFrames` never fails
  cases hok.2 fun _ _ _ => rfl
  exact ⟨w', hrun, hsucceeds rfl ⟨1, by decide, rfl⟩⟩

end Pytealet.Tealet.FrameInfo
