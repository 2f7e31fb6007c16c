import Mathlib.Algebra.Field.Basic
import Mathlib.Algebra.Field.Rat
import Mathlib.Data.Rat.Cast.Defs
import Mathlib.Tactic.Abel
import Pytealet.Profiler.Timings

/-!
# Labels — the views of the C profiler

The C profiler keeps an entry for each code object, in the table of a stack or, when a tealet has
exited, in the table of its family.  The views turn each table into timings, where a function is
known by its label only, and merge these.  Two code objects may have one label; of the entries of
one table with the same label, the last one is kept.

The tables are dictionaries with code objects as keys, and two code objects may be equal that differ
in their file name.  A dictionary keeps the key that it has been given first.

Times are in nanoseconds.
-/

namespace Pytealet.Profiler.Labels

open Lib List

/-- A code object as a key; `body` is what else is compared. -/
inductive Code
  | builtin (name : String)
  | code (body : Nat) (firstlineno : Int) (name : String)
  deriving DecidableEq, Repr

/-- The label of a code object with its file name. -/
def label (filename : String) : Code → Func
  | .builtin name => ("~", 0, name)
  | .code _ firstlineno name => (filename, firstlineno, name)

/-- `filename` is that of `user`, and each key of `calls` has one. -/
structure Entry where
  filename : String
  tt : Int := 0
  it : Int := 0
  callcount : Int := 0
  recursivecallcount : Int := 0
  calls : Dict Code (String × Int) := Dict.empty
  /-- each recursive call has been counted as a call -/
  recursive_le : recursivecallcount ≤ callcount := by decide

/-- `entry_merge` -/
def Entry.merge (dst src : Entry) : Entry where
  filename := dst.filename
  tt := dst.tt + src.tt
  it := dst.it + src.it
  callcount := dst.callcount + src.callcount
  recursivecallcount := dst.recursivecallcount + src.recursivecallcount
  calls := dst.calls.merge (fun m n => (m.1, m.2 + n.2)) src.calls
  recursive_le := Int.add_le_add dst.recursive_le src.recursive_le

/-- The table of a stack or of a family: what an entry calls has an entry too. -/
structure Entries where
  items : Dict Code Entry := Dict.empty
  closed : ∀ c e, items.get? c = some e → ∀ callee, (e.calls.get? callee).isSome = true →
    (items.get? callee).isSome = true := by intro c e h; cases h

theorem isSome_merge {α : Type*} (f : α → α → α) (x y : Option α) :
    (Option.merge f x y).isSome = (x.isSome || y.isSome) := by
  cases x <;> cases y <;> rfl

/-- The loop of `stack_merge_into_folded`; an entry that it makes is zero at first, and becomes the
other. -/
def Entries.merge (dst src : Entries) : Entries where
  items := dst.items.merge Entry.merge src.items
  closed := by
    intro c e he callee hcallee
    rw [Dict.get?_merge] at he ⊢
    rw [isSome_merge, Bool.or_eq_true]
    cases hd : dst.items.get? c with
    | none =>
      rw [hd, Option.merge_none_left] at he
      exact Or.inr (src.closed c e he callee hcallee)
    | some d =>
      cases hs : src.items.get? c with
      | none =>
        rw [hd, hs] at he
        cases he
        exact Or.inl (dst.closed c _ hd callee hcallee)
      | some s =>
        rw [hd, hs] at he
        cases he
        rw [Entry.merge, Dict.get?_merge, isSome_merge, Bool.or_eq_true] at hcallee
        exact hcallee.imp (dst.closed c d hd callee) (src.closed c s hs callee)

structure Stack where
  entries : Entries := { }
  family : Option Func := none
  threadId : Nat

structure Folded where
  entries : Entries := { }
  nstacks : Nat := 0
  threadIds : Dict Nat Unit := Dict.empty

structure State where
  foldOnExit : Bool
  stackList : List Stack
  folded : Dict (Option Func) Folded := Dict.empty

/-- `folded_get` -/
def State.foldedGet (p : State) (family : Option Func) : Folded :=
  (p.folded.get? family).getD { }

/-- `stack_merge_into_folded` -/
def Folded.mergeStack (f : Folded) (st : Stack) : Folded where
  entries := f.entries.merge st.entries
  nstacks := f.nstacks + 1
  threadIds := f.threadIds.set st.threadId ()

/-- `profiler_fold_stack`, of the tealet with the `i`-th stack, which has exited. -/
def State.foldStack (p : State) (i : Nat) : State :=
  match p.stackList[i]? with
  | none => p
  | some st =>
    if p.foldOnExit then
      { p with
        folded := p.folded.set st.family ((p.foldedGet st.family).mergeStack st)
        stackList := p.stackList.eraseIdx i }
    else p

/-! ## The views -/

def Entry.row (e : Entry) : Row where
  cc := if e.callcount - e.recursivecallcount < 0 then e.callcount else e.callcount - e.recursivecallcount
  nc := e.callcount
  tt := (e.it : ℚ) / 1000000000
  ct := (e.tt : ℚ) / 1000000000

/-- A caller of a function is counted, if the function has timings. -/
def bump (timings : Timings) (callee caller : Func) (n : Int) : Timings :=
  match timings.get? callee with
  | none => timings
  | some r => timings.set callee { r with callers := r.callers.set caller ((r.callers.get? caller).getD 0 + n) }

/-- The label of an entry, and of what one calls. -/
def func (x : Code × Entry) : Func :=
  label x.2.filename x.1

def callee (call : Code × String × Int) : Func :=
  label call.2.1 call.1

def entriesToTimings (entries : List (Code × Entry)) : Timings :=
  let timings : Timings := entries.foldl (fun t x => t.set (func x) x.2.row) Dict.empty
  entries.foldl (fun t x => x.2.calls.items.foldl
    (fun t call => bump t (callee call) (func x) call.2.2) t) timings

def familyOf (family : Option Func) : Func :=
  family.getD mainFamily

/-- What `dump_stacks` gives of a stack. -/
def Stack.part (st : Stack) : Part where
  timings := entriesToTimings st.entries.items.items
  nstacks := 1
  threadIds := Dict.empty.set st.threadId ()

/-- What `dump_folded` gives of a family. -/
def Folded.part (f : Folded) : Part where
  timings := entriesToTimings f.entries.items.items
  nstacks := if f.nstacks = 0 then 1 else f.nstacks
  threadIds := f.threadIds

def State.groupedParts (p : State) : Dict Func Part :=
  p.folded.items.foldl (fun groups f => accumulate groups (familyOf f.1) f.2.part)
    (p.stackList.foldl (fun groups st => accumulate groups (familyOf st.family) st.part) Dict.empty)

/-- What `combined` takes a snapshot of. -/
def State.combined (p : State) : Part :=
  combine p.groupedParts

/-! ## The property -/

/-- Calls, inline time and total time. -/
abbrev Counts :=
  ℤ × ℚ × ℚ

def counts (r : Row) : Counts :=
  (r.nc, r.tt, r.ct)

def countsAt (timings : Timings) (f : Func) : Counts :=
  ((timings.get? f).map counts).getD 0

/-- All tables of the profiler. -/
def State.tables (p : State) : List Entries :=
  p.stackList.map Stack.entries ++ p.folded.items.map fun f => f.2.entries

def countsOf (f : Func) (entries : List (Code × Entry)) : Counts :=
  (entries.map fun x => if func x = f then counts x.2.row else 0).sum

/-- All that was recorded under a label. -/
def State.recorded (p : State) (f : Func) : Counts :=
  (p.tables.map fun t => countsOf f t.items.items).sum

/-- The entries that are followed by another one with the same label. -/
def overwritten : List (Code × Entry) → List (Code × Entry)
  | [] => []
  | x :: xs => if xs.any fun y => func y = func x then x :: overwritten xs else overwritten xs

def State.lost (p : State) (f : Func) : Counts :=
  (p.tables.map fun t => countsOf f (overwritten t.items.items)).sum

/-- No two code objects of a table have the same label. -/
def State.Clean (p : State) : Prop :=
  ∀ t ∈ p.tables, (t.items.items.map fun x => func x).Nodup

/-- Code objects that are equal have one file name. -/
def Entries.Filed (filename : Code → String) (t : Entries) : Prop :=
  ∀ x ∈ t.items.items, x.2.filename = filename x.1 ∧ ∀ call ∈ x.2.calls.items, call.2.1 = filename call.1

def State.Filed (filename : Code → String) (p : State) : Prop :=
  ∀ t ∈ p.tables, t.Filed filename

/-- What an entry is worth: its own row, and one for each function that it calls. -/
def worth (c : Code) (e : Entry) : TimingsValue :=
  Dict.single (label e.filename c) e.row.value +
    e.calls.sum fun called n => Dict.single (label n.1 called)
      (0, 0, 0, 0, Dict.single (label e.filename c) n.2)

def State.worth (p : State) : TimingsValue :=
  (p.tables.map fun t => t.items.sum Labels.worth).sum

/-- What an entry that is folded brings to a label: where its key is there already, its counts leave
their own label and come to the label of the key. -/
def strays (dst : Entries) (f : Func) (c : Code) (e : Entry) : Counts :=
  match dst.items.get? c with
  | none => 0
  | some d => (if label d.filename c = f then counts e.row else 0) - if label e.filename c =
      f then counts e.row else 0

def State.strays (p : State) (i : Nat) (f : Func) : Counts :=
  match p.stackList[i]? with
  | none => 0
  | some st =>
    if p.foldOnExit then st.entries.items.sum (Labels.strays (p.foldedGet st.family).entries f) else
      0

/-- What all foldings of a sequence of exits bring to a label. -/
def State.strayed (p : State) (f : Func) : List Nat → Counts
  | [] => 0
  | i :: exits => p.strays i f + (p.foldStack i).strayed f exits

/-! ## Folding -/

section Additive

variable {M : Type*} [AddCommMonoid M] {F : Code → Entry → M}

def State.sum (F : Code → Entry → M) (p : State) : M :=
  (p.tables.map fun t => t.items.sum F).sum

/-- The profiler without a stack. -/
def State.without (p : State) (i : Nat) : State :=
  { p with stackList := p.stackList.eraseIdx i }

theorem sum_without {p : State} {i : Nat} {st : Stack} (hst : p.stackList[i]? = some st) :
    p.sum F = st.entries.items.sum F + (p.without i).sum F := by
  have hstacks : (p.stackList.map fun st => st.entries.items.sum F).sum =
      st.entries.items.sum F + ((p.stackList.eraseIdx i).map fun st => st.entries.items.sum F).sum := by
    rcases List.getElem?_eq_some_iff.1 hst with ⟨hlt, hget⟩
    have hlt' : i < (p.stackList.map fun st => st.entries.items.sum F).length := by simpa using hlt
    rw [← add_sum_eraseIdx hlt' fun _ _ => AddCommute.all _ _, getElem_map, hget, eraseIdx_map]
  simp only [State.sum, State.tables, State.without, map_append, map_map, sum_append, Function.comp_def,
    hstacks, add_assoc]

theorem sum_foldStack {p : State} {i : Nat} {st : Stack} (hst : p.stackList[i]? = some st)
    (hfold : p.foldOnExit = true)
    {x : M} (hx : ((p.foldedGet st.family).entries.merge st.entries).items.sum F =
      (p.foldedGet st.family).entries.items.sum F + x) :
    (p.foldStack i).sum F = (p.without i).sum F + x := by
  have hfolded := Dict.sum_set (fun _ (f : Folded) => f.entries.items.sum F) p.folded st.family
    ((p.foldedGet st.family).mergeStack st) x (by
      rw [Folded.mergeStack, hx, State.foldedGet]
      cases p.folded.get? st.family with
      | none => rfl
      | some f => rfl)
  simp only [State.foldStack, hst, hfold, if_true, State.sum, State.tables,
    State.without, map_append, map_map,
    sum_append]
  simp only [Dict.sum] at hfolded
  simp only [Function.comp_def, Dict.sum, hfolded]
  abel

theorem sum_exits (hF : ∀ c a b, F c (Entry.merge a b) = F c a + F c b) (p : State) (exits : List Nat) :
    (exits.foldl State.foldStack p).sum F = p.sum F := by
  induction exits generalizing p with
  | nil => rfl
  | cons i exits ih =>
    refine (ih (p.foldStack i)).trans ?_
    cases hst : p.stackList[i]? with
    | none => simp only [State.foldStack, hst]
    | some st =>
      cases hfold : p.foldOnExit with
      | false => simp [State.foldStack, hst, hfold]
      | true =>
        rw [sum_foldStack hst hfold (Dict.sum_merge hF _ _), sum_without hst, add_comm]

end Additive

theorem Entries.filed_iff {filename : Code → String} {t : Entries} : t.Filed filename ↔
    ∀ c e, t.items.get? c = some e → e.filename = filename c ∧
      ∀ called n, e.calls.get? called = some n → n.1 = filename called := by
  constructor
  · intro h c e he
    rcases h (c, e) (Dict.mem_items.2 he) with ⟨hfile, hcalls⟩
    exact ⟨hfile, fun called n hn => hcalls (called, n) (Dict.mem_items.2 hn)⟩
  · intro h x hx
    rcases h x.1 x.2 (Dict.mem_items.1 hx) with ⟨hfile, hcalls⟩
    exact ⟨hfile, fun call hcall => hcalls call.1 call.2 (Dict.mem_items.1 hcall)⟩

theorem Entries.Filed.merge {filename : Code → String} {dst src : Entries} (hd : dst.Filed filename)
    (hs : src.Filed filename) : (dst.merge src).Filed filename := by
  rw [Entries.filed_iff] at hd hs ⊢
  intro c e he
  simp only [Entries.merge, Dict.get?_merge] at he
  cases hdst : dst.items.get? c with
  | none =>
    rw [hdst, Option.merge_none_left] at he
    exact hs c e he
  | some d =>
    cases hsrc : src.items.get? c with
    | none =>
      rw [hdst, hsrc, Option.merge_none_right] at he
      cases he
      exact hd c _ hdst
    | some s =>
      rw [hdst, hsrc] at he
      cases he
      refine ⟨(hd c d hdst).1, fun called n hn => ?_⟩
      simp only [Entry.merge, Dict.get?_merge] at hn
      cases hcall : d.calls.get? called with
      | none =>
        rw [hcall, Option.merge_none_left] at hn
        exact (hs c s hsrc).2 called n hn
      | some m =>
        have hfile := (hd c d hdst).2 called m hcall
        rw [hcall] at hn
        cases hother : s.calls.get? called with
        | none =>
          rw [hother] at hn
          cases hn
          exact hfile
        | some m' =>
          rw [hother] at hn
          cases hn
          exact hfile

/-- Every table after an exit comes from tables before it. -/
theorem State.Filed.foldStack {filename : Code → String} {p : State} (h : p.Filed filename) (i : Nat) :
    (p.foldStack i).Filed filename := by
  unfold State.foldStack
  split
  · exact h
  · rename_i st hst
    split
    · have hstack : st.entries.Filed filename :=
        h _ (mem_append_left _ (mem_map.2 ⟨st, mem_of_getElem? hst, rfl⟩))
      have hold : (p.foldedGet st.family).entries.Filed filename := by
        unfold State.foldedGet
        cases hget : p.folded.get? st.family with
        | none => exact fun x hx => by cases hx
        | some f => exact h _ (mem_append_right _ (mem_map.2 ⟨_, Dict.mem_items.2 hget, rfl⟩))
      intro t ht
      rcases mem_append.1 ht with ht | ht
      · rcases mem_map.1 ht with ⟨st', hst', rfl⟩
        exact h _ (mem_append_left _ (mem_map.2 ⟨st', mem_of_mem_eraseIdx hst', rfl⟩))
      · rcases mem_map.1 ht with ⟨⟨family, f⟩, hf, rfl⟩
        have hf' := Dict.mem_items.1 hf
        rw [Dict.get?_set] at hf'
        split at hf'
        · cases hf'
          exact hold.merge hstack
        · exact h _ (mem_append_right _ (mem_map.2 ⟨_, Dict.mem_items.2 hf', rfl⟩))
    · exact h

/-! ## Sums -/

theorem countsAt_set (t : Timings) (g : Func) (r : Row) (f : Func) :
    countsAt (t.set g r) f = if f = g then counts r else countsAt t f := by
  unfold countsAt
  rw [Dict.get?_set]
  by_cases heq : f = g
  · rw [if_pos heq, if_pos heq]
    rfl
  · rw [if_neg heq, if_neg heq]

theorem counts_first (f : Func) (entries : List (Code × Entry)) (t : Timings) :
    countsAt (entries.foldl (fun t x => t.set (func x) x.2.row) t) f + countsOf f (overwritten entries) +
        (if entries.any fun x => func x = f then countsAt t f else 0) =
          countsAt t f + countsOf f entries := by
  induction entries generalizing t with
  | nil => simp [countsOf, overwritten]
  | cons x xs ih =>
    have hrest := ih (t.set (func x) x.2.row)
    rw [countsAt_set] at hrest
    have hcons : ∀ (y : Code × Entry) (ys : List (Code × Entry)),
        countsOf f (y :: ys) = (if func y = f then counts y.2.row else 0) + countsOf f ys := fun y ys => by
      simp [countsOf]
    rw [foldl_cons, hcons, overwritten, any_cons]
    by_cases hx : func x = f
    · subst hx
      rw [if_pos rfl] at hrest
      by_cases hany : (xs.any fun y => func y = func x) = true
      · simp only [hany, if_true, hcons, decide_true, Bool.true_or] at hrest ⊢
        have hsum := add_right_cancel (hrest.trans (add_comm _ _))
        rw [← hsum]
        abel
      · rw [if_neg hany, add_zero] at hrest
        rw [if_neg hany, decide_eq_true (rfl : func x = func x), Bool.true_or,
          if_pos rfl, if_pos rfl, hrest]
        abel
    · have hset : (if f = func x then counts x.2.row else countsAt t f) = countsAt t f :=
        if_neg fun h => hx h.symm
      rw [hset] at hrest
      rw [if_neg hx, zero_add, decide_eq_false hx, Bool.false_or]
      split
      · rw [hcons, if_neg hx, zero_add]
        exact hrest
      · exact hrest

theorem countsAt_bump (t : Timings) (callee caller : Func) (n : Int) (f : Func) :
    countsAt (bump t callee caller n) f = countsAt t f := by
  unfold bump
  split
  · rfl
  · rename_i r hr
    rw [countsAt_set]
    split
    · rename_i heq
      rw [heq, countsAt, hr]
      rfl
    · rfl

theorem counts_entries (f : Func) (entries : List (Code × Entry)) :
    countsAt (entriesToTimings entries) f + countsOf f (overwritten entries) = countsOf f entries := by
  have hcalls : ∀ (calls : List (Code × String × Int)) (caller : Func) (t : Timings),
      countsAt (calls.foldl (fun t call => bump t (callee call) caller call.2.2) t) f = countsAt t f := by
    intro calls caller
    induction calls with
    | nil => exact fun _ => rfl
    | cons call calls ih => exact fun t => (ih _).trans (countsAt_bump t _ _ _ f)
  have hsecond : ∀ (xs : List (Code × Entry)) (t : Timings),
      countsAt
        (xs.foldl (fun t x => x.2.calls.items.foldl
          (fun t call => bump t (callee call) (func x) call.2.2) t) t) f =
        countsAt t f := by
    intro xs
    induction xs with
    | nil => exact fun _ => rfl
    | cons x xs ih => exact fun t => (ih _).trans (hcalls x.2.calls.items (func x) t)
  have hfirst := counts_first f entries Dict.empty
  have hzero : countsAt (Dict.empty : Timings) f = 0 := rfl
  rw [hzero, ite_self, add_zero, zero_add] at hfirst
  exact (congrArg (· + _) (hsecond entries _)).trans hfirst

/-- The counts that stand for a value. -/
def countsValue (v : TimingsValue) (f : Func) : Counts :=
  WithZero.recZeroCoe 0 (fun r : RowValue => (r.2.1, r.2.2.1, r.2.2.2.1)) (v f)

theorem countsValue_timings (t : Timings) (f : Func) : countsValue (timingsValue t) f = countsAt t f := by
  unfold countsValue timingsValue Dict.table countsAt
  cases t.get? f with
  | none => rfl
  | some r => rfl

theorem countsValue_add (v w : TimingsValue) (f : Func) :
    countsValue (v + w) f = countsValue v f + countsValue w f := by
  unfold countsValue
  rw [Pi.add_apply]
  cases v f with
  | zero =>
    rw [zero_add]
    exact (zero_add _).symm
  | coe r =>
    cases w f with
    | zero =>
      rw [add_zero]
      exact (add_zero _).symm
    | coe r' => rfl

theorem totalValue_grouped (p : State) :
    totalValue p.groupedParts = (p.stackList.map fun st => st.part.value).sum +
      (p.folded.items.map fun f => f.2.part.value).sum := by
  have hstacks : ∀ (l : List Stack) (groups : Dict Func Part),
      totalValue (l.foldl (fun groups st => accumulate groups (familyOf st.family) st.part) groups) =
        totalValue groups + (l.map fun st => st.part.value).sum := by
    intro l
    induction l with
    | nil => simp
    | cons st l ih =>
      intro groups
      rw [foldl_cons, ih, totalValue_accumulate, map_cons, sum_cons, add_assoc]
  have hfolded : ∀ (l : List (Option Func × Folded)) (groups : Dict Func Part),
      totalValue (l.foldl (fun groups f => accumulate groups (familyOf f.1) f.2.part) groups) =
        totalValue groups + (l.map fun f => f.2.part.value).sum := by
    intro l
    induction l with
    | nil => simp
    | cons f l ih =>
      intro groups
      rw [foldl_cons, ih, totalValue_accumulate, map_cons, sum_cons, add_assoc]
  rw [State.groupedParts, hfolded, hstacks]
  exact congrArg (· + _) (zero_add _)

theorem timingsValue_combined (p : State) :
    timingsValue p.combined.timings = (p.tables.map fun t =>
      timingsValue (entriesToTimings t.items.items)).sum := by
  have hfst : ∀ l : List PartValue, l.sum.1 = (l.map Prod.fst).sum := by
    intro l
    induction l with
    | nil => rfl
    | cons v l ih =>
      rw [sum_cons, map_cons, sum_cons, ← ih]
      rfl
  have htotal := congrArg Prod.fst ((combine_value p.groupedParts).trans (totalValue_grouped p))
  rw [Prod.fst_add, hfst, hfst, map_map, map_map] at htotal
  rw [State.tables, map_append, sum_append, map_map, map_map]
  exact htotal

theorem counts_combined (p : State) (f : Func) :
    countsAt p.combined.timings f + p.lost f = p.recorded f := by
  have hsum : ∀ l : List Entries,
      countsValue (l.map fun t => timingsValue (entriesToTimings t.items.items)).sum f +
        (l.map fun t => countsOf f (overwritten t.items.items)).sum =
          (l.map fun t => countsOf f t.items.items).sum := by
    intro l
    induction l with
    | nil => exact add_zero (0 : Counts)
    | cons t l ih =>
      simp only [map_cons, sum_cons]
      rw [countsValue_add, countsValue_timings, ← counts_entries f t.items.items, ← ih]
      abel
  rw [← countsValue_timings, timingsValue_combined]
  exact hsum p.tables

theorem recorded_foldStack (p : State) (i : Nat) (f : Func) :
    (p.foldStack i).recorded f = p.recorded f + p.strays i f := by
  unfold State.strays
  cases hst : p.stackList[i]? with
  | none => simp [State.foldStack, hst]
  | some st =>
    cases hfold : p.foldOnExit with
    | false => simp [State.foldStack, hst, hfold]
    | true =>
      have hrow : ∀ a b : Entry, counts (a.merge b).row = counts a.row + counts b.row := fun a b => by
        simp only [counts, Entry.row, Entry.merge, Prod.mk_add_mk, Int.cast_add, add_div]
      have hmerge := Dict.sum_merge_of (F := fun c e => if label e.filename c = f then counts e.row else 0)
        (G := fun c e => (if label e.filename c = f then counts e.row else 0) +
          Labels.strays (p.foldedGet st.family).entries f c e) (f := Entry.merge)
        (p.foldedGet st.family).entries.items st.entries.items fun c e => by
          unfold Labels.strays
          cases (p.foldedGet st.family).entries.items.get? c with
          | none => simp
          | some d =>
            have hfile : (d.merge e).filename = d.filename := rfl
            simp only [Option.map_some, Option.getD_some, add_sub_cancel, hrow, hfile]
            by_cases hlabel : label d.filename c = f
            · simp only [if_pos hlabel]
            · simp only [if_neg hlabel, add_zero]
      have hsum : ∀ F G : Code → Entry → Counts, st.entries.items.sum (fun c e => F c e + G c e) =
          st.entries.items.sum F + st.entries.items.sum G := fun F G => sum_map_add
      rw [hsum] at hmerge
      refine (sum_foldStack hst hfold hmerge).trans ?_
      have hwithout := sum_without (F := fun c e => if label e.filename c = f then counts e.row else 0) hst
      simp only [if_true]
      rw [← add_assoc, add_comm (State.sum _ _), ← hwithout]
      rfl

theorem recorded_exits (p : State) (exits : List Nat) (f : Func) :
    State.recorded (exits.foldl State.foldStack p) f = p.recorded f + p.strayed f exits := by
  induction exits generalizing p with
  | nil => exact (add_zero _).symm
  | cons i exits ih => rw [foldl_cons, ih, recorded_foldStack, State.strayed, add_assoc]

/-! ## Values -/

theorem Row.value_row_merge (a b : Entry) : (a.merge b).row.value = a.row.value + b.row.value := by
  have ha := a.recursive_le
  have hb := b.recursive_le
  have hcc : ∀ x y : Int, y ≤ x → (if x - y < 0 then x else x - y) = x - y := fun x y hle =>
    if_neg (Int.not_lt.2 (Int.sub_nonneg_of_le hle))
  have hab := hcc _ _ (Entry.merge a b).recursive_le
  simp only [Row.value, Entry.row, hcc _ _ ha, hcc _ _ hb, hab]
  simp only [Entry.merge, Prod.mk_add_mk, Int.cast_add, add_div, Prod.mk.injEq, true_and]
  exact ⟨add_sub_add_comm _ _ _ _, (add_zero _).symm⟩

/-- What an entry is worth where code objects that are equal have one file name. -/
def filedWorth (filename : Code → String) (c : Code) (e : Entry) : TimingsValue :=
  Dict.single (label (filename c) c) e.row.value +
    e.calls.sum fun called n => Dict.single (label (filename called) called)
      (0, 0, 0, 0, Dict.single (label (filename c) c) n.2)

theorem filedWorth_merge (filename : Code → String) (c : Code) (a b : Entry) :
    filedWorth filename c (a.merge b) = filedWorth filename c a + filedWorth filename c b := by
  have hcalls := Dict.sum_merge (F := fun called (n : String × Int) =>
      (Dict.single (label (filename called) called)
        (0, 0, 0, 0, Dict.single (label (filename c) c) n.2) : TimingsValue))
    (f := fun m n => (m.1, m.2 + n.2))
    (fun called m n => by
      rw [← Dict.single_add, Dict.single_add]
      simp only [Prod.mk_add_mk, add_zero]) a.calls b.calls
  rw [filedWorth, filedWorth, filedWorth, Row.value_row_merge, Dict.single_add]
  rw [Entry.merge, hcalls]
  abel

theorem State.Filed.worth {filename : Code → String} {p : State} (h : p.Filed filename) :
    p.worth = p.sum (filedWorth filename) := by
  refine congrArg List.sum (map_congr_left fun t ht => congrArg List.sum (map_congr_left fun x hx => ?_))
  rcases h t ht x hx with ⟨hfile, hcalls⟩
  refine congrArg₂ (· + ·) (by rw [hfile]) (congrArg List.sum (map_congr_left fun call hcall => ?_))
  simp only [hfile, hcalls call hcall]

theorem State.Filed.exits {filename : Code → String} {p : State} (h : p.Filed filename) (exits : List Nat) :
    State.Filed filename (exits.foldl State.foldStack p) := by
  induction exits generalizing p with
  | nil => exact h
  | cons i exits ih => exact ih (h.foldStack i)

theorem worth_exits {filename : Code → String} {p : State} (h : p.Filed filename) (exits : List Nat) :
    State.worth (exits.foldl State.foldStack p) = p.worth := by
  rw [(h.exits exits).worth, h.worth]
  exact sum_exits (filedWorth_merge filename) p exits

theorem value_first (entries : List (Code × Entry)) (t : Timings)
    (hnodup : (entries.map fun x => func x).Nodup)
    (hnew : ∀ x ∈ entries, t.get? (func x) = none) :
    timingsValue (entries.foldl (fun t x => t.set (func x) x.2.row) t) =
      timingsValue t + (entries.map fun x => (Dict.single (func x) x.2.row.value : TimingsValue)).sum := by
  induction entries generalizing t with
  | nil => simp
  | cons x xs ih =>
    rcases nodup_cons.1 hnodup with ⟨hfresh, hrest⟩
    have hset : timingsValue (t.set (func x) x.2.row) =
        timingsValue t + Dict.single (func x) x.2.row.value := by
      refine Dict.table_set ?_
      rw [hnew x mem_cons_self]
      exact (zero_add _).symm
    rw [foldl_cons, ih _ hrest, hset, map_cons, sum_cons, add_assoc]
    intro y hy
    rw [Dict.get?_set, if_neg]
    · exact hnew y (mem_cons_of_mem _ hy)
    · exact fun heq => hfresh (mem_map.2 ⟨y, hy, heq⟩)

theorem isSome_first (entries : List (Code × Entry)) (t : Timings) {f : Func}
    (h : (t.get? f).isSome = true ∨ ∃ x ∈ entries, func x = f) :
    ((entries.foldl (fun t x => t.set (func x) x.2.row) t).get? f).isSome = true := by
  induction entries generalizing t with
  | nil =>
    rcases h with h | ⟨x, hx, _⟩
    · exact h
    · cases hx
  | cons x xs ih =>
    refine ih _ ?_
    rw [Dict.get?_set]
    rcases h with h | ⟨y, hy, hlabel⟩
    · left
      split
      · rfl
      · exact h
    · rcases mem_cons.1 hy with rfl | hy
      · exact Or.inl (by rw [if_pos hlabel.symm]; rfl)
      · exact Or.inr ⟨y, hy, hlabel⟩

theorem value_bump (t : Timings) (callee caller : Func) (n : Int) (h : (t.get? callee).isSome = true) :
    timingsValue (bump t callee caller n) =
        timingsValue t + Dict.single callee (0, 0, 0, 0, Dict.single caller n) ∧
      ∀ f, ((bump t callee caller n).get? f).isSome = (t.get? f).isSome := by
  rcases Option.isSome_iff_exists.1 h with ⟨r, hr⟩
  have hcallers : (r.callers.set caller ((r.callers.get? caller).getD 0 + n)).table id =
      r.callers.table id + (Dict.single caller n : Func → WithZero ℤ) := by
    refine Dict.table_set ?_
    cases r.callers.get? caller with
    | none => simp [Dict.value]
    | some m => exact WithZero.coe_add m n
  unfold bump
  rw [hr]
  constructor
  · refine Dict.table_set ?_
    rw [hr]
    refine Eq.trans ?_ (WithZero.coe_add r.value (0, 0, 0, 0, Dict.single caller n))
    simp only [Row.value, hcallers, Prod.mk_add_mk, add_zero]
  · intro f
    dsimp only
    rw [Dict.get?_set]
    split
    · rename_i heq
      rw [heq, hr]
      rfl
    · rfl

theorem value_entries (E : Entries) {filename : Code → String} (hfiled : E.Filed filename)
    (hclean : (E.items.items.map fun x => func x).Nodup) :
    timingsValue (entriesToTimings E.items.items) = E.items.sum worth := by
  have hcalls : ∀ (calls : List (Code × String × Int)) (caller : Func) (t : Timings),
      (∀ call ∈ calls, (t.get? (callee call)).isSome = true) →
      timingsValue (calls.foldl (fun t call => bump t (callee call) caller call.2.2) t) = timingsValue t +
          (calls.map fun call => (Dict.single (callee call)
            (0, 0, 0, 0, Dict.single caller call.2.2) : TimingsValue)).sum ∧
        ∀ f, ((calls.foldl (fun t call => bump t (callee call) caller call.2.2) t).get? f).isSome =
          (t.get? f).isSome := by
    intro calls caller
    induction calls with
    | nil => exact fun t _ => ⟨(add_zero _).symm, fun _ => rfl⟩
    | cons call calls ih =>
      intro t hall
      rcases value_bump t (callee call) caller call.2.2 (hall call mem_cons_self) with ⟨hvalue, hkeys⟩
      rcases ih (bump t (callee call) caller call.2.2) (fun c hc => by
        rw [hkeys]
        exact hall c (mem_cons_of_mem _ hc)) with ⟨hvalues, hall'⟩
      refine ⟨?_, fun f => (hall' f).trans (hkeys f)⟩
      rw [foldl_cons, hvalues, hvalue, map_cons, sum_cons, add_assoc]
  have hsecond : ∀ (xs : List (Code × Entry)) (t : Timings),
      (∀ x ∈ xs, ∀ call ∈ x.2.calls.items, (t.get? (callee call)).isSome = true) →
      timingsValue
          (xs.foldl (fun t x => x.2.calls.items.foldl
            (fun t call => bump t (callee call) (func x) call.2.2) t) t) =
        timingsValue t + (xs.map fun x => x.2.calls.sum fun called n =>
          (Dict.single (label n.1 called) (0, 0, 0, 0, Dict.single (func x) n.2) : TimingsValue)).sum := by
    intro xs
    induction xs with
    | nil => exact fun t _ => (add_zero _).symm
    | cons x xs ih =>
      intro t hall
      rcases hcalls x.2.calls.items (func x) t (hall x mem_cons_self) with ⟨hvalue, hkeys⟩
      rw [foldl_cons, ih _ fun y hy call hcall => ?_, hvalue, map_cons, sum_cons, add_assoc]
      · rfl
      · rw [hkeys]
        exact hall y (mem_cons_of_mem _ hy) call hcall
  rw [entriesToTimings, hsecond, value_first E.items.items Dict.empty hclean fun _ _ => rfl]
  · rw [show timingsValue (Dict.empty : Timings) = 0 from rfl, zero_add, ← sum_map_add]
    rfl
  · intro x hx call hcall
    refine isSome_first E.items.items Dict.empty (Or.inr ?_)
    have hcallee := E.closed x.1 x.2 (Dict.mem_items.1 hx) call.1
      (by rw [Dict.mem_items.1 (hcall : (call.1, call.2) ∈ x.2.calls.items)]; rfl)
    rcases Option.isSome_iff_exists.1 hcallee with ⟨e, he⟩
    have hentry := Dict.mem_items.2 he
    -- the key of the call and that of the entry have one file name
    refine ⟨(call.1, e), hentry, congrArg (label · call.1) ?_⟩
    exact (hfiled _ hentry).1.trans ((hfiled x hx).2 call hcall).symm

/-- The combined view counts exactly what was recorded if and only if, under each label, the entries
that are overwritten count what folding has brought there.  Where no table has two code objects with
one label, and code objects that are equal have one file name, the whole view is the sum of what was
recorded, whatever was folded and in whatever order. -/
theorem views_count_once (p : State) (exits : List Nat) :
    ((∀ f, countsAt (State.combined (exits.foldl State.foldStack p)).timings f = p.recorded f) ↔
      ∀ f, State.lost (exits.foldl State.foldStack p) f = p.strayed f exits) ∧
    (State.Clean (exits.foldl State.foldStack p) → (∃ filename, p.Filed filename) →
      timingsValue (State.combined (exits.foldl State.foldStack p)).timings = p.worth) := by
  constructor
  · refine forall_congr' fun f => ?_
    have hview := (counts_combined (exits.foldl State.foldStack p) f).trans (recorded_exits p exits f)
    constructor
    · intro hcount
      rw [hcount] at hview
      exact add_left_cancel hview
    · intro hlost
      rw [hlost] at hview
      exact add_right_cancel hview
  · rintro hclean ⟨filename, hfiled⟩
    rw [timingsValue_combined]
    refine Eq.trans (congrArg List.sum ?_) (worth_exits hfiled exits)
    exact map_congr_left fun t ht => value_entries t (hfiled.exits exits t ht) (hclean t ht)

/-- A table with all that its entries call. -/
def Entries.ofItems (items : Dict Code Entry)
    (h : ∀ x ∈ items.items, ∀ call ∈ x.2.calls.items, (items.get? call.1).isSome = true) : Entries where
  items := items
  closed := by
    intro c e he called hcalled
    rcases Option.isSome_iff_exists.1 hcalled with ⟨n, hn⟩
    exact h (c, e) (Dict.mem_items.2 he) (called, n) (Dict.mem_items.2 hn)

/-- A function has called another one twice. -/
def twoFunctions : Dict Code Entry :=
  (Dict.empty.set (.code 1 1 "f")
    { filename := "m.py", tt := 12, it := 5, callcount := 1,
      calls := Dict.empty.set (.code 2 3 "g") ("m.py", 2) }).set
    (.code 2 3 "g") { filename := "m.py", tt := 7, it := 7, callcount := 2 }

/-- Two stacks of one family, with the same functions. -/
def twoStacks : State where
  foldOnExit := true
  stackList := List.replicate 2 { entries := .ofItems twoFunctions (by decide +kernel), threadId := 1 }

/-- One of the two stacks is folded. -/
theorem views_count_once_two :
    timingsValue (State.combined ([0].foldl State.foldStack twoStacks)).timings = twoStacks.worth :=
  (views_count_once twoStacks [0]).2 (by unfold State.Clean; decide +kernel)
    ⟨fun _ => "m.py", by unfold State.Filed Entries.Filed; decide +kernel⟩

/-- Two functions on one line, each called once. -/
def twoLambdas : Dict Code Entry :=
  (Dict.empty.set (.code 1 3 "<lambda>") { filename := "m.py", tt := 5, it := 5, callcount := 1 }).set
    (.code 2 3 "<lambda>") { filename := "m.py", tt := 7, it := 7, callcount := 1 }

def lambdaStack : State where
  foldOnExit := true
  stackList := [{ entries := .ofItems twoLambdas (by decide +kernel), threadId := 1 }]

/-- One of the two calls is not counted. -/
theorem label_shared : ¬ ∀ f, countsAt lambdaStack.combined.timings f = lambdaStack.recorded f := by
  intro h
  have hcalls := congrArg Prod.fst (h ("m.py", 3, "<lambda>"))
  exact absurd hcalls (by decide +kernel)

end Pytealet.Profiler.Labels
