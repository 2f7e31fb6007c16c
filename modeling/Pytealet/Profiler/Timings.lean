import Mathlib.Algebra.Group.Prod
import Mathlib.Algebra.Order.PUnit
import Mathlib.Algebra.Order.Ring.Nat
import Mathlib.Algebra.Ring.Rat
import Pytealet.Lib.DictSum

/-!
# Timings — what the profilers keep of a function, and how it is merged

Timings are a dictionary from functions to tuples, with the callers of the function and their
counts.  Both profilers merge the timings of stacks into parts, one for each family, and the parts
into one.

The value of a part is what its dictionaries stand for, so that merging adds.
-/

namespace Pytealet.Profiler

open Lib

/-- `(filename, firstlineno, name)` -/
abbrev Func :=
  String × Int × String

/-- `(cc, nc, tt, ct, callers)` -/
structure Row where
  cc : Int
  nc : Int
  tt : ℚ
  ct : ℚ
  callers : Dict Func Int := Dict.empty

abbrev Timings :=
  Dict Func Row

def Row.add (dst src : Row) : Row where
  cc := dst.cc + src.cc
  nc := dst.nc + src.nc
  tt := dst.tt + src.tt
  ct := dst.ct + src.ct
  callers := dst.callers.merge (· + ·) src.callers

def mergeTimings (dst src : Timings) : Timings :=
  dst.merge Row.add src

/-- What is merged of a stack, or of several: their timings, their number and the threads they ran
in. -/
structure Part where
  timings : Timings := Dict.empty
  nstacks : Nat := 0
  threadIds : Dict Nat Unit := Dict.empty

def Part.add (dst src : Part) : Part where
  timings := mergeTimings dst.timings src.timings
  nstacks := dst.nstacks + src.nstacks
  threadIds := dst.threadIds.merge (fun _ _ => ()) src.threadIds

/-- A part joins those of its family. -/
def accumulate (parts : Dict Func Part) (family : Func) (part : Part) : Dict Func Part :=
  parts.set family (((parts.get? family).getD { }).add part)

/-- All parts merged into one. -/
def combine (parts : Dict Func Part) : Part :=
  parts.items.foldl (fun merged item => merged.add item.2) { }

def mainFamily : Func :=
  ("<main>", 0, "<main>")

/-! ## Values -/

abbrev RowValue :=
  ℤ × ℤ × ℚ × ℚ × (Func → WithZero ℤ)

abbrev TimingsValue :=
  Func → WithZero RowValue

abbrev PartValue :=
  TimingsValue × ℕ × (ℕ → WithZero Unit)

def Row.value (r : Row) : RowValue :=
  (r.cc, r.nc, r.tt, r.ct, r.callers.table id)

def timingsValue (t : Timings) : TimingsValue :=
  t.table Row.value

def Part.value (p : Part) : PartValue :=
  (timingsValue p.timings, p.nstacks, p.threadIds.table id)

theorem Row.value_add (dst src : Row) : (dst.add src).value = dst.value + src.value := by
  have hcallers : Dict.table (id : ℤ → ℤ) (dst.callers.merge (· + ·) src.callers) =
      Dict.table id dst.callers + Dict.table id src.callers := Dict.table_merge (fun _ _ => rfl) _ _
  simp only [Row.value, Row.add, hcallers]
  rfl

theorem timingsValue_merge (dst src : Timings) :
    timingsValue (mergeTimings dst src) = timingsValue dst + timingsValue src :=
  Dict.table_merge Row.value_add dst src

theorem Part.value_add (dst src : Part) : (dst.add src).value = dst.value + src.value := by
  have hids : Dict.table (id : Unit → Unit) (dst.threadIds.merge (fun _ _ => ()) src.threadIds) =
      Dict.table id dst.threadIds + Dict.table id src.threadIds := Dict.table_merge (fun _ _ => rfl) _ _
  simp only [Part.value, Part.add, timingsValue_merge, hids]
  rfl

@[simp] theorem Part.value_empty : ({ } : Part).value = 0 :=
  rfl

/-- What the parts add up to, where each counts as `φ` says. -/
def measure {M : Type*} [AddCommMonoid M] (φ : Func → PartValue → M) (parts : Dict Func Part) : M :=
  parts.sum fun family part => φ family part.value

theorem measure_accumulate {M : Type*} [AddCommMonoid M] {φ : Func → PartValue → M}
    (hφ : ∀ family v w, φ family (v + w) = φ family v + φ family w) (hzero : ∀ family, φ family 0 = 0)
    (parts : Dict Func Part) (family : Func) (part : Part) :
    measure φ (accumulate parts family part) = measure φ parts + φ family part.value := by
  refine Dict.sum_set _ parts family _ _ ?_
  rw [Part.value_add, hφ]
  cases parts.get? family with
  | none =>
    rw [Option.getD_none, Part.value_empty, hzero]
    rfl
  | some item => rfl

/-- The sum of the parts. -/
def totalValue (parts : Dict Func Part) : PartValue :=
  measure (fun _ v => v) parts

theorem totalValue_accumulate (parts : Dict Func Part) (family : Func) (part : Part) :
    totalValue (accumulate parts family part) = totalValue parts + part.value :=
  measure_accumulate (fun _ _ _ => rfl) (fun _ => rfl) parts family part

theorem combine_value (parts : Dict Func Part) : (combine parts).value = totalValue parts := by
  have hitems : ∀ (items : List (Func × Part)) (merged : Part),
      (items.foldl (fun merged item => merged.add item.2) merged).value =
        merged.value + (items.map fun item => item.2.value).sum := by
    intro items
    induction items with
    | nil => simp
    | cons item items ih =>
      intro merged
      rw [List.foldl_cons, ih, Part.value_add, List.map_cons, List.sum_cons]
      exact add_assoc _ _ _
  exact (hitems parts.items { }).trans (zero_add _)

end Pytealet.Profiler
