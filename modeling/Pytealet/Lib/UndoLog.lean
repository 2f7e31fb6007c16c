import Mathlib.Logic.Function.Basic

/-!
# UndoLog — writes that are recorded, and undone

Before a location is written, what it holds is added to a log.  Undoing the entries, the last one
first, gives the memory back.
-/

namespace Lib.UndoLog

open Function

variable {ℓ ν : Type*} [DecidableEq ℓ]

structure Entry (ℓ ν : Type*) where
  location : ℓ
  oldValue : ν

def undo (mem : ℓ → ν) (log : List (Entry ℓ ν)) : ℓ → ν :=
  log.foldr (fun e mem => update mem e.location e.oldValue) mem

theorem undo_concat (mem : ℓ → ν) (log : List (Entry ℓ ν)) (e : Entry ℓ ν) :
    undo mem (log ++ [e]) = undo (update mem e.location e.oldValue) log := by
  simp only [undo, List.foldr_append, List.foldr_cons, List.foldr_nil]

theorem undo_record (mem : ℓ → ν) (log : List (Entry ℓ ν)) (l : ℓ) (v : ν) :
    undo (update mem l v) (log ++ [⟨l, mem l⟩]) = undo mem log := by
  rw [undo_concat]
  dsimp only
  rw [update_idem, update_eq_self]

end Lib.UndoLog
