import Mathlib.Data.List.Induction
import Mathlib.Data.List.Nodup

/-!
# Register — a place for one item, and the history of its uses

An item that is put into the register replaces the one that is there.  `clear` empties it and `keep`
leaves it as it is.  The content after a history is the item that was put last, if the register was
not cleared since.
-/

namespace Lib

open List
namespace Register

inductive Use (α : Type*)
  | put (a : α)
  | clear
  | keep
  deriving DecidableEq, Repr

variable {α : Type*}

def after : Option α → Use α → Option α
  | _, .put a => some a
  | _, .clear => none
  | content, .keep => content

def content (uses : List (Use α)) : Option α :=
  uses.foldl after none

/-- The items that were put, the first first. -/
def puts (uses : List (Use α)) : List α :=
  uses.filterMap fun
    | .put a => some a
    | _ => none

variable {uses pre mid : List (Use α)} {a : α}

@[simp]
theorem content_concat (uses : List (Use α)) (u : Use α) :
    content (uses ++ [u]) = after (content uses) u := by
  simp [content]

/-- What was put before the register was cleared does not matter. -/
theorem content_append_clear (pre mid : List (Use α)) : content (pre ++ .clear :: mid) = content mid := by
  simp [content, after]

theorem content_eq_some (h : content uses = some a) :
    ∃ pre mid, uses = pre ++ .put a :: mid ∧ ∀ u ∈ mid, u = .keep := by
  -- the induction is on the history, from its latest use
  induction uses using List.reverseRecOn with
  | nil => cases h
  | append_singleton uses u ih =>
    rw [content_concat] at h
    cases u with
    | put b =>
      cases h
      exact ⟨uses, [], rfl, by simp⟩
    | clear => cases h
    | keep =>
      rcases ih h with ⟨pre, mid, rfl, hmid⟩
      refine ⟨pre, mid ++ [.keep], by simp, ?_⟩
      intro u hu
      rcases mem_append.1 hu with hu | hu
      · exact hmid u hu
      · exact mem_singleton.1 hu

theorem mem_puts_of_content (h : content uses = some a) : a ∈ puts uses := by
  rcases content_eq_some h with ⟨pre, mid, rfl, -⟩
  simp [puts]

/-- An item that was there when the register was cleared is not there again, if no two items that
were put have the same key. -/
theorem content_ne_of_clear {κ : Type*} {key : α → κ} {b : α}
    (hnodup : ((puts (pre ++ .clear :: mid)).map key).Nodup) (hpre : content pre = some a)
    (hafter : content (pre ++ .clear :: mid) = some b) : key a ≠ key b := by
  rw [content_append_clear] at hafter
  -- `a` was put before the register was cleared, `b` after it
  have hsplit : puts (pre ++ .clear :: mid) = puts pre ++ puts mid := by simp [puts]
  rw [hsplit, map_append] at hnodup
  have ha : key a ∈ (puts pre).map key := mem_map_of_mem (mem_puts_of_content hpre)
  have hb : key b ∈ (puts mid).map key := mem_map_of_mem (mem_puts_of_content hafter)
  intro heq
  exact (nodup_append.1 hnodup).2.2 _ ha _ hb heq

end Register

theorem concat_eq_append_cons {β : Type*} {log pre post : List β} {x y : β}
    (h : log ++ [x] = pre ++ y :: post) :
    (log = pre ∧ x = y) ∨ ∃ post', log = pre ++ y :: post' := by
  rcases eq_nil_or_concat post with rfl | ⟨post', z, rfl⟩
  · rcases append_inj' h rfl with ⟨hlog, hx⟩
    exact Or.inl ⟨hlog, singleton_inj.1 hx⟩
  · have hconcat : log ++ [x] = (pre ++ y :: post') ++ [z] := by simpa using h
    exact Or.inr ⟨post', (append_inj' hconcat rfl).1⟩

end Lib
