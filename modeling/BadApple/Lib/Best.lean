/-
  Keeping the best: a scan that carries the smallest key so far and the item that has it.

  The scan moves on to an item only if its key is strictly smaller, so of several items with one key it
  keeps the first.  `List.minOn?` is what it computes, provided that it starts with a key above all others.

  1. **Where the result comes from** — it is the start or an item with its own key.
  2. **Which item it is** — the first of the smallest, and the start only if there are no items.
-/
import Mathlib.Data.List.Induction

namespace Best

universe u v

variable {α : Type u} {β : Type v} [LT β] [DecidableLT β] {key : α → β} {l : List α} {top : β} {d : α}

/-- One step of the scan. -/
def keep (key : α → β) (best : β × α) (x : α) : β × α := if key x < best.1 then (key x, x) else best

/-- The result is the start or an item with its key. -/
theorem foldl_keep_cases (key : α → β) (l : List α) (best : β × α) :
    l.foldl (keep key) best = best ∨ ∃ x ∈ l, l.foldl (keep key) best = (key x, x) := by
  induction l generalizing best with
  | nil => exact Or.inl rfl
  | cons y l ih =>
    rw [List.foldl_cons]
    rcases ih (keep key best y) with hstart | ⟨x, hx, hres⟩
    · rw [hstart]
      by_cases hlt : key y < best.1
      · exact Or.inr ⟨y, List.mem_cons_self, if_pos hlt⟩
      · exact Or.inl (if_neg hlt)
    · exact Or.inr ⟨x, List.mem_cons_of_mem _ hx, hres⟩

/-- **The scan finds the first item of the smallest key**, if there is any item. -/
theorem foldl_keep_minOn [LE β] [DecidableLE β] [Std.IsLinearPreorder β] [Std.LawfulOrderLT β]
    (htop : ∀ x ∈ l, key x < top) :
    (l = [] ∧ l.foldl (keep key) (top, d) = (top, d)) ∨
      ∃ x, l.minOn? key = some x ∧ l.foldl (keep key) (top, d) = (key x, x) := by
  -- from the right, as the scan goes
  induction l using List.reverseRecOn with
  | nil => exact Or.inl ⟨rfl, rfl⟩
  | append_singleton l y ih =>
    apply Or.inr
    rw [List.foldl_append, List.foldl_cons, List.foldl_nil, List.minOn?_append, List.minOn?_singleton]
    rcases ih fun x hx => htop x (List.mem_append_left _ hx) with ⟨rfl, hres⟩ | ⟨x, hx, hres⟩
    · refine ⟨y, rfl, ?_⟩
      rw [hres]
      exact if_pos (htop y (by simp))
    · rw [hres, hx]
      by_cases hle : key x ≤ key y
      · exact ⟨x, congrArg some (if_pos hle), if_neg (Std.not_lt.2 hle)⟩
      · exact ⟨y, congrArg some (if_neg hle), if_pos (Std.not_le.1 hle)⟩

end Best
