/-
  Singly linked chains: a list of nodes as it is read off one link function.

  `Reads next first l` says that following `next` from `first` reads `l`, and then nothing.

  1. **Frame** — only the links of the nodes that are read matter, so that a change elsewhere is none.
  2. **Edits** — `insertAfter` puts a node behind another one, or before all of them; it links one node only,
     since the new one has been linked already.
-/
import Mathlib.Data.List.Nodup
import Mathlib.Logic.Function.Basic

namespace Links

open Function (update)

universe u

variable {α : Type u} {next next' : α → Option α} {first p : Option α} {l l₁ l₂ : List α} {x t : α}

/-- Following `next` from `first` reads `l`, and then nothing. -/
def Reads (next : α → Option α) : Option α → List α → Prop
  | first, [] => first = none
  | first, x :: l => first = some x ∧ Reads next (next x) l

/-- The first node is where the reading starts. -/
theorem Reads.first_eq (h : Reads next first l) : first = l.head? := by
  cases l with
  | nil => exact h
  | cons x l => exact h.1

theorem Reads.tail (h : Reads next first (x :: l)) : Reads next (next x) l := h.2

/-- The nodes that one comes to by following `next`, at most `fuel` of them. -/
def walk (next : α → Option α) : (fuel : Nat) → Option α → List α
  | 0, _ => []
  | _ + 1, none => []
  | fuel + 1, some x => x :: walk next fuel (next x)

/-- **Walking reads the list.** -/
theorem Reads.walk_eq {fuel : Nat} (h : Reads next first l) (hfuel : l.length ≤ fuel) :
    walk next fuel first = l := by
  induction l generalizing first fuel with
  | nil =>
    obtain rfl : first = none := h
    cases fuel <;> rfl
  | cons x l ih =>
    obtain ⟨rfl, hrest⟩ := h
    cases fuel with
    | zero => exact absurd hfuel (Nat.not_succ_le_zero _)
    | succ fuel => rw [walk, ih hrest (Nat.le_of_succ_le_succ hfuel)]

/-- Only the links of the nodes that are read matter. -/
theorem Reads.congr (h : Reads next first l) (hn : ∀ y ∈ l, next' y = next y) : Reads next' first l := by
  induction l generalizing first with
  | nil => exact h
  | cons x l ih =>
    refine ⟨h.1, ?_⟩
    rw [hn x List.mem_cons_self]
    exact ih h.2 fun y hy => hn y (List.mem_cons_of_mem x hy)

/-- The last node has no link. -/
theorem Reads.next_last (h : Reads next first (l ++ [x])) : next x = none := by
  induction l generalizing first with
  | nil => exact h.2
  | cons y l ih => exact ih h.2

variable [DecidableEq α]

/-- **Two chains as one**: the last node of the first is linked to the first node of the second. -/
theorem Reads.append {first' : Option α} (h : Reads next first (l₁ ++ [t])) (h' : Reads next first' l₂)
    (hnodup : (l₁ ++ [t]).Nodup) (ht : t ∉ l₂) :
    Reads (Function.update next t first') first (l₁ ++ t :: l₂) := by
  induction l₁ generalizing first with
  | nil =>
    refine ⟨h.1, ?_⟩
    rw [Function.update_self]
    refine h'.congr fun y hy => Function.update_of_ne ?_ _ _
    rintro rfl
    exact ht hy
  | cons x l₁ ih =>
    obtain ⟨hx, hnodup'⟩ := List.nodup_cons.1 hnodup
    have hne : x ≠ t := by
      rintro rfl
      exact hx (by simp)
    refine ⟨h.1, ?_⟩
    rw [Function.update_of_ne hne]
    exact ih h.2 hnodup'

/-- Put `t` behind `p`, or before all nodes: the first node, and the links. -/
def insertAfter (next : α → Option α) (first p : Option α) (t : α) : Option α × (α → Option α) :=
  match p with
  | none => (some t, next)
  | some y => (first, update next y (some t))

/-- **Inserting a node** that is linked to what comes after it. -/
theorem Reads.insert (h : Reads next first (l₁ ++ l₂)) (hnodup : (l₁ ++ l₂).Nodup) (ht : t ∉ l₁ ++ l₂)
    (hnext : next t = l₂.head?) :
    Reads (insertAfter next first l₁.getLast? t).2 (insertAfter next first l₁.getLast? t).1
      (l₁ ++ t :: l₂) := by
  induction l₁ generalizing first with
  | nil =>
    have hread : Reads next first l₂ := h
    refine ⟨rfl, ?_⟩
    show Reads next (next t) l₂
    rw [hnext, ← hread.first_eq]
    exact hread
  | cons x l₁ ih =>
    obtain ⟨rfl, hrest⟩ := h
    obtain ⟨hx, hnodup'⟩ := List.nodup_cons.1 hnodup
    have htx : t ≠ x := fun he => ht (by rw [he]; exact List.mem_cons_self)
    have hih := ih hrest hnodup' fun hm => ht (List.mem_cons_of_mem x hm)
    cases l₁ with
    | nil =>
      -- `x` is the one that is linked
      refine ⟨rfl, ?_⟩
      show Reads (update next x (some t)) (update next x (some t) x) (t :: l₂)
      rw [Function.update_self]
      refine hih.congr fun y hy => Function.update_of_ne ?_ _ _
      rintro rfl
      rcases List.mem_cons.1 hy with rfl | hy
      · exact htx rfl
      · exact hx hy
    | cons z l₁ =>
      obtain ⟨y, hy⟩ : ∃ y, (z :: l₁).getLast? = some y :=
        ⟨_, List.getLast?_eq_some_getLast (List.cons_ne_nil z l₁)⟩
      have hlast : (x :: z :: l₁).getLast? = some y := by rw [List.getLast?_cons_cons, hy]
      have hne : x ≠ y := by
        rintro rfl
        exact hx (List.mem_append_left _ (List.mem_of_getLast? hy))
      rw [hy] at hih
      rw [hlast]
      refine ⟨rfl, ?_⟩
      show Reads (update next y (some t)) (update next y (some t) x) (z :: l₁ ++ t :: l₂)
      rw [Function.update_of_ne hne]
      exact hih

/-- Inserting links no node but the one before. -/
theorem insertAfter_of_ne (h : p ≠ some x) : (insertAfter next first p t).2 x = next x := by
  cases p with
  | none => rfl
  | some y => exact Function.update_of_ne (fun he => h (by rw [he])) _ _

end Links
