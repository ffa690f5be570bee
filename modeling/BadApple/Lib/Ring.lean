/-
  Circular arrays: `n` slots in which what was put in stays until it has been taken out.

  `Holds n data given taken` relates the slots to everything that was ever put in and taken out.  The `j`th
  thing put in is in slot `j % n`, which is nobody else's as long as there is room.
-/
import Mathlib.Data.List.Infix
import Mathlib.Logic.Function.Basic

namespace Ring

open Function (update)

universe u

variable {α : Type u} {n i j : Nat} {data : Nat → α} {given taken : List α}

/-- What was taken out is what was put in first, and the slots hold the rest. -/
structure Holds (n : Nat) (data : Nat → α) (given taken : List α) : Prop where
  order : taken <+: given
  slots : ∀ j, taken.length ≤ j → j < given.length → given[j]? = some (data (j % n))

theorem Holds.empty (n : Nat) (data : Nat → α) : Holds n data [] [] :=
  ⟨List.prefix_refl _, fun _ _ hj => absurd hj (Nat.not_lt_zero _)⟩

/-- Fewer than `n` steps lead to another slot. -/
theorem mod_ne (hij : i < j) (hji : j < i + n) : i % n ≠ j % n := by
  intro heq
  have hsub : (j - i) % n = 0 := Nat.sub_mod_eq_zero_of_mod_eq heq.symm
  rw [Nat.mod_eq_of_lt (by omega)] at hsub
  omega

/-- The next slot to be filled is free. -/
theorem free (hroom : given.length < taken.length + n) (hij : taken.length ≤ j) (hj : j < given.length) :
    j % n ≠ given.length % n := mod_ne hj (by omega)

/-- **Putting in**, when there is room. -/
theorem Holds.put (h : Holds n data given taken) (hroom : given.length < taken.length + n) (v : α) :
    Holds n (update data (given.length % n) v) (given ++ [v]) taken := by
  refine ⟨h.order.trans (List.prefix_append _ _), fun j hij hj => ?_⟩
  rw [List.length_append, List.length_singleton] at hj
  by_cases hlast : j = given.length
  · subst hlast
    rw [List.getElem?_concat_length, Function.update_self]
  · have hlt : j < given.length := by omega
    rw [List.getElem?_append_left hlt, Function.update_of_ne (free hroom hij hlt)]
    exact h.slots j hij hlt

/-- What is taken next is what was put in next. -/
theorem Holds.next (h : Holds n data given taken) (hlt : taken.length < given.length) :
    given[taken.length]? = some (data (taken.length % n)) := h.slots _ (Nat.le_refl _) hlt

/-- **Taking out**, when something is left. -/
theorem Holds.take (h : Holds n data given taken) (hlt : taken.length < given.length) :
    Holds n data given (taken ++ [data (taken.length % n)]) := by
  refine ⟨?_, fun j hij hj => ?_⟩
  · obtain ⟨rest, rfl⟩ := h.order
    cases rest with
    | nil =>
      rw [List.append_nil] at hlt
      exact absurd hlt (Nat.lt_irrefl _)
    | cons v rest =>
      have hnext := h.next hlt
      rw [List.getElem?_append_right (Nat.le_refl _), Nat.sub_self] at hnext
      obtain rfl : v = data (taken.length % n) := Option.some.inj hnext
      exact ⟨rest, by rw [List.append_assoc, List.singleton_append]⟩
  · rw [List.length_append, List.length_singleton] at hij
    exact h.slots j (by omega) hj

end Ring
