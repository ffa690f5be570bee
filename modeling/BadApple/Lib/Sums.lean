/-
  Finite sums of a function on an initial segment of the numbers, and what changing one value does to
  them: the arithmetic of counting things that are spread over buckets, objects or threads.
-/
import Mathlib.Logic.Function.Basic

namespace Sums

open Function (update)

/-- `f 0 + f 1 + … + f (n - 1)`. -/
def sumTo (f : Nat → Nat) : Nat → Nat
  | 0 => 0
  | n + 1 => sumTo f n + f n

variable {f g : Nat → Nat}

theorem sumTo_congr : ∀ {n : Nat}, (∀ i, i < n → f i = g i) → sumTo f n = sumTo g n := by
  intro n
  induction n with
  | zero => exact fun _ => rfl
  | succ n ih =>
    intro h
    rw [sumTo, sumTo, ih fun i hi => h i (Nat.lt_succ_of_lt hi), h n (Nat.lt_succ_self n)]

/-- **Changing one summand.** -/
theorem sumTo_update (f : Nat → Nat) (i v : Nat) :
    ∀ n, i < n → sumTo (update f i v) n + f i = sumTo f n + v := by
  intro n
  induction n with
  | zero => omega
  | succ n ih =>
    intro hi
    rw [sumTo, sumTo]
    by_cases hin : n = i
    · have hsame : sumTo (update f i v) n = sumTo f n :=
        sumTo_congr fun j hj => Function.update_of_ne (by omega) _ _
      rw [hsame, hin, Function.update_self]
      omega
    · rw [Function.update_of_ne hin]
      have hrec := ih (by omega)
      omega

/-- A summand is at most the sum. -/
theorem le_sumTo (f : Nat → Nat) {i : Nat} : ∀ {n : Nat}, i < n → f i ≤ sumTo f n := by
  intro n
  induction n with
  | zero => omega
  | succ n ih =>
    intro hi
    rw [sumTo]
    by_cases hin : i = n
    · rw [hin]
      omega
    · have hrec := ih (by omega)
      omega

/-- A positive sum has a positive summand. -/
theorem exists_of_sumTo_pos : ∀ {n : Nat}, 0 < sumTo f n → ∃ i, i < n ∧ 0 < f i := by
  intro n
  induction n with
  | zero => exact fun h => absurd h (Nat.lt_irrefl 0)
  | succ n ih =>
    intro h
    rw [sumTo] at h
    by_cases hn : 0 < f n
    · exact ⟨n, Nat.lt_succ_self n, hn⟩
    · obtain ⟨i, hi, hpos⟩ := ih (by omega)
      exact ⟨i, Nat.lt_succ_of_lt hi, hpos⟩

/-! ## Counting in a family of lists -/

universe u

variable {β : Type u} {p : β → Bool} {ls : Nat → List β} {i n : Nat}

/-- How many elements of the first `n` lists satisfy `p`. -/
def countIn (p : β → Bool) (ls : Nat → List β) (n : Nat) : Nat :=
  sumTo (fun i => (ls i).countP p) n

/-- **Replacing one list.** -/
theorem countIn_update (p : β → Bool) (ls : Nat → List β) (l : List β) (hi : i < n) :
    countIn p (update ls i l) n + (ls i).countP p = countIn p ls n + l.countP p := by
  have hcomp : (fun j => (update ls i l j).countP p)
      = update (fun j => (ls j).countP p) i (l.countP p) := by
    funext j
    by_cases hj : j = i
    · rw [hj, Function.update_self, Function.update_self]
    · rw [Function.update_of_ne hj, Function.update_of_ne hj]
  unfold countIn
  rw [hcomp]
  exact sumTo_update _ i _ n hi

theorem countIn_pos_of_mem {x : β} (hi : i < n) (hx : x ∈ ls i) (hp : p x = true) :
    0 < countIn p ls n := by
  have hle := le_sumTo (fun j => (ls j).countP p) hi
  have hpos : 0 < (ls i).countP p := List.countP_pos_iff.2 ⟨x, hx, hp⟩
  unfold countIn
  omega

theorem exists_of_countIn_pos (h : 0 < countIn p ls n) : ∃ i, i < n ∧ ∃ x ∈ ls i, p x = true := by
  obtain ⟨i, hi, hpos⟩ := exists_of_sumTo_pos h
  exact ⟨i, hi, List.countP_pos_iff.1 hpos⟩

end Sums
