/-
  `memcpy` and `bzero` (kernel/machine.S).

  1. **Model** — both loops count `%ecx` down with `add $-1` and leave with `jl`, so they read the count as a
     signed number, and do nothing when it is 2³¹ or more.  The pointers are 32-bit registers.
  2. **The result** — where the count is below 2³¹ and nothing wraps around, `bzero_eq` and `memcpy_eq`: the
     bytes of the range, and no others.
-/
import BadApple.Lib.Memory
import BadApple.Word

namespace BadApple.Machine

open Memory

/-! ## Model -/

/-- A word read as a signed number. -/
def signed (n : Nat) : Int := if n < 2147483648 then (n : Int) else (n : Int) - 4294967296

/-- A number cut to a word. -/
def unsigned (x : Int) : Nat := (x % 4294967296).toNat

/-- How often a loop runs that is entered with `n` in `%ecx`. -/
def rounds (n : Nat) : Nat := (signed n).toNat

/-- The loop of `bzero`. -/
def bzeroLoop : (rounds : Nat) → (eax : Nat) → Mem → Mem
  | 0, _, m => m
  | k + 1, eax, m => bzeroLoop k (u32 (eax + 1)) (Function.update m eax 0)

/-- `bzero(dest, n)`. -/
def bzero (m : Mem) (dest n : Nat) : Mem := bzeroLoop (rounds n) dest m

/-- The loop of `memcpy`. -/
def memcpyLoop : (rounds : Nat) → (eax edx : Nat) → Mem → Mem
  | 0, _, _, m => m
  | k + 1, eax, edx, m => memcpyLoop k (u32 (eax + 1)) (u32 (edx + 1)) (Function.update m eax (m edx))

/-- `memcpy(dest, src, n)`. -/
def memcpy (m : Mem) (dest src n : Nat) : Mem := memcpyLoop (rounds n) dest src m

/-! ## What is written -/

variable {m : Mem} {k n dest src : Nat}

theorem unsigned_of_lt {x : Int} {n : Nat} (h : x = n) (hn : n < 4294967296) : unsigned x = n := by
  rw [unsigned, h]
  omega

theorem rounds_of_lt (h : n < 2147483648) : rounds n = n := by
  rw [rounds, signed, if_pos h, Int.toNat_natCast]

/-- **A count of 2³¹ or more is no byte.** -/
theorem rounds_of_ge (h : 2147483648 ≤ n) (hn : n < 4294967296) : rounds n = 0 := by
  rw [rounds, signed, if_neg (by omega)]
  omega

theorem bzeroLoop_eq : ∀ {k dest : Nat} {m : Mem}, dest + k ≤ 4294967296 →
    bzeroLoop k dest m = Memory.bzero m dest k := by
  intro k
  induction k with
  | zero =>
    intro dest m _
    funext i
    rw [bzeroLoop, Memory.bzero, if_neg (by omega)]
  | succ k ih =>
    intro dest m hfit
    rw [bzeroLoop]
    -- the register may wrap around after the last round
    by_cases hk : k = 0
    · subst hk
      rw [bzeroLoop]
      funext i
      rw [Function.update_apply, Memory.bzero]
      congr 1
      exact propext ⟨fun h => by omega, fun h => by omega⟩
    · rw [u32_of_lt (by omega), ih (by omega)]
      funext i
      rw [Memory.bzero, Memory.bzero, Function.update_apply]
      grind

/-- **`bzero`** zeroes the `n` bytes at `dest`. -/
theorem bzero_eq (hn : n < 2147483648) (hfit : dest + n ≤ 4294967296) :
    bzero m dest n = Memory.bzero m dest n := by
  rw [bzero, rounds_of_lt hn, bzeroLoop_eq hfit]

theorem memcpyLoop_eq : ∀ {k dest src : Nat} {m : Mem}, dest + k ≤ 4294967296 → src + k ≤ 4294967296 →
    (dest + k ≤ src ∨ src + k ≤ dest) → memcpyLoop k dest src m = Memory.memcpy m dest src k := by
  intro k
  induction k with
  | zero =>
    intro dest src m _ _ _
    funext i
    rw [memcpyLoop, Memory.memcpy, if_neg (by omega)]
  | succ k ih =>
    intro dest src m hdest hsrc hapart
    rw [memcpyLoop]
    by_cases hk : k = 0
    · subst hk
      rw [memcpyLoop]
      funext i
      rw [Function.update_apply, Memory.memcpy]
      by_cases hi : i = dest
      · rw [if_pos hi, if_pos (by omega), hi, Nat.sub_self, Nat.add_zero]
      · rw [if_neg hi, if_neg (by omega)]
    · rw [u32_of_lt (by omega), u32_of_lt (by omega), ih (by omega) (by omega) (by omega)]
      funext i
      rw [Memory.memcpy, Memory.memcpy]
      by_cases hi : i = dest
      · rw [if_neg (by omega), if_pos (by omega), hi, Function.update_self, Nat.sub_self, Nat.add_zero]
      · by_cases hin : dest + 1 ≤ i ∧ i < dest + 1 + k
        · rw [if_pos hin, if_pos (by omega), Function.update_of_ne (by omega)]
          congr 1
          omega
        · rw [if_neg hin, if_neg (by omega), Function.update_of_ne hi]

/-- **`memcpy`** copies the `n` bytes at `src` to `dest`. -/
theorem memcpy_eq (hn : n < 2147483648) (hdest : dest + n ≤ 4294967296) (hsrc : src + n ≤ 4294967296)
    (hapart : dest + n ≤ src ∨ src + n ≤ dest) : memcpy m dest src n = Memory.memcpy m dest src n := by
  rw [memcpy, rounds_of_lt hn, memcpyLoop_eq hdest hsrc hapart]

end BadApple.Machine
