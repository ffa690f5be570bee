/-
  32-bit machine words as naturals.

  `uint32_t` values are naturals below `2 ^ 32`; every source operation that can leave that range is
  wrapped explicitly in `u32`, so a wrap-around is visible in the definition that commits it.
-/
import Mathlib.Data.Nat.Basic

namespace BadApple

/-- Truncation to `uint32_t`.  Irreducible, so that no tactic tries to compute with the modulus; the
    lemmas below are its interface. -/
@[irreducible] def u32 (n : Nat) : Nat := n % 4294967296

theorem u32_eq (n : Nat) : u32 n = n % 4294967296 := by unfold u32; rfl

theorem u32_of_lt {n : Nat} (h : n < 4294967296) : u32 n = n := by
  rw [u32_eq, Nat.mod_eq_of_lt h]

theorem u32_lt (n : Nat) : u32 n < 4294967296 := by
  rw [u32_eq]; exact Nat.mod_lt _ (by decide)

/-- A single wrap: the sum of two words that passes `2 ^ 32` loses exactly `2 ^ 32`. -/
theorem u32_of_wrap {n : Nat} (h : 4294967296 ≤ n) (h' : n < 8589934592) :
    u32 n = n - 4294967296 := by
  rw [u32_eq]; omega

/-- A sum that is wrapped on the way is wrapped once. -/
theorem u32_add (p k : Nat) : u32 (u32 p + k) = u32 (p + k) := by
  rw [u32_eq, u32_eq, u32_eq, Nat.mod_add_mod]

theorem u32_next (p k : Nat) : u32 (u32 (p + 1) + k) = u32 (p + (k + 1)) := by
  rw [u32_add, Nat.add_assoc, Nat.add_comm 1 k]

/-- `PhysMem::FRAME_SIZE`, the size in bytes of a page and of a frame. -/
def frameSize : Nat := 4096

@[simp] theorem frameSize_eq : frameSize = 4096 := rfl

end BadApple
