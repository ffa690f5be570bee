/-
  Bytes of a user program's heap, and what `memcpy` makes of them.

  1. **Addresses** — an address is an `int` of the array and one of its four bytes; `setByte` changes the one
     byte that it is given, and none of the other `int`s.
  2. **`memcpy`** — as long as nothing wraps around it writes the bytes of its range one after the other.
     What each of these writes keeps, it keeps (`memcpyLoop_keeps`); and it copies every byte of the source
     that it does not write to (`memcpyLoop_copies`).
-/
import BadApple.UserHeap.Model

namespace BadApple

open Gheith
open Machine

namespace UserHeap

variable {h h' : Heap} {a b dest src i j k n : Nat} {w : Int} {v : UInt8}

/-! ## One byte -/

theorem unsigned_signed (hn : n < 4294967296) : unsigned (signed n) = n := by
  unfold signed unsigned
  split <;> omega

/-- **The bytes of an `int` with one byte replaced.** -/
theorem bytesOf_withByte (hi : i < 4) : bytesOf (withByte w j v) i = if i = j then v else bytesOf w i := by
  unfold withByte
  rw [bytesOf, unsigned_signed (Memory.word_lt _ _)]
  have hback := Memory.setWord_word (fun _ => 0) (Function.update (bytesOf w) j v) 0 0 hi
  rw [Nat.zero_add] at hback
  rw [hback, Function.update_apply]

theorem lane_lt (h : Heap) (a : Nat) : lane h a < 4 := by
  unfold lane
  omega

/-- An address is an `int` and a byte of it. -/
theorem eq_of_intOf_lane (hint : intOf h a = intOf h b) (hlane : lane h a = lane h b) : a = b := by
  unfold intOf at hint
  unfold lane at hlane
  omega

theorem setByte_frame (h : Heap) (a : Nat) (v : UInt8) : (setByte h a v).SameFrame h := ⟨rfl, rfl, rfl⟩

/-- No other `int` changes. -/
theorem setByte_array {x : Int} (hx : x ≠ intOf h a) : (setByte h a v).array x = h.array x :=
  Function.update_of_ne hx _ _

theorem byte_congr (hbase : h'.base = h.base) (harray : h'.array (intOf h a) = h.array (intOf h a)) :
    byte h' a = byte h a := by
  have hint : intOf h' a = intOf h a := by
    unfold intOf
    rw [hbase]
  have hlane : lane h' a = lane h a := by
    unfold lane
    rw [hbase]
  unfold byte
  rw [hint, hlane, harray]

/-- **What was written is read**, and no other byte changes. -/
theorem byte_setByte (h : Heap) (a b : Nat) (v : UInt8) :
    byte (setByte h a v) b = if b = a then v else byte h b := by
  by_cases hint : intOf h b = intOf h a
  · have hself : (setByte h a v).array (intOf h b) = withByte (h.array (intOf h b)) (lane h a) v := by
      rw [hint]
      exact Function.update_self _ _ _
    show bytesOf ((setByte h a v).array (intOf h b)) (lane h b) = _
    rw [hself, bytesOf_withByte (lane_lt h b)]
    by_cases hb : b = a
    · rw [if_pos hb, if_pos (by rw [hb])]
    · rw [if_neg hb, if_neg fun hlane => hb (eq_of_intOf_lane hint hlane)]
      rfl
  · have hb : b ≠ a := by
      rintro rfl
      exact hint rfl
    rw [if_neg hb]
    exact byte_congr rfl (setByte_array hint)

/-! ## `memcpy` -/

/-- **What every write keeps** the copy keeps. -/
theorem memcpyLoop_keeps {I : Heap → Prop} : ∀ {k dest src : Nat} {h : Heap}, dest + k ≤ 4294967296 →
    (∀ h a v, dest ≤ a → a < dest + k → I h → I (setByte h a v)) → I h → I (memcpyLoop k dest src h) := by
  intro k
  induction k with
  | zero =>
    intro dest src h _ _ hI
    exact hI
  | succ k ih =>
    intro dest src h hfit hstep hI
    rw [memcpyLoop]
    have hfirst := hstep h dest (byte h src) (Nat.le_refl _) (by omega) hI
    -- the register may wrap around after the last round
    by_cases hk : k = 0
    · subst hk
      exact hfirst
    · rw [u32_of_lt (n := dest + 1) (by omega)]
      exact ih (by omega) (fun h a v h1 h2 => hstep h a v (by omega) (by omega)) hfirst

/-- A byte outside of the range. -/
theorem byte_memcpyLoop_of_outside (hfit : dest + k ≤ 4294967296) (hb : b < dest ∨ dest + k ≤ b) :
    byte (memcpyLoop k dest src h) b = byte h b := by
  refine memcpyLoop_keeps (I := fun h' => byte h' b = byte h b) hfit (fun h' a v h1 h2 hsame => ?_) rfl
  rw [byte_setByte, if_neg (by omega), hsame]

/-- **A byte of the range** is that of the source, if the source is not written to. -/
theorem memcpyLoop_copies : ∀ {k dest src : Nat} {h : Heap} {j : Nat}, dest + k ≤ 4294967296 →
    src + k ≤ 4294967296 → j < k → (src + j < dest ∨ dest + k ≤ src + j) →
    byte (memcpyLoop k dest src h) (dest + j) = byte h (src + j) := by
  intro k
  induction k with
  | zero =>
    intro dest src h j _ _ hj
    omega
  | succ k ih =>
    intro dest src h j hdest hsrc hj hout
    rw [memcpyLoop]
    by_cases hk : k = 0
    · subst hk
      obtain rfl : j = 0 := by omega
      show byte (setByte h dest (byte h src)) (dest + 0) = byte h (src + 0)
      rw [byte_setByte, if_pos (Nat.add_zero dest), Nat.add_zero]
    · rw [u32_of_lt (n := dest + 1) (by omega), u32_of_lt (n := src + 1) (by omega)]
      cases j with
      | zero =>
        rw [byte_memcpyLoop_of_outside (by omega) (Or.inl (by omega)), byte_setByte,
          if_pos (Nat.add_zero dest), Nat.add_zero]
      | succ j =>
        have hrest : byte (memcpyLoop k (dest + 1) (src + 1) (setByte h dest (byte h src))) (dest + 1 + j) =
            byte (setByte h dest (byte h src)) (src + 1 + j) :=
          ih (by omega) (by omega) (by omega) (by omega)
        rw [byte_setByte, if_neg (by omega)] at hrest
        rw [show dest + (j + 1) = dest + 1 + j by omega, show src + (j + 1) = src + 1 + j by omega]
        exact hrest

end UserHeap

end BadApple
