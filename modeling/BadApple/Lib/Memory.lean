/-
  Byte-addressed memory, and 32-bit little-endian words in it.

  1. **Words** — `word m a` is read from four bytes and `setWord m a w` writes them.  Words that do not
     overlap do not affect each other.
  2. **Ranges** — `Same m' m p n` says that nothing changed in the `n` bytes at `p`; `fill`, `copy` and
     `store` write whole ranges.
-/
import Mathlib.Data.List.Basic
import Mathlib.Logic.Function.Basic

namespace Memory

/-- The byte at each address. -/
abbrev Mem := Nat → UInt8

variable {m m' m'' : Mem} {a b p q n k w : Nat}

/-! ## Words -/

/-- The word at `a`. -/
def word (m : Mem) (a : Nat) : Nat :=
  (m a).toNat + 256 * (m (a + 1)).toNat + 65536 * (m (a + 2)).toNat + 16777216 * (m (a + 3)).toNat

/-- Write the word at `a`. -/
def setWord (m : Mem) (a w : Nat) : Mem := fun i =>
  if i = a then UInt8.ofNat w
  else if i = a + 1 then UInt8.ofNat (w / 256)
  else if i = a + 2 then UInt8.ofNat (w / 65536)
  else if i = a + 3 then UInt8.ofNat (w / 16777216)
  else m i

theorem word_lt (m : Mem) (a : Nat) : word m a < 4294967296 := by
  have h0 := (m a).toNat_lt
  have h1 := (m (a + 1)).toNat_lt
  have h2 := (m (a + 2)).toNat_lt
  have h3 := (m (a + 3)).toNat_lt
  unfold word
  omega

/-- A word is read from four bytes. -/
theorem word_congr (h : ∀ i, a ≤ i → i < a + 4 → m' i = m i) : word m' a = word m a := by
  unfold word
  rw [h a (by omega) (by omega), h (a + 1) (by omega) (by omega), h (a + 2) (by omega) (by omega),
    h (a + 3) (by omega) (by omega)]

theorem setWord_of_outside (h : k < a ∨ a + 4 ≤ k) : setWord m a w k = m k := by
  unfold setWord
  rw [if_neg (by omega), if_neg (by omega), if_neg (by omega), if_neg (by omega)]

/-- **What was written is read.** -/
theorem word_setWord (hw : w < 4294967296) : word (setWord m a w) a = w := by
  have h0 : setWord m a w a = UInt8.ofNat w := if_pos rfl
  have h1 : setWord m a w (a + 1) = UInt8.ofNat (w / 256) := by
    unfold setWord
    rw [if_neg (by omega), if_pos rfl]
  have h2 : setWord m a w (a + 2) = UInt8.ofNat (w / 65536) := by
    unfold setWord
    rw [if_neg (by omega), if_neg (by omega), if_pos rfl]
  have h3 : setWord m a w (a + 3) = UInt8.ofNat (w / 16777216) := by
    unfold setWord
    rw [if_neg (by omega), if_neg (by omega), if_neg (by omega), if_pos rfl]
  unfold word
  rw [h0, h1, h2, h3]
  simp only [UInt8.toNat_ofNat']
  omega

/-- **The bytes of a word that was read** are those it was read from. -/
theorem setWord_word (m' m : Mem) (a b : Nat) {j : Nat} (hj : j < 4) :
    setWord m' a (word m b) (a + j) = m (b + j) := by
  have h0 := (m b).toNat_lt
  have h1 := (m (b + 1)).toNat_lt
  have h2 := (m (b + 2)).toNat_lt
  have h3 := (m (b + 3)).toNat_lt
  apply UInt8.toNat_inj.1
  unfold setWord word
  rcases (by omega : j = 0 ∨ j = 1 ∨ j = 2 ∨ j = 3) with rfl | rfl | rfl | rfl
  · rw [if_pos (by omega), UInt8.toNat_ofNat', Nat.add_zero b]
    omega
  · rw [if_neg (by omega), if_pos rfl, UInt8.toNat_ofNat']
    omega
  · rw [if_neg (by omega), if_neg (by omega), if_pos rfl, UInt8.toNat_ofNat']
    omega
  · rw [if_neg (by omega), if_neg (by omega), if_neg (by omega), if_pos rfl, UInt8.toNat_ofNat']
    omega

/-- Words that lie apart do not affect each other. -/
theorem word_setWord_of_apart (h : b + 4 ≤ a ∨ a + 4 ≤ b) : word (setWord m a w) b = word m b :=
  word_congr fun _ h1 h2 => setWord_of_outside (by omega)

/-! ## Ranges -/

/-- Nothing changed in the `n` bytes at `p`. -/
def Same (m' m : Mem) (p n : Nat) : Prop := ∀ i, p ≤ i → i < p + n → m' i = m i

theorem Same.refl (m : Mem) (p n : Nat) : Same m m p n := fun _ _ _ => rfl

theorem Same.trans (h : Same m'' m' p n) (h' : Same m' m p n) : Same m'' m p n := by
  intro i h1 h2
  rw [h i h1 h2, h' i h1 h2]

theorem Same.word_eq (h : Same m' m p n) (hpa : p ≤ a) (han : a + 4 ≤ p + n) : word m' a = word m a :=
  word_congr fun i h1 h2 => h i (by omega) (by omega)

theorem same_setWord (h : a + 4 ≤ p ∨ p + n ≤ a) : Same (setWord m a w) m p n :=
  fun _ h1 h2 => setWord_of_outside (by omega)

/-- `bzero`. -/
def bzero (m : Mem) (p n : Nat) : Mem := fun i => if p ≤ i ∧ i < p + n then 0 else m i

/-- `memcpy`. -/
def memcpy (m : Mem) (dst src n : Nat) : Mem := fun i =>
  if dst ≤ i ∧ i < dst + n then m (src + (i - dst)) else m i

/-- Bytes written one after the other. -/
def store (m : Mem) (p : Nat) (bytes : List UInt8) : Mem := fun i =>
  if p ≤ i then bytes.getD (i - p) (m i) else m i

theorem same_bzero (h : p + n ≤ q ∨ q + k ≤ p) : Same (bzero m p n) m q k :=
  fun _ _ _ => if_neg (by omega)

theorem bzero_at (h : k < n) : bzero m p n (p + k) = 0 := if_pos (by omega)

theorem same_memcpy (h : p + n ≤ q ∨ q + k ≤ p) : Same (memcpy m p b n) m q k :=
  fun _ _ _ => if_neg (by omega)

theorem memcpy_at (h : k < n) : memcpy m p q n (p + k) = m (q + k) := by
  unfold memcpy
  rw [if_pos (by omega), Nat.add_sub_cancel_left]

theorem word_memcpy (h : k + 4 ≤ n) : word (memcpy m p q n) (p + k) = word m (q + k) := by
  have hat : ∀ j, j < 4 → memcpy m p q n (p + k + j) = m (q + k + j) := by
    intro j hj
    rw [Nat.add_assoc, memcpy_at (by omega), ← Nat.add_assoc]
  have h0 := hat 0 (by omega)
  simp only [Nat.add_zero] at h0
  unfold word
  rw [h0, hat 1 (by omega), hat 2 (by omega), hat 3 (by omega)]

theorem same_store {bytes : List UInt8} (h : p + bytes.length ≤ q ∨ q + k ≤ p) :
    Same (store m p bytes) m q k := by
  intro i h1 h2
  unfold store
  by_cases hp : p ≤ i
  · rw [if_pos hp, List.getD_eq_getElem?_getD, List.getElem?_eq_none (by omega), Option.getD_none]
  · rw [if_neg hp]

theorem store_nil (m : Mem) (p : Nat) : store m p [] = m := by
  funext i
  unfold store
  by_cases hp : p ≤ i
  · rw [if_pos hp, List.getD_nil]
  · rw [if_neg hp]

/-- The first byte, and the others behind it. -/
theorem store_cons (m : Mem) (p : Nat) (b : UInt8) (bytes : List UInt8) :
    store m p (b :: bytes) = store (Function.update m p b) (p + 1) bytes := by
  funext i
  unfold store
  rcases Nat.lt_trichotomy i p with hlt | heq | hgt
  · rw [if_neg (by omega), if_neg (by omega), Function.update_of_ne (by omega)]
  · rw [heq, if_pos (Nat.le_refl p), if_neg (by omega), Nat.sub_self, Function.update_self]
    rfl
  · rw [if_pos (by omega), if_pos (Nat.succ_le_of_lt hgt), Function.update_of_ne (by omega),
      show i - p = (i - (p + 1)) + 1 by omega, List.getD_cons_succ]

theorem store_at (m : Mem) (p k : Nat) (bytes : List UInt8) :
    store m p bytes (p + k) = bytes.getD k (m (p + k)) := by
  unfold store
  rw [if_pos (by omega), Nat.add_sub_cancel_left]

end Memory
