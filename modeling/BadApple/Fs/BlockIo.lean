/-
  Files: block devices, and reading from them (kernel/block_io.h, kernel/block_io.cc).

  1. **Data** — a file is what its virtual functions give: a block size, a size, and the bytes of each block.
  2. **Reading** — `read` delivers bytes of one block, `read_all` calls it until it has them all, or there
     are no more.
  3. **The result** — `readAll_eq`: what `read_all` delivers are the bytes of the file from the offset on, as
     many as are asked for and are there.
-/
import Mathlib.Data.List.Basic

namespace BadApple

/-- A `BlockIO` as its virtual functions show it. -/
structure BlockIo where
  blockSize : Nat
  sizeInBytes : Nat
  readBlock : Nat → Nat → UInt8

/-- `BlockIO::read`: the bytes it puts in the buffer, as many as it returns; `none` when it returns -1. -/
def BlockIo.read (io : BlockIo) (offset desired : Nat) : Option (List UInt8) :=
  if io.sizeInBytes < offset then none
  else if offset = io.sizeInBytes then some []
  else
    let n := min desired (io.sizeInBytes - offset)
    let blockNumber := offset / io.blockSize
    let offsetInBlock := offset % io.blockSize
    let actual := min (io.blockSize - offsetInBlock) n
    if actual = io.blockSize then
      -- the whole block, read in place
      some ((List.range io.blockSize).map (io.readBlock blockNumber))
    else
      -- a part of the block, copied from a temporary buffer
      some ((List.range actual).map fun k => io.readBlock blockNumber (offsetInBlock + k))

/-- `BlockIO::read_all`: the bytes it puts in the buffer. -/
def BlockIo.readAll (io : BlockIo) (offset n : Nat) : List UInt8 :=
  if n = 0 then []
  else
    match io.read offset n with
    | none => []
    | some bytes =>
      if bytes.length = 0 then []
      else bytes ++ io.readAll (offset + bytes.length) (n - bytes.length)
termination_by n

/-- What `BlockIO::read_all` returns, `none` being -1; `totalCount` is what it has read so far. -/
def BlockIo.readAllCount (io : BlockIo) (offset n totalCount : Nat) : Option Nat :=
  if n = 0 then some totalCount
  else
    match io.read offset n with
    | none => none
    | some bytes =>
      if bytes.length = 0 then some totalCount
      else io.readAllCount (offset + bytes.length) (n - bytes.length) (totalCount + bytes.length)
termination_by n

/-! ## What is read -/

/-- A whole block is a part of it, from its start. -/
theorem BlockIo.read_eq_part (io : BlockIo) {offset n : Nat} (h : offset < io.sizeInBytes) :
    io.read offset n = some ((List.range (min (io.blockSize - offset % io.blockSize)
      (min n (io.sizeInBytes - offset)))).map fun k =>
        io.readBlock (offset / io.blockSize) (offset % io.blockSize + k)) := by
  rw [BlockIo.read, if_neg (by omega), if_neg (by omega)]
  simp only
  by_cases hall : min (io.blockSize - offset % io.blockSize) (min n (io.sizeInBytes - offset)) = io.blockSize
  · rw [if_pos hall, hall]
    have hstart : io.blockSize = 0 ∨ offset % io.blockSize = 0 := by omega
    rcases hstart with h0 | h0
    · rw [h0]
      rfl
    · simp only [h0, Nat.zero_add]
  · rw [if_neg hall]

theorem BlockIo.read_length (io : BlockIo) {offset n : Nat} {bytes : List UInt8}
    (h : io.read offset n = some bytes) : bytes.length ≤ n := by
  by_cases hoff : offset < io.sizeInBytes
  · rw [io.read_eq_part hoff] at h
    obtain rfl := Option.some.inj h
    rw [List.length_map, List.length_range]
    omega
  · rw [BlockIo.read] at h
    by_cases hpast : io.sizeInBytes < offset
    · rw [if_pos hpast] at h
      cases h
    · rw [if_neg hpast, if_pos (by omega)] at h
      obtain rfl := Option.some.inj h
      exact Nat.zero_le n

/-- **`read_all` delivers at most what it is asked for.** -/
theorem BlockIo.readAll_length (io : BlockIo) (n : Nat) : ∀ offset, (io.readAll offset n).length ≤ n := by
  induction n using Nat.strongRecOn with
  | ind n ih =>
    intro offset
    rw [BlockIo.readAll]
    by_cases hn : n = 0
    · rw [if_pos hn]
      simp
    · rw [if_neg hn]
      cases hr : io.read offset n with
      | none => simp
      | some bytes =>
        have hle := io.read_length hr
        simp only
        by_cases h0 : bytes.length = 0
        · rw [if_pos h0]
          simp
        · rw [if_neg h0, List.length_append]
          have := ih (n - bytes.length) (by omega) (offset + bytes.length)
          omega

namespace BlockIo

variable {io : BlockIo} {offset n : Nat}

/-- The byte at a position of the file. -/
def byte (io : BlockIo) (i : Nat) : UInt8 := io.readBlock (i / io.blockSize) (i % io.blockSize)

/-- The bytes from `offset` on, `n` of them. -/
def bytesFrom (io : BlockIo) (offset n : Nat) : List UInt8 := (List.range n).map fun k => io.byte (offset + k)

@[simp] theorem bytesFrom_length : (io.bytesFrom offset n).length = n := by simp [bytesFrom]

theorem bytesFrom_append (io : BlockIo) (offset m n : Nat) :
    io.bytesFrom offset m ++ io.bytesFrom (offset + m) n = io.bytesFrom offset (m + n) := by
  simp only [bytesFrom, List.range_add, List.map_append, List.map_map, Nat.add_assoc]
  rfl

/-- One of the bytes from `offset` on. -/
theorem bytesFrom_getD (io : BlockIo) (offset n k : Nat) :
    (io.bytesFrom offset n).getD k 0 = if k < n then io.byte (offset + k) else 0 := by
  rw [List.getD_eq_getElem?_getD, bytesFrom, List.getElem?_map]
  by_cases hk : k < n
  · rw [if_pos hk, List.getElem?_range hk]
    rfl
  · rw [if_neg hk, List.getElem?_eq_none (by rw [List.length_range]; omega)]
    rfl

/-- **One block**: what `read` delivers before the end of the file. -/
theorem read_eq (hbs : 0 < io.blockSize) (hoff : offset < io.sizeInBytes) : io.read offset n =
    some (io.bytesFrom offset
      (min (io.blockSize - offset % io.blockSize) (min n (io.sizeInBytes - offset)))) := by
  rw [io.read_eq_part hoff]
  simp only [bytesFrom]
  congr 1
  apply List.map_congr_left
  intro k hk
  rw [List.mem_range] at hk
  have hlt := Nat.mod_lt offset hbs
  have hk' : offset % io.blockSize + k < io.blockSize := by omega
  have hdiv := Nat.div_add_mod offset io.blockSize
  have heq : offset + k = (offset % io.blockSize + k) + io.blockSize * (offset / io.blockSize) := by omega
  rw [byte, heq, Nat.add_mul_div_left _ _ hbs, Nat.div_eq_of_lt hk', Nat.zero_add, Nat.add_mul_mod_self_left,
    Nat.mod_eq_of_lt hk']

/-- **What `read_all` delivers**: the bytes of the file from `offset` on, as many as are asked for and are
    there. -/
theorem readAll_eq (hbs : 0 < io.blockSize) : ∀ (n offset : Nat), offset ≤ io.sizeInBytes →
    io.readAll offset n = io.bytesFrom offset (min n (io.sizeInBytes - offset)) := by
  intro n
  induction n using Nat.strongRecOn with
  | ind n ih =>
    intro offset hoff
    rw [readAll]
    by_cases hn : n = 0
    · rw [if_pos hn, hn, Nat.zero_min]
      rfl
    · rw [if_neg hn]
      by_cases hend : offset = io.sizeInBytes
      · rw [read, if_neg (by omega), if_pos hend, hend, Nat.sub_self, Nat.min_zero]
        rfl
      · rw [read_eq hbs (by omega)]
        have hlt := Nat.mod_lt offset hbs
        simp only [bytesFrom_length]
        rw [if_neg (by omega), ih _ (by omega) _ (by omega), bytesFrom_append]
        congr 1
        omega

/-- **What `read_all` returns** is how many bytes it delivers. -/
theorem readAllCount_eq (hbs : 0 < io.blockSize) : ∀ (n offset total : Nat), offset ≤ io.sizeInBytes →
    io.readAllCount offset n total = some (total + min n (io.sizeInBytes - offset)) := by
  intro n
  induction n using Nat.strongRecOn with
  | ind n ih =>
    intro offset total hoff
    rw [readAllCount]
    by_cases hn : n = 0
    · rw [if_pos hn, hn, Nat.zero_min, Nat.add_zero]
    · rw [if_neg hn]
      by_cases hend : offset = io.sizeInBytes
      · rw [read, if_neg (by omega), if_pos hend, hend, Nat.sub_self, Nat.min_zero]
        rfl
      · rw [read_eq hbs (by omega)]
        have hlt := Nat.mod_lt offset hbs
        simp only [bytesFrom_length]
        rw [if_neg (by omega), ih _ (by omega) _ _ (by omega)]
        congr 1
        omega

/-- Past the end of the file, `read_all` returns -1 and delivers nothing. -/
theorem readAllCount_past (hoff : io.sizeInBytes < offset) (hn : 0 < n) :
    io.readAllCount offset n 0 = none ∧ io.readAll offset n = [] := by
  rw [readAllCount, readAll, if_neg (by omega), if_neg (by omega), read, if_pos hoff]
  exact ⟨rfl, rfl⟩

end BlockIo

end BadApple
