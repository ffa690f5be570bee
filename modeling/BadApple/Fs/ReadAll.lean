/-
  `BlockIO::read` and `BlockIO::read_all` in memory (kernel/block_io.cc).

  1. **Model** — a block that is asked for whole is read into the caller's buffer, a part of one into a
     temporary buffer from which it is copied.  Offsets, counts and pointers are 32-bit words, what is
     returned is a 64-bit number, and every assertion is checked.
  2. **One round** — `readTo_filled`: `read` puts the next bytes of the device at the front of the buffer,
     and writes nowhere else but in its temporary.
  3. **The loop** — `readAllLoop_filled`, by induction on the bytes still to read; what a round delivers and
     what the rounds after it deliver are put together by `Filled.append`.
  4. **The result** — `readAllTo_spec` and, for the list of bytes that the other modules take `read_all` to
     deliver, `readAllTo_refines`.
-/
import BadApple.Fs.BlockIo
import BadApple.Machine

namespace BadApple.BlockIo

open Memory Machine

/-! ## Model -/

/-- How a call ends: with a number, and the memory then, or in a failed assertion. -/
inductive Ends where
  | returns (value : Int) (m : Mem)
  | fails

/-- `read_block(block_number, p)`. -/
def deliver (io : BlockIo) (m : Mem) (blockNumber p : Nat) : Mem :=
  store m p ((List.range io.blockSize).map (io.readBlock blockNumber))

/-- `read(offset, desired_n, buffer)`.  `temp offset` is what `new char[block_size]` gives in the call. -/
def readTo (io : BlockIo) (temp : Nat → Nat) (m : Mem) (offset desired buffer : Nat) : Ends :=
  let sz := io.sizeInBytes
  if sz < offset then .returns (-1) m
  else if offset = sz then .returns 0 m
  else
    let n := min desired (sz - offset)
    let blockNumber := offset / io.blockSize
    let offsetInBlock := offset % io.blockSize
    let actual := min (io.blockSize - offsetInBlock) n
    if ¬ actual ≤ n then .fails
    else if ¬ u32 (offset + actual) ≤ sz then .fails
    else if actual = io.blockSize then
      if ¬ offsetInBlock = 0 then .fails
      else .returns actual (io.deliver m blockNumber buffer)
    else if ¬ u32 (offsetInBlock + actual) ≤ io.blockSize then .fails
    else
      .returns actual (Machine.memcpy (io.deliver m blockNumber (temp offset)) buffer
        (u32 (temp offset + offsetInBlock)) actual)

/-- The loop of `read_all`; `none` when it is not at its end after `fuel` rounds. -/
def readAllLoop (io : BlockIo) (temp : Nat → Nat) : (fuel : Nat) → Mem → (offset n buffer : Nat) →
    (totalCount : Int) → Option Ends
  | 0, _, _, _, _, _ => none
  | fuel + 1, m, offset, n, buffer, totalCount =>
    if n = 0 then some (.returns totalCount m)
    else
      match io.readTo temp m offset n buffer with
      | .fails => some .fails
      | .returns cnt m' =>
        if cnt < 0 then some (.returns cnt m')
        else if cnt = 0 then some (.returns totalCount m')
        else
          io.readAllLoop temp fuel m' (unsigned (offset + cnt)) (unsigned (n - cnt))
            (unsigned (buffer + cnt)) (totalCount + cnt)

/-- `read_all(offset, n, buffer)`. -/
def readAllTo (io : BlockIo) (temp : Nat → Nat) (fuel : Nat) (m : Mem) (offset n buffer : Nat) :
    Option Ends :=
  io.readAllLoop temp fuel m offset n buffer 0

/-! ## What is written -/

/-- Of what is read up to `e`, the block from `o` on is read in place. -/
def InPlace (io : BlockIo) (e o : Nat) : Prop :=
  o % io.blockSize = 0 ∧ o + io.blockSize ≤ e ∧ o + io.blockSize ≤ io.sizeInBytes

/-- The addresses of the temporary buffers for what is read from `lo` up to `e`. -/
def Temporary (io : BlockIo) (temp : Nat → Nat) (lo e a : Nat) : Prop :=
  ∃ o, lo ≤ o ∧ o < e ∧ o < io.sizeInBytes ∧ ¬ io.InPlace e o ∧ temp o ≤ a ∧ a < temp o + io.blockSize

/-- What the allocator promises: the temporary buffers lie in the address space, apart from the caller's. -/
def TempsApart (io : BlockIo) (temp : Nat → Nat) (lo e buffer n : Nat) : Prop :=
  ∀ o, lo ≤ o → o < e → o < io.sizeInBytes → ¬ io.InPlace e o → temp o + io.blockSize ≤ 4294967296 ∧
    (temp o + io.blockSize ≤ buffer ∨ buffer + n ≤ temp o)

/-- The `n` bytes from `offset` on are at `buffer`, and nothing else was written outside of `scratch`. -/
structure Filled (io : BlockIo) (scratch : Nat → Prop) (m m' : Mem) (offset n buffer : Nat) : Prop where
  bytes : ∀ k, k < n → m' (buffer + k) = io.byte (offset + k)
  frame : ∀ a, a < buffer ∨ buffer + n ≤ a → ¬ scratch a → m' a = m a

variable {io : BlockIo} {temp : Nat → Nat} {scratch : Nat → Prop} {m m' m'' : Mem}
variable {offset n buffer lo e c d : Nat}

theorem Filled.none (io : BlockIo) (scratch : Nat → Prop) (m : Mem) (offset buffer : Nat) :
    io.Filled scratch m m offset 0 buffer := by
  constructor
  · intro k hk
    omega
  · intro a _ _
    rfl

/-- **The next bytes behind those that are there.** -/
theorem Filled.append (h : io.Filled scratch m m' offset c buffer)
    (h' : io.Filled scratch m' m'' (offset + c) d (buffer + c))
    (hscratch : ∀ k, k < c → ¬ scratch (buffer + k)) : io.Filled scratch m m'' offset (c + d) buffer := by
  constructor
  · intro k hk
    by_cases hkc : k < c
    · rw [h'.frame _ (by omega) (hscratch k hkc), h.bytes k hkc]
    · have hlast := h'.bytes (k - c) (by omega)
      rw [show buffer + c + (k - c) = buffer + k by omega,
        show offset + c + (k - c) = offset + k by omega] at hlast
      exact hlast
  · intro a ha hs
    rw [h'.frame a (by omega) hs, h.frame a (by omega) hs]

/-! ## One round -/

theorem deliver_at {blockNumber p k : Nat} (hk : k < io.blockSize) :
    io.deliver m blockNumber p (p + k) = io.readBlock blockNumber k := by
  rw [deliver, store_at, List.getD_eq_getElem?_getD, List.getElem?_map, List.getElem?_range hk]
  rfl

theorem deliver_of_outside {blockNumber p a : Nat} (h : a < p ∨ p + io.blockSize ≤ a) :
    io.deliver m blockNumber p a = m a := by
  rw [deliver]
  refine same_store (k := 1) ?_ a (Nat.le_refl a) (Nat.lt_succ_self a)
  rw [List.length_map, List.length_range]
  omega

theorem byte_eq (hbs : 0 < io.blockSize) {k : Nat} (hk : offset % io.blockSize + k < io.blockSize) :
    io.byte (offset + k) = io.readBlock (offset / io.blockSize) (offset % io.blockSize + k) := by
  have hdiv := Nat.div_add_mod offset io.blockSize
  have heq : offset + k = (offset % io.blockSize + k) + io.blockSize * (offset / io.blockSize) := by omega
  rw [byte, heq, Nat.add_mul_div_left _ _ hbs, Nat.div_eq_of_lt hk, Nat.zero_add, Nat.add_mul_mod_self_left,
    Nat.mod_eq_of_lt hk]

/-- What one round delivers. -/
def part (io : BlockIo) (offset n : Nat) : Nat :=
  min (io.blockSize - offset % io.blockSize) (min n (io.sizeInBytes - offset))

theorem part_pos (hbs : 0 < io.blockSize) (hn : 0 < n) (hoff : offset < io.sizeInBytes) :
    0 < io.part offset n := by
  have hlt := Nat.mod_lt offset hbs
  rw [part]
  omega

/-- **`read` before the end of the device** delivers a part of a block and writes nothing else. -/
theorem readTo_filled (hbs : 0 < io.blockSize) (hbs' : io.blockSize < 4294967296)
    (hsize : io.sizeInBytes < 4294967296) (hoff : offset < io.sizeInBytes) (hn : 0 < n) (he : offset + n = e)
    (hlo : lo ≤ offset) (hfit : buffer + n ≤ 4294967296) (htemp : io.TempsApart temp lo e buffer n) :
    ∃ m', io.readTo temp m offset n buffer = .returns (io.part offset n) m' ∧
      io.Filled (io.Temporary temp lo e) m m' offset (io.part offset n) buffer := by
  have hmod := Nat.mod_lt offset hbs
  have hpart : io.part offset n =
      min (io.blockSize - offset % io.blockSize) (min n (io.sizeInBytes - offset)) := rfl
  have hoffset : u32 (offset + io.part offset n) = offset + io.part offset n := u32_of_lt (by omega)
  have hinblock : u32 (offset % io.blockSize + io.part offset n) = offset % io.blockSize + io.part offset n :=
    u32_of_lt (by omega)
  rw [readTo]
  simp only [← hpart, hoffset, hinblock]
  rw [if_neg (by omega), if_neg (by omega), if_neg (by omega), if_neg (by omega)]
  by_cases hall : io.part offset n = io.blockSize
  · -- the whole block, read in place
    rw [if_pos hall, if_neg (by omega)]
    have hzero : offset % io.blockSize = 0 := by omega
    refine ⟨_, rfl, ?_, ?_⟩
    · intro k hk
      rw [deliver_at (by omega), byte_eq hbs (by omega), hzero, Nat.zero_add]
    · intro a ha _
      exact deliver_of_outside (by omega)
  · -- a part of it, copied from the temporary buffer
    have hnot : ¬ io.InPlace e offset := by
      rintro ⟨h0, h1, h2⟩
      omega
    obtain ⟨hspace, hapart⟩ := htemp offset hlo (by omega) hoff hnot
    rw [if_neg hall, if_neg (by omega)]
    refine ⟨_, rfl, ?_⟩
    rw [u32_of_lt (by omega), Machine.memcpy_eq (by omega) (by omega) (by omega) (by omega)]
    constructor
    · intro k hk
      rw [memcpy_at hk, Nat.add_assoc, deliver_at (by omega), byte_eq hbs (by omega)]
    · intro a ha hscratch
      have hout : a < temp offset ∨ temp offset + io.blockSize ≤ a := by
        by_contra hin
        exact hscratch ⟨offset, hlo, by omega, hoff, hnot, by omega, by omega⟩
      have hcopy : Memory.memcpy (io.deliver m (offset / io.blockSize) (temp offset)) buffer
          (temp offset + offset % io.blockSize) (io.part offset n) a
          = io.deliver m (offset / io.blockSize) (temp offset) a := if_neg (by omega)
      rw [hcopy, deliver_of_outside hout]

/-! ## The loop -/

theorem TempsApart.tail (h : io.TempsApart temp lo e buffer n) (hc : c ≤ n) :
    io.TempsApart temp lo e (buffer + c) (n - c) := by
  intro o h1 h2 h3 h4
  obtain ⟨hspace, hapart⟩ := h o h1 h2 h3 h4
  exact ⟨hspace, by omega⟩

theorem TempsApart.not_temporary (h : io.TempsApart temp lo e buffer n) {k : Nat} (hk : k < n) :
    ¬ io.Temporary temp lo e (buffer + k) := by
  rintro ⟨o, h1, h2, h3, h4, h5, h6⟩
  obtain ⟨hspace, hapart⟩ := h o h1 h2 h3 h4
  omega

theorem readAllLoop_zero (fuel : Nat) (total : Int) :
    io.readAllLoop temp (fuel + 1) m offset 0 buffer total = some (.returns total m) := by
  rw [readAllLoop, if_pos rfl]

/-- **The loop from a position in the device**, by induction on the bytes still to read: each round delivers
    some of them. -/
theorem readAllLoop_filled (hbs : 0 < io.blockSize) (hbs' : io.blockSize < 4294967296)
    (hsize : io.sizeInBytes < 4294967296) : ∀ (n fuel : Nat), n < fuel → n < 4294967296 →
    ∀ (m : Mem) (offset buffer : Nat) (total : Int), offset ≤ io.sizeInBytes → offset + n = e → lo ≤ offset →
      buffer + n ≤ 4294967296 → io.TempsApart temp lo e buffer n →
      ∃ m', io.readAllLoop temp fuel m offset n buffer total =
          some (.returns (total + (min n (io.sizeInBytes - offset) : Nat)) m') ∧
        io.Filled (io.Temporary temp lo e) m m' offset (min n (io.sizeInBytes - offset)) buffer := by
  intro n
  induction n using Nat.strongRecOn with
  | ind n ih =>
    intro fuel hfuel hn m offset buffer total hoff he hlo hfit htemp
    obtain ⟨fuel, rfl⟩ : ∃ f, fuel = f + 1 := ⟨fuel - 1, by omega⟩
    by_cases hn0 : n = 0
    · subst hn0
      refine ⟨m, ?_, ?_⟩
      · rw [readAllLoop_zero, Nat.zero_min, Int.natCast_zero, Int.add_zero]
      · rw [Nat.zero_min]
        exact Filled.none io _ m offset buffer
    by_cases hend : offset = io.sizeInBytes
    · have hread : io.readTo temp m offset n buffer = .returns 0 m := by
        rw [readTo]
        simp only
        rw [if_neg (by omega), if_pos hend]
      have hnone : min n (io.sizeInBytes - offset) = 0 := by omega
      refine ⟨m, ?_, ?_⟩
      · rw [readAllLoop, if_neg hn0, hread, hnone]
        simp
      · rw [hnone]
        exact Filled.none io _ m offset buffer
    obtain ⟨m₁, hread, hfilled⟩ := readTo_filled (m := m) hbs hbs' hsize (by omega : offset < io.sizeInBytes)
      (by omega) he hlo hfit htemp
    have hpos := part_pos hbs (by omega : 0 < n) (by omega : offset < io.sizeInBytes)
    have hpart : io.part offset n =
        min (io.blockSize - offset % io.blockSize) (min n (io.sizeInBytes - offset)) := rfl
    have hle : io.part offset n ≤ n ∧ io.part offset n ≤ io.sizeInBytes - offset := by omega
    generalize hc : io.part offset n = c at *
    have hround : io.readAllLoop temp (fuel + 1) m offset n buffer total =
        io.readAllLoop temp fuel m₁ (offset + c) (n - c) (unsigned (buffer + c)) (total + c) := by
      rw [readAllLoop, if_neg hn0, hread]
      simp only
      rw [if_neg (by omega), if_neg (by omega),
        unsigned_of_lt (n := offset + c) (by omega) (by omega),
        unsigned_of_lt (n := n - c) (by omega) (by omega)]
    by_cases hlast : n - c = 0
    · -- everything is there; the pointer may wrap around
      obtain ⟨fuel, rfl⟩ : ∃ f, fuel = f + 1 := ⟨fuel - 1, by omega⟩
      have hmin : min n (io.sizeInBytes - offset) = c := by omega
      refine ⟨m₁, ?_, ?_⟩
      · rw [hround, hlast, readAllLoop_zero, hmin]
      · rw [hmin]
        exact hfilled
    · obtain ⟨m₂, hloop, hrest⟩ := ih (n - c) (by omega) fuel (by omega) (by omega) m₁ (offset + c) (buffer + c)
        (total + c) (by omega) (by omega) (by omega) (by omega) (htemp.tail hle.1)
      have hmin : min n (io.sizeInBytes - offset) = c + min (n - c) (io.sizeInBytes - (offset + c)) := by omega
      refine ⟨m₂, ?_, ?_⟩
      · rw [hround, unsigned_of_lt (n := buffer + c) (by omega) (by omega), hloop, hmin]
        congr 2
        omega
      · rw [hmin]
        refine hfilled.append hrest ?_
        intro k hk
        exact htemp.not_temporary (by omega)

/-- **`read_all`** ends after at most `n + 1` rounds.  Past the end of the device it returns -1 and writes
    nothing; otherwise it returns how many bytes there are, up to `n`, and has put them in the buffer, and
    has written nothing else but its temporaries.  No assertion fails. -/
theorem readAllTo_spec (io : BlockIo) (temp : Nat → Nat) (m : Mem) (offset n buffer fuel : Nat)
    (hbs : 1 ≤ io.blockSize) (hbs' : io.blockSize < 4294967296) (hsize : io.sizeInBytes < 4294967296)
    (hn : n < 4294967296) (hfit : buffer + n ≤ 4294967296)
    (htemp : io.TempsApart temp offset (offset + n) buffer n) (hfuel : n < fuel) :
    (io.sizeInBytes < offset → 0 < n → io.readAllTo temp fuel m offset n buffer = some (.returns (-1) m)) ∧
    (offset ≤ io.sizeInBytes → ∃ m', io.readAllTo temp fuel m offset n buffer =
        some (.returns (min n (io.sizeInBytes - offset) : Nat) m') ∧
      (∀ k, k < min n (io.sizeInBytes - offset) → m' (buffer + k) = io.byte (offset + k)) ∧
      ∀ a, a < buffer ∨ buffer + min n (io.sizeInBytes - offset) ≤ a →
        ¬ io.Temporary temp offset (offset + n) a → m' a = m a) ∧
    ∃ value m', io.readAllTo temp fuel m offset n buffer = some (.returns value m') := by
  have hpast : io.sizeInBytes < offset → 0 < n →
      io.readAllTo temp fuel m offset n buffer = some (.returns (-1) m) := by
    intro hoff hpos
    obtain ⟨fuel, rfl⟩ : ∃ f, fuel = f + 1 := ⟨fuel - 1, by omega⟩
    have hread : io.readTo temp m offset n buffer = .returns (-1) m := by
      rw [readTo]
      simp only
      rw [if_pos hoff]
    rw [readAllTo, readAllLoop, if_neg (by omega), hread]
    rfl
  have hin : offset ≤ io.sizeInBytes → ∃ m', io.readAllTo temp fuel m offset n buffer =
        some (.returns (min n (io.sizeInBytes - offset) : Nat) m') ∧
      io.Filled (io.Temporary temp offset (offset + n)) m m' offset (min n (io.sizeInBytes - offset))
        buffer := by
    intro hoff
    obtain ⟨m', hloop, hfilled⟩ := readAllLoop_filled hbs hbs' hsize n fuel hfuel hn m offset buffer 0
      hoff rfl (Nat.le_refl offset) hfit htemp
    rw [Int.zero_add] at hloop
    exact ⟨m', hloop, hfilled⟩
  refine ⟨hpast, ?_, ?_⟩
  · intro hoff
    obtain ⟨m', hloop, hfilled⟩ := hin hoff
    exact ⟨m', hloop, hfilled.bytes, hfilled.frame⟩
  · by_cases hoff : offset ≤ io.sizeInBytes
    · obtain ⟨m', hloop, _⟩ := hin hoff
      exact ⟨_, m', hloop⟩
    · by_cases hn0 : n = 0
      · obtain ⟨fuel, rfl⟩ : ∃ f, fuel = f + 1 := ⟨fuel - 1, by omega⟩
        exact ⟨0, m, by rw [hn0, readAllTo, readAllLoop_zero]⟩
      · exact ⟨-1, m, hpast (by omega) (by omega)⟩

/-- A device of ten bytes in blocks of four, where byte `i` of the device is `i`. -/
def tenBytes : BlockIo := ⟨4, 10, fun b k => UInt8.ofNat (4 * b + k)⟩

/-- From byte 3 on, 100 bytes are asked for and 7 are there: the end of one block, a whole one, and the
    start of a third. -/
theorem readAllTo_spec_tenBytes : ∃ m', tenBytes.readAllTo (fun _ => 1000) 101 (fun _ => 255) 3 100 2000 =
    some (.returns (7 : Nat) m') ∧ m' 2000 = 3 ∧ m' 2006 = 9 ∧ m' 2007 = 255 := by
  have htemp : tenBytes.TempsApart (fun _ => 1000) 3 (3 + 100) 2000 100 := by
    intro o _ _ _ _
    exact ⟨show 1000 + 4 ≤ 4294967296 by decide, Or.inl (show 1000 + 4 ≤ 2000 by decide)⟩
  have h := readAllTo_spec tenBytes (fun _ => 1000) (fun _ => 255) 3 100 2000 101 (by decide) (by decide)
    (by decide)
    (by decide) (by decide) htemp (by decide)
  obtain ⟨m', hrun, hbytes, hframe⟩ := h.2.1 (by decide)
  refine ⟨m', hrun, hbytes 0 (by decide), hbytes 6 (by decide), hframe 2007 (Or.inr (by decide)) ?_⟩
  rintro ⟨o, _, _, _, _, _, hlt⟩
  exact absurd hlt (show ¬ 2007 < 1000 + 4 by decide)

/-- **The list of bytes** that `readAll` and `readAllCount` say `read_all` delivers and returns is what it
    puts in the buffer. -/
theorem readAllTo_refines (hbs : 1 ≤ io.blockSize) (hbs' : io.blockSize < 4294967296)
    (hsize : io.sizeInBytes < 4294967296) (hn : n < 4294967296) (hfit : buffer + n ≤ 4294967296)
    (htemp : io.TempsApart temp offset (offset + n) buffer n) (hoff : offset ≤ io.sizeInBytes) :
    ∃ (count : Nat) (m' : Mem), io.readAllTo temp (n + 1) m offset n buffer = some (.returns count m') ∧
      io.readAllCount offset n 0 = some count ∧
      ∀ a, ¬ io.Temporary temp offset (offset + n) a → m' a = store m buffer (io.readAll offset n) a := by
  obtain ⟨m', hloop, hfilled⟩ := readAllLoop_filled hbs hbs' hsize n (n + 1) (by omega) hn m offset
    buffer 0 hoff rfl (Nat.le_refl offset) hfit htemp
  rw [Int.zero_add] at hloop
  refine ⟨_, m', hloop, ?_, ?_⟩
  · rw [readAllCount_eq hbs n offset 0 hoff, Nat.zero_add]
  · intro a ha
    rw [readAll_eq hbs n offset hoff]
    by_cases hin : buffer ≤ a ∧ a < buffer + min n (io.sizeInBytes - offset)
    · obtain ⟨k, rfl⟩ : ∃ k, a = buffer + k := ⟨a - buffer, by omega⟩
      rw [store_at, hfilled.bytes k (by omega), List.getD_eq_getElem?_getD, bytesFrom, List.getElem?_map,
        List.getElem?_range (by omega)]
      rfl
    · rw [hfilled.frame a (by omega) ha]
      refine (same_store (k := 1) ?_ a (Nat.le_refl a) (Nat.lt_succ_self a)).symm
      rw [bytesFrom_length]
      omega

end BadApple.BlockIo
