/-
  `Node::read_block` follows the ext2 layout (kernel/ext2.cc).

  1. **The layout** — twelve blocks are direct; behind them come the blocks under one, two and three levels of
     references.  The indices on the way to a block are the digits of its number within its region, in base
     `refs` (`slotOf`); they tell blocks apart (`slotOf_inj`).
  2. **What is found** — `findBlock_eq`: where the pointers lie on the device, the source's divisions and
     remainders walk down these digits.  A 32-bit offset reaches the third level only in small blocks, and the
     square of `refs` wraps around only in blocks so large that it reaches none but the first.
  3. **The result** — `readBlock_spec`: the block is delivered, zeros if a pointer on the way is zero, and no
     assertion fails.
-/
import BadApple.Fs.Ext2
import BadApple.Fs.ReadAll

namespace BadApple.Ext2

open Memory

/-! ## The layout -/

/-- How many blocks lie under `k` levels of references. -/
def span (refs : Nat) : (k : Nat) → Nat
  | 0 => 1
  | k + 1 => refs * span refs k

/-- The indices of block `j` under `k` levels of references, the outermost first. -/
def digits (refs : Nat) : (k j : Nat) → List Nat
  | 0, _ => []
  | k + 1, j => j / span refs k :: digits refs k (j % span refs k)

/-- The place of a block's number: the pointer in the i-node to start from, the last three being those of the
    trees, and the index in each block of references from there on. -/
structure Slot where
  root : Nat
  path : List Nat

/-- Where ext2 keeps the number of a file's block `lbn`. -/
def slotOf (refs lbn : Nat) : Slot :=
  if lbn < 12 then ⟨lbn, []⟩
  else if lbn < 12 + span refs 1 then ⟨12, digits refs 1 (lbn - 12)⟩
  else if lbn < 12 + span refs 1 + span refs 2 then ⟨13, digits refs 2 (lbn - 12 - span refs 1)⟩
  else ⟨14, digits refs 3 (lbn - 12 - span refs 1 - span refs 2)⟩

namespace Node

/-- The fifteen block pointers. -/
def root (n : Node) (i : Nat) : Nat :=
  if i < 12 then n.data.direct i
  else if i = 12 then n.data.indirect1
  else if i = 13 then n.data.indirect2
  else n.data.indirect3

/-- `block_size / 4`. -/
def refs (n : Node) : Nat := n.blockSize / 4

/-- The reference at `i` of a block on the device; those of block 0 are zero. -/
def ref (n : Node) (pbn i : Nat) : Nat :=
  if pbn = 0 then 0 else littleEndian (n.bufferCache.bytesFrom (pbn * n.blockSize + i * 4) 4)

/-- Follow references. -/
def walk (n : Node) (pbn : Nat) (path : List Nat) : Nat := path.foldl n.ref pbn

/-- The block on the device that the layout has for `lbn`; 0 if there is none. -/
def layoutBlock (n : Node) (lbn : Nat) :
    Nat := n.walk (n.root (slotOf n.refs lbn).root) (slotOf n.refs lbn).path

/-- The bytes of a block of the file. -/
def layoutBytes (n : Node) (lbn : Nat) : List UInt8 :=
  if n.layoutBlock lbn = 0 then List.replicate n.blockSize 0
  else n.bufferCache.bytesFrom (n.layoutBlock lbn * n.blockSize) n.blockSize

/-- The pointers on the way to a block are zero or point into the device. -/
def PointersInside (n : Node) (lbn : Nat) : Prop :=
  ∀ path, path <+: (slotOf n.refs lbn).path →
    n.walk (n.root (slotOf n.refs lbn).root) path = 0 ∨
    (n.walk (n.root (slotOf n.refs lbn).root) path + 1) * n.blockSize ≤ n.bufferCache.sizeInBytes

/-- The node as a device: its blocks are what the layout says. -/
def io (n : Node) : BlockIo := ⟨n.blockSize, n.data.sizeLow, fun lbn i => (n.layoutBytes lbn).getD i 0⟩

end Node

/-! ## Digits -/

variable {refs j j' lbn lbn' : Nat}

theorem span_pos (h : 0 < refs) : ∀ k, 0 < span refs k := by
  intro k
  induction k with
  | zero => exact Nat.one_pos
  | succ k ih => exact Nat.mul_pos h ih

/-- Every index lies in its block. -/
theorem digits_lt (h : 0 < refs) : ∀ {k j : Nat}, j < span refs k → ∀ i ∈ digits refs k j, i < refs := by
  intro k
  induction k with
  | zero =>
    intro j _ i hi
    cases hi
  | succ k ih =>
    intro j hj i hi
    rcases List.mem_cons.1 hi with rfl | hi
    · exact Nat.div_lt_of_lt_mul (by rw [Nat.mul_comm]; exact hj)
    · exact ih (Nat.mod_lt j (span_pos h k)) i hi

/-- The indices tell the blocks of a tree apart. -/
theorem digits_inj (h : 0 < refs) : ∀ {k j j' : Nat}, j < span refs k → j' < span refs k →
    digits refs k j = digits refs k j' → j = j' := by
  intro k
  induction k with
  | zero =>
    intro j j' hj hj' _
    rw [span] at hj hj'
    omega
  | succ k ih =>
    intro j j' _ _ heq
    obtain ⟨hdiv, hrest⟩ := List.cons.inj heq
    have hmod := ih (Nat.mod_lt j (span_pos h k)) (Nat.mod_lt j' (span_pos h k)) hrest
    rw [← Nat.div_add_mod j (span refs k), ← Nat.div_add_mod j' (span refs k), hdiv, hmod]

/-- How many blocks the layout has room for. -/
def room (refs : Nat) : Nat := 12 + span refs 1 + span refs 2 + span refs 3

/-- **Distinct blocks have distinct slots.** -/
theorem slotOf_inj (h : 0 < refs) (hlbn : lbn < room refs) (hlbn' : lbn' < room refs)
    (heq : slotOf refs lbn = slotOf refs lbn') : lbn = lbn' := by
  rw [room] at hlbn hlbn'
  unfold slotOf at heq
  split_ifs at heq <;> obtain ⟨hroot, hpath⟩ := Slot.mk.inj heq <;> try omega
  · have := digits_inj h (by omega) (by omega) hpath
    omega
  · have := digits_inj h (by omega) (by omega) hpath
    omega
  · have := digits_inj h (by omega) (by omega) hpath
    omega

theorem slotOf_lt (h : 0 < refs) (hlbn : lbn < room refs) : ∀ i ∈ (slotOf refs lbn).path, i < refs := by
  rw [room] at hlbn
  unfold slotOf
  split_ifs
  · intro i hi
    cases hi
  · exact digits_lt h (by omega)
  · exact digits_lt h (by omega)
  · exact digits_lt h (by omega)

/-! ## Sizes -/

/-- A block has at least 1024 bytes. -/
theorem shift_ge (k : Nat) : 1024 ≤ 1 <<< (k + 10) := by
  induction k with
  | zero => decide
  | succ k ih =>
    have hsucc : 1 <<< (k + 1 + 10) = 2 * 1 <<< (k + 10) := Nat.shiftLeft_succ 1 (k + 10)
    omega

/-- What a 32-bit offset reaches: the layout has room for it, and if it lies behind the blocks of the first
    tree, the square of `refs` does not wrap around. -/
theorem reach {blockSize offset : Nat} (hbs : 1024 ≤ blockSize) (hoff : offset < 4294967296) :
    offset / blockSize < room (blockSize / 4) ∧
      (12 + blockSize / 4 ≤ offset / blockSize → blockSize / 4 * (blockSize / 4) < 4294967296) := by
  have hrefs : 256 ≤ blockSize / 4 := by omega
  have hle : 4 * (blockSize / 4) ≤ blockSize := by omega
  have hmul : offset / blockSize * blockSize ≤ offset := Nat.div_mul_le_self offset blockSize
  generalize hr : blockSize / 4 = r at *
  generalize hl : offset / blockSize = l at *
  have hlr : l * (4 * r) < 4294967296 := by
    have := Nat.mul_le_mul_left l hle
    omega
  have hsmall : l * 256 ≤ l * r := Nat.mul_le_mul_left l hrefs
  have hlr' : l * r < 1073741824 := by
    have hcomm : l * (4 * r) = 4 * (l * r) := Nat.mul_left_comm l 4 r
    omega
  constructor
  · -- 2²² blocks at most, and the third tree alone has room for 2²⁴
    have h2 : 65536 ≤ r * r := Nat.mul_le_mul hrefs hrefs
    have h3 : 256 * 65536 ≤ r * (r * r) := Nat.mul_le_mul hrefs h2
    have hroom : room r = 12 + r * 1 + r * (r * 1) + r * (r * (r * 1)) := rfl
    rw [hroom, Nat.mul_one]
    omega
  · intro hbehind
    have : r * r ≤ l * r := Nat.mul_le_mul_right r (by omega)
    omega

/-! ## What is found -/

namespace Node

variable {n : Node}

/-- A pointer is zero or points into the device. -/
def Inside (n : Node) (pbn : Nat) : Prop := pbn = 0 ∨ (pbn + 1) * n.blockSize ≤ n.bufferCache.sizeInBytes

theorem follow_eq {pbn i : Nat} (hcache : 0 < n.bufferCache.blockSize)
    (hdev : n.bufferCache.sizeInBytes < 4294967296) (hi : i < n.refs) (hpbn : n.Inside pbn) :
    n.follow pbn i = some (n.ref pbn i) := by
  rw [follow, ref]
  rw [refs] at hi
  rw [if_neg (by omega)]
  by_cases h0 : pbn = 0
  · rw [if_pos h0, if_pos h0]
  · rw [if_neg h0, if_neg h0]
    have hend := hpbn.resolve_left h0
    rw [Nat.add_mul, Nat.one_mul] at hend
    rw [u32_of_lt (by omega), BlockIo.readNumber_eq hcache (by omega)]

/-- **What `read_block` finds** is what the layout has. -/
theorem findBlock_eq (hcache : 0 < n.bufferCache.blockSize) (hdev : n.bufferCache.sizeInBytes < 4294967296)
    (hpos : 0 < n.refs) (hroom : lbn < room n.refs) (hlbn : lbn < 4294967296)
    (hsquare : 12 + n.refs ≤ lbn → n.refs * n.refs < 4294967296) (hptr : n.PointersInside lbn) :
    n.findBlock lbn = some (n.layoutBlock lbn) := by
  have hlt := slotOf_lt hpos hroom
  have hspan1 : span n.refs 1 = n.refs := Nat.mul_one _
  have hspan2 : span n.refs 2 = n.refs * n.refs := by rw [span, hspan1]
  have hrefs : n.blockSize / 4 = n.refs := rfl
  rw [findBlock, layoutBlock]
  rw [PointersInside] at hptr
  simp only [hrefs]
  by_cases h0 : lbn < 12
  · rw [if_pos h0, slotOf, if_pos h0]
    simp only [root, if_pos h0, walk, List.foldl_nil]
  rw [if_neg h0]
  by_cases h1 : lbn - 12 < n.refs
  · have hslot : slotOf n.refs lbn = ⟨12, [lbn - 12]⟩ := by
      rw [slotOf, if_neg h0, if_pos (by omega)]
      simp only [digits, span, Nat.div_one]
    rw [if_pos h1, hslot]
    rw [hslot] at hlt hptr
    exact follow_eq hcache hdev h1 (hptr [] List.nil_prefix)
  rw [if_neg h1, u32_of_lt (hsquare (by omega))]
  by_cases h2 : lbn - 12 - n.refs < n.refs * n.refs
  · have hslot : slotOf n.refs lbn = ⟨13, [(lbn - 12 - n.refs) / n.refs, (lbn - 12 - n.refs) % n.refs]⟩ := by
      rw [slotOf, if_neg h0, if_neg (by omega), if_pos (by omega)]
      simp only [digits, span, Nat.mul_one, Nat.div_one]
    rw [if_pos h2, hslot]
    rw [hslot] at hlt hptr
    generalize (lbn - 12 - n.refs) / n.refs = d1 at *
    generalize (lbn - 12 - n.refs) % n.refs = d0 at *
    have hin0 : n.Inside n.data.indirect2 := hptr [] List.nil_prefix
    have hin1 : n.Inside (n.ref n.data.indirect2 d1) := hptr [d1] (List.prefix_append [d1] [d0])
    rw [follow_eq hcache hdev (hlt d1 (by simp)) hin0, Option.bind_some,
      follow_eq hcache hdev (hlt d0 (by simp)) hin1]
    rfl
  · rw [if_neg h2]
    generalize hrest : lbn - 12 - n.refs - n.refs * n.refs = rest
    have hslot : slotOf n.refs lbn = ⟨14, [rest / n.refs / n.refs, rest / n.refs % n.refs, rest % n.refs]⟩ := by
      rw [slotOf, if_neg h0, if_neg (by omega), if_neg (by omega)]
      simp only [digits, hrest, span, Nat.mul_one, Nat.div_one]
      rw [Nat.div_div_eq_div_mul, Nat.mod_mul_right_div_self, Nat.mod_mul_right_mod]
    have hrest' : rest < n.refs * n.refs * n.refs := by
      rw [room, hspan1, hspan2] at hroom
      have hspan3 : span n.refs 3 = n.refs * n.refs * n.refs := by rw [span, hspan2, Nat.mul_assoc]
      omega
    -- the two assertions
    have htop : rest / n.refs / n.refs < n.refs := by
      rw [Nat.div_div_eq_div_mul]
      exact Nat.div_lt_of_lt_mul hrest'
    have hindex : u32 (u32 (u32 (u32 (rest / n.refs / n.refs * n.refs) + rest / n.refs % n.refs) * n.refs) +
        rest % n.refs) = rest := by
      have hrow : rest / n.refs / n.refs * n.refs + rest / n.refs % n.refs = rest / n.refs :=
        Nat.div_add_mod' (rest / n.refs) n.refs
      have hall : rest / n.refs * n.refs + rest % n.refs = rest := Nat.div_add_mod' rest n.refs
      have hle : rest / n.refs ≤ rest := Nat.div_le_self rest n.refs
      rw [u32_of_lt (n := rest / n.refs / n.refs * n.refs) (by omega), hrow,
        u32_of_lt (n := rest / n.refs) (by omega),
        u32_of_lt (n := rest / n.refs * n.refs) (by omega), hall, u32_of_lt (by omega)]
    rw [if_neg (by omega), if_neg (by omega), hslot]
    rw [hslot] at hlt hptr
    generalize rest / n.refs / n.refs = d2 at *
    generalize rest / n.refs % n.refs = d1 at *
    generalize rest % n.refs = d0 at *
    have hin0 : n.Inside n.data.indirect3 := hptr [] List.nil_prefix
    have hin1 : n.Inside (n.ref n.data.indirect3 d2) := hptr [d2] (List.prefix_append [d2] [d1, d0])
    have hin2 : n.Inside (n.ref (n.ref n.data.indirect3 d2) d1) :=
      hptr [d2, d1] (List.prefix_append [d2, d1] [d0])
    rw [follow_eq hcache hdev (hlt d2 (by simp)) hin0, Option.bind_some,
      follow_eq hcache hdev (hlt d1 (by simp)) hin1, Option.bind_some,
      follow_eq hcache hdev (hlt d0 (by simp)) hin2]
    rfl

/-- From a pointer of zero on, there are only zeros. -/
theorem walk_zero (n : Node) : ∀ (path : List Nat), n.walk 0 path = 0 := by
  intro path
  induction path with
  | nil => rfl
  | cons i path ih =>
    rw [walk, List.foldl_cons, ref, if_pos rfl]
    exact ih

/-- A zero pointer on the way to a block leaves it without one on the device. -/
theorem layoutBlock_of_zero {path : List Nat} (hpath : path <+: (slotOf n.refs lbn).path)
    (hzero : n.walk (n.root (slotOf n.refs lbn).root) path = 0) : n.layoutBlock lbn = 0 := by
  obtain ⟨rest, hrest⟩ := hpath
  rw [layoutBlock, ← hrest, walk, List.foldl_append]
  rw [walk] at hzero
  rw [hzero]
  exact n.walk_zero rest

/-- The caller's buffer for a block ends before the address space does, and `bzero` reads the size of the
    block as a positive number. -/
def CallersBuffer (buffer size : Nat) : Prop := size < 0x80000000 ∧ buffer + size ≤ 4294967296

theorem store_zeros {m : Mem} {buffer k : Nat} :
    store m buffer (List.replicate k 0) = Memory.bzero m buffer k := by
  funext i
  rw [store, Memory.bzero]
  by_cases hlo : buffer ≤ i
  · rw [if_pos hlo, List.getD_eq_getElem?_getD, List.getElem?_replicate]
    by_cases hhi : i < buffer + k
    · rw [if_pos (by omega), if_pos ⟨hlo, hhi⟩]
      rfl
    · rw [if_neg (by omega), if_neg (by omega)]
      rfl
  · rw [if_neg hlo, if_neg (by omega)]

variable {k offset : Nat}

/-- The block size of a file system. -/
theorem blockSize_ge (hbs : n.blockSize = 1 <<< (k + 10)) : 1024 ≤ n.blockSize := by
  rw [hbs]
  exact shift_ge k

/-- **A block that a 32-bit offset reaches** is found on the device. -/
theorem findBlock_reach (hbs : n.blockSize = 1 <<< (k + 10)) (hoff : offset < 4294967296)
    (hcache : 0 < n.bufferCache.blockSize) (hdev : n.bufferCache.sizeInBytes < 4294967296)
    (hptr : n.PointersInside (offset / n.blockSize)) :
    n.findBlock (offset / n.blockSize) = some (n.layoutBlock (offset / n.blockSize)) := by
  have hbig := blockSize_ge hbs
  have hpos : 0 < n.refs := by
    rw [refs]
    omega
  have hlbn : offset / n.blockSize < 4294967296 := Nat.lt_of_le_of_lt (Nat.div_le_self _ _) hoff
  exact findBlock_eq hcache hdev hpos (reach hbig hoff).1 hlbn (reach hbig hoff).2 hptr

/-- Its bytes are delivered. -/
theorem readBlock_reach (hbs : n.blockSize = 1 <<< (k + 10)) (hoff : offset < 4294967296)
    (hcache : 0 < n.bufferCache.blockSize) (hdev : n.bufferCache.sizeInBytes < 4294967296)
    (hptr : n.PointersInside (offset / n.blockSize)) (m : Mem) {buffer : Nat}
    (hbuf : CallersBuffer buffer n.blockSize) :
    n.readBlock m (offset / n.blockSize) buffer =
      some (store m buffer (n.layoutBytes (offset / n.blockSize))) := by
  rw [readBlock, findBlock_reach hbs hoff hcache hdev hptr, layoutBytes]
  simp only
  by_cases h0 : n.layoutBlock (offset / n.blockSize) = 0
  · rw [if_pos h0, if_pos h0, store_zeros, Machine.bzero_eq hbuf.1 hbuf.2]
  · have hend : (n.layoutBlock (offset / n.blockSize) + 1) * n.blockSize ≤ n.bufferCache.sizeInBytes :=
      (hptr _ List.prefix_rfl).resolve_left h0
    rw [Nat.add_mul, Nat.one_mul] at hend
    rw [if_neg h0, if_neg h0, u32_of_lt (by omega), BlockIo.readThing_eq hcache hend]
    rfl

/-- **`read_block`** of a block that a 32-bit offset reaches finds the block on the device that the layout
    has for it, through indices that lie in their blocks and that no other such block has; it delivers the
    bytes of the block, which are all zero if a pointer on the way is, writes nothing else, and no assertion
    fails. -/
theorem readBlock_spec (n : Node) (m : Mem) (k offset buffer : Nat) (hbs : n.blockSize = 1 <<< (k + 10))
    (hoff : offset < 4294967296) (hcache : 0 < n.bufferCache.blockSize)
    (hdev : n.bufferCache.sizeInBytes < 4294967296) (hptr : n.PointersInside (offset / n.blockSize))
    (hbuf : CallersBuffer buffer n.blockSize) :
    n.findBlock (offset / n.blockSize) = some (n.layoutBlock (offset / n.blockSize)) ∧
    n.readBlock m (offset / n.blockSize) buffer = some (store m buffer (n.layoutBytes (offset / n.blockSize))) ∧
    (∀ i ∈ (slotOf n.refs (offset / n.blockSize)).path, i < n.refs) ∧
    (∀ offset', offset' < 4294967296 →
      slotOf n.refs (offset / n.blockSize) = slotOf n.refs (offset' / n.blockSize) →
      offset / n.blockSize = offset' / n.blockSize) ∧
    ∀ path, path <+: (slotOf n.refs (offset / n.blockSize)).path →
      n.walk (n.root (slotOf n.refs (offset / n.blockSize)).root) path = 0 →
      n.layoutBytes (offset / n.blockSize) = List.replicate n.blockSize 0 := by
  have hbig := blockSize_ge hbs
  have hpos : 0 < n.refs := by
    rw [refs]
    omega
  have hroom : ∀ offset', offset' < 4294967296 → offset' / n.blockSize < room n.refs :=
    fun offset' h => (reach hbig h).1
  refine ⟨findBlock_reach hbs hoff hcache hdev hptr, readBlock_reach hbs hoff hcache hdev hptr m hbuf,
    slotOf_lt hpos (hroom offset hoff), ?_, ?_⟩
  · intro offset' hoff' heq
    exact slotOf_inj hpos (hroom offset hoff) (hroom offset' hoff') heq
  · intro path hpath hzero
    rw [layoutBytes, if_pos (layoutBlock_of_zero hpath hzero)]

/-- A device of four blocks: the second holds the number of the third, which starts with a nine. -/
def fourBlocks : BlockIo := ⟨512, 4096, fun b i => if b = 2 ∧ i = 0 then 2 else if b = 4 then 9 else 0⟩

/-- A node on it that has one block, behind the direct ones. -/
def oneIndirect : Node := ⟨fourBlocks, 5, 1024, ⟨0x8000, 13312, fun _ => 0, 1, 0, 0⟩⟩

theorem readBlock_spec_oneIndirect : oneIndirect.findBlock 12 = some 2 ∧
    ∃ m', oneIndirect.readBlock (fun _ => 0) 12 4096 = some m' ∧ m' 4096 = 9 := by
  have hslot : (slotOf oneIndirect.refs 12).path = [0] := by decide
  have hptr : oneIndirect.PointersInside 12 := by
    intro path hpath
    rw [hslot] at hpath
    rcases List.prefix_cons_iff.1 hpath with rfl | ⟨rest, rfl, hrest⟩
    · exact Or.inr (by decide)
    · rw [List.prefix_nil.1 hrest]
      exact Or.inr (by decide)
  have h := readBlock_spec oneIndirect (fun _ => 0) 0 12288 4096 rfl (by decide) (by decide) (by decide) hptr
    ⟨by decide, by decide⟩
  refine ⟨h.1.trans (by decide), _, h.2.1, ?_⟩
  have hbytes : oneIndirect.layoutBytes 12 = fourBlocks.bytesFrom 2048 1024 := if_neg (by decide)
  have hat := store_at (fun _ => 0) 4096 0 (oneIndirect.layoutBytes 12)
  rw [hbytes, Nat.add_zero, BlockIo.bytesFrom_getD, if_pos (by decide)] at hat
  rw [← hbytes] at hat
  exact hat.trans (by decide)

/-- A node whose pointers lie on the device is a device whose `read_block` delivers the bytes of the block. -/
theorem readBlock_io (n : Node) (m : Mem) {k offset buffer : Nat} (hbs : n.blockSize = 1 <<< (k + 10))
    (hoff : offset < 4294967296) (hcache : 0 < n.bufferCache.blockSize)
    (hdev : n.bufferCache.sizeInBytes < 4294967296) (hptr : n.PointersInside (offset / n.blockSize))
    (hbuf : CallersBuffer buffer n.blockSize) :
    n.readBlock m (offset / n.blockSize) buffer = some (n.io.deliver m (offset / n.blockSize) buffer) := by
  rw [readBlock_reach hbs hoff hcache hdev hptr m hbuf, BlockIo.deliver]
  congr 2
  have hlen : (n.layoutBytes (offset / n.blockSize)).length = n.blockSize := by
    rw [layoutBytes]
    split_ifs
    · exact List.length_replicate
    · exact BlockIo.bytesFrom_length
  refine List.ext_getElem ?_ ?_
  · rw [List.length_map, List.length_range, hlen]
    rfl
  · intro i h1 h2
    rw [List.getElem_map, List.getElem_range]
    show _ = (n.layoutBytes (offset / n.blockSize)).getD i 0
    rw [List.getD_eq_getElem?_getD, List.getElem?_eq_getElem h1, Option.getD_some]

end Node

end BadApple.Ext2
