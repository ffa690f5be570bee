/-
  `Ext2`, its nodes and their blocks (kernel/ext2.h, kernel/ext2.cc).

  1. **Values** — `read<T>` takes the bytes of a value from a device, and asserts that they are all there.
  2. **Nodes** — `NodeData` is the part of an i-node that is used, `Node` the object around it.  `get_node`
     reads it from the table of its group.
  3. **Blocks** — `read_block` finds the number of a block on the device, through up to three blocks of
     references, and reads it; block 0 stands for zeros.  32-bit words throughout, and all assertions are
     there.
-/
import BadApple.Fs.BlockIo
import BadApple.Machine

namespace BadApple

/-! ## Values -/

/-- The number in some bytes, the least significant first. -/
def littleEndian : List UInt8 → Nat
  | [] => 0
  | b :: bytes => b.toNat + 256 * littleEndian bytes

/-- `read<T>(offset, thing)`: the bytes of a thing of `size` bytes; `none` is the failed assertion. -/
def BlockIo.readThing (io : BlockIo) (offset size : Nat) : Option (List UInt8) :=
  if io.readAllCount offset size 0 = some size then some (io.readAll offset size) else none

/-- `read<T>(offset, number)` for an unsigned `T`. -/
def BlockIo.readNumber (io : BlockIo) (offset size : Nat) : Option Nat :=
  (io.readThing offset size).map littleEndian

namespace Ext2

/-! ## Nodes -/

/-- `NodeData`: the mode, the size and the block pointers of an i-node. -/
structure NodeData where
  mode : Nat
  sizeLow : Nat
  direct : Nat → Nat
  indirect1 : Nat
  indirect2 : Nat
  indirect3 : Nat

/-- The word at `i` of an i-node. -/
def wordAt (bytes : List UInt8) (i : Nat) : Nat := littleEndian ((bytes.drop i).take 4)

/-- `NodeData` from its bytes. -/
def NodeData.ofBytes (bytes : List UInt8) : NodeData where
  mode := littleEndian (bytes.take 2)
  sizeLow := wordAt bytes 4
  direct := fun i => wordAt bytes (40 + 4 * i)
  indirect1 := wordAt bytes 88
  indirect2 := wordAt bytes 92
  indirect3 := wordAt bytes 96

/-- `sizeof(NodeData)`. -/
def nodeDataSize : Nat := 128

/-- `Node`. -/
structure Node where
  bufferCache : BlockIo
  number : Nat
  blockSize : Nat
  data : NodeData

/-- `is_dir`. -/
def NodeData.isDir (d : NodeData) : Bool := d.mode / 4096 = 4

/-! ## Blocks -/

/-- `follow(pbn, index)`: the reference at `index` of the block `pbn`. -/
def Node.follow (n : Node) (pbn index : Nat) : Option Nat :=
  let refsPerBlock := n.blockSize / 4
  if ¬ index < refsPerBlock then none
  else if pbn = 0 then some 0
  else n.bufferCache.readNumber (u32 (pbn * n.blockSize + index * 4)) 4

/-- The block on the device that `read_block` finds for `lbn`; `none` is a failed assertion. -/
def Node.findBlock (n : Node) (lbn : Nat) : Option Nat :=
  let refsPerBlock := n.blockSize / 4
  if lbn < 12 then some (n.data.direct lbn)
  else
    let lbn := lbn - 12
    if lbn < refsPerBlock then n.follow n.data.indirect1 lbn
    else
      let lbn := lbn - refsPerBlock
      if lbn < u32 (refsPerBlock * refsPerBlock) then
        let d1 := lbn / refsPerBlock
        let d0 := lbn % refsPerBlock
        (n.follow n.data.indirect2 d1).bind fun p => n.follow p d0
      else
        let lbn := lbn - u32 (refsPerBlock * refsPerBlock)
        let d0 := lbn % refsPerBlock
        let t := lbn / refsPerBlock
        let d1 := t % refsPerBlock
        let d2 := t / refsPerBlock
        if ¬ d2 < refsPerBlock then none
        else if ¬ u32 (u32 (u32 (u32 (d2 * refsPerBlock) + d1) * refsPerBlock) + d0) = lbn then none
        else
          (n.follow n.data.indirect3 d2).bind fun p => (n.follow p d1).bind fun q => n.follow q d0

/-- `read_block(lbn, buffer)`: the memory then; `none` is a failed assertion. -/
def Node.readBlock (n : Node) (m : Memory.Mem) (lbn buffer : Nat) : Option Memory.Mem :=
  match n.findBlock lbn with
  | none => none
  | some pbn =>
    if pbn = 0 then some (Machine.bzero m buffer n.blockSize)
    else
      (n.bufferCache.readThing (u32 (pbn * n.blockSize)) n.blockSize).map fun bytes =>
        Memory.store m buffer bytes

end Ext2

/-! ## Looking up a node -/

/-- A mounted `Ext2`. -/
structure Ext2 where
  bufferCache : BlockIo
  blockSize : Nat
  numberOfNodes : Nat
  numberOfBlocks : Nat
  iNodeSize : Nat
  nGroups : Nat
  iNodeTables : Nat → Nat
  iNodesPerGroup : Nat

namespace Ext2

/-- What `get_node` and `find_one` come to: a node, null, or a failed assertion. -/
inductive Result where
  | node (n : Node)
  | null
  | fails

/-- `get_node(number)`. -/
def getNode (fs : Ext2) (number : Nat) : Result :=
  if number = 0 then .null
  else if ¬ number ≤ fs.numberOfNodes then .fails
  else if fs.iNodesPerGroup = 0 then .fails  -- the division traps
  else
    let index := number - 1
    let groupIndex := index / fs.iNodesPerGroup
    if ¬ groupIndex < fs.nGroups then .fails
    else
      let indexInGroup := index % fs.iNodesPerGroup
      let iTableBase := fs.iNodeTables groupIndex
      if ¬ iTableBase ≤ fs.numberOfBlocks then .fails
      else
        let nodeOffset := u32 (iTableBase * fs.blockSize + indexInGroup * fs.iNodeSize)
        match fs.bufferCache.readThing nodeOffset nodeDataSize with
        | none => .fails
        | some bytes => .node ⟨fs.bufferCache, number, fs.blockSize, NodeData.ofBytes bytes⟩

end Ext2

/-! ## Reading values -/

/-- A number of `k` bytes is below 256 to the power of `k`. -/
theorem littleEndian_lt : ∀ {k : Nat} {bytes : List UInt8}, bytes.length ≤ k →
    littleEndian bytes < Nat.repeat (256 * ·) k 1 := by
  intro k
  induction k with
  | zero =>
    intro bytes h
    rw [List.length_eq_zero_iff.1 (Nat.le_zero.1 h)]
    decide
  | succ k ih =>
    intro bytes h
    rw [Nat.repeat]
    cases bytes with
    | nil =>
      have hpos : littleEndian [] < Nat.repeat (256 * ·) k 1 := ih (Nat.zero_le k)
      rw [littleEndian] at hpos ⊢
      omega
    | cons b bytes =>
      have hb := b.toNat_lt
      have hrest := ih (Nat.le_of_succ_le_succ h)
      rw [littleEndian]
      omega

namespace BlockIo

variable {io : BlockIo} {offset size : Nat}

/-- Values that are there are read. -/
theorem readThing_eq (hbs : 0 < io.blockSize) (hin : offset + size ≤ io.sizeInBytes) :
    io.readThing offset size = some (io.bytesFrom offset size) := by
  have hmin : min size (io.sizeInBytes - offset) = size := by omega
  rw [readThing, readAllCount_eq hbs size offset 0 (by omega), readAll_eq hbs size offset (by omega), hmin,
    Nat.zero_add, if_pos rfl]

theorem readNumber_eq (hbs : 0 < io.blockSize) (hin : offset + size ≤ io.sizeInBytes) :
    io.readNumber offset size = some (littleEndian (io.bytesFrom offset size)) := by
  rw [readNumber, readThing_eq hbs hin]
  rfl

end BlockIo

/-- A node that is found has the number that was asked for. -/
theorem Ext2.getNode_cases (fs : Ext2) {number : Nat} (hne : number ≠ 0) :
    fs.getNode number = .fails ∨
      ∃ data, fs.getNode number = .node ⟨fs.bufferCache, number, fs.blockSize, data⟩ := by
  rw [Ext2.getNode, if_neg hne]
  simp only
  by_cases h1 : number ≤ fs.numberOfNodes
  · rw [if_neg (by omega)]
    by_cases h2 : fs.iNodesPerGroup = 0
    · rw [if_pos h2]
      exact Or.inl rfl
    · rw [if_neg h2]
      by_cases h3 : (number - 1) / fs.iNodesPerGroup < fs.nGroups
      · rw [if_neg (by omega)]
        by_cases h4 : fs.iNodeTables ((number - 1) / fs.iNodesPerGroup) ≤ fs.numberOfBlocks
        · rw [if_neg (by omega)]
          cases hread : fs.bufferCache.readThing (u32 (fs.iNodeTables ((number - 1) / fs.iNodesPerGroup) *
            fs.blockSize + (number - 1) % fs.iNodesPerGroup * fs.iNodeSize)) nodeDataSize with
          | none => exact Or.inl rfl
          | some bytes => exact Or.inr ⟨_, rfl⟩
        · rw [if_pos (by omega)]
          exact Or.inl rfl
      · rw [if_pos (by omega)]
        exact Or.inl rfl
  · rw [if_pos (by omega)]
    exact Or.inl rfl

end BadApple
