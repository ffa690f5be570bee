/-
  Mounting an ext2 file system: the constructor of `Ext2` (kernel/ext2.cc, kernel/ext2.h).

  1. **Program** — `mount`: the superblock gives the sizes; the number of groups follows from them, with
     32-bit sums; the table of the groups lies in the block after the superblock and says where the i-nodes
     of each group are.  The root is node 2.  The buffer cache is taken to answer each read as the device does,
     and the heap to have room for the table.
  2. **Format** — `Formatted`: what a device looks like that has such a file system: the sizes fit together,
     and the tables and the i-nodes lie on the device.
  3. **The crux** — `wordAt_bytesFrom`: a word of bytes that were read is the word there on the device.
  4. **The result** — `mount_formatted`: every assertion of the constructor holds, and from then on
     `get_node` finds every i-node at its place in the format.
-/
import BadApple.Fs.Blocks

namespace BadApple.Ext2

/-! ## The structures on the device -/

/-- `SuperBlock`: the fields that the constructor reads. -/
structure SuperBlock where
  inodesCount : Nat
  blocksCount : Nat
  logBlockSize : Nat
  blocksPerGroup : Nat
  inodesPerGroup : Nat
  inodeSize : Nat

/-- `SuperBlock` from its bytes. -/
def SuperBlock.ofBytes (bytes : List UInt8) : SuperBlock where
  inodesCount := wordAt bytes 0
  blocksCount := wordAt bytes 4
  logBlockSize := wordAt bytes 24
  blocksPerGroup := wordAt bytes 32
  inodesPerGroup := wordAt bytes 40
  inodeSize := littleEndian ((bytes.drop 88).take 2)

/-- `sizeof(SuperBlock)`. -/
def superBlockSize : Nat := 140

/-- `sizeof(BlockGroup)`. -/
def blockGroupSize : Nat := 32

/-- `inode_table` of group `g` in the bytes of the table of groups. -/
def inodeTable (groupTable : List UInt8) (g : Nat) : Nat := wordAt groupTable (blockGroupSize * g + 8)

/-! ## The constructor -/

/-- `Ext2(ide)`: the file system and its root; `none` is a failed assertion, an array that is longer than a
    32-bit word says, or a division by zero.  The buffer cache shows the blocks of the device, as it does until
    its own assertion fails; and the heap of the kernel has room for the cache and the table of the groups. -/
def mount (ide : BlockIo) : Option (Ext2 × Node) :=
  (ide.readThing 1024 superBlockSize).bind fun bytes =>
    let sb := SuperBlock.ofBytes bytes
    let blockSize := u32 (1 <<< (u32 (sb.logBlockSize + 10) % 32))  -- the shift takes five bits
    if sb.blocksPerGroup = 0 then none
    else
      let nGroups := u32 (u32 (sb.blocksCount + sb.blocksPerGroup) + 4294967295) / sb.blocksPerGroup
      if ¬ u32 (nGroups * sb.blocksPerGroup) ≥ sb.blocksCount then none
      else
        let superBlockNumber := 1024 / blockSize
        let groupTableNumber := superBlockNumber + 1
        if ¬ blockGroupSize * nGroups < 4294967296 then none
        else
          let groupTableSize := blockGroupSize * nGroups
          (ide.readThing (u32 (groupTableNumber * blockSize)) groupTableSize).bind fun groupTable =>
            let fs : Ext2 := ⟨ide, blockSize, sb.inodesCount, sb.blocksCount, sb.inodeSize, nGroups,
              inodeTable groupTable, sb.inodesPerGroup⟩
            match fs.getNode 2 with
            | .node root => some (fs, root)
            | _ => none

/-! ## The format -/

/-- The superblock of a device. -/
def superBlock (disk : BlockIo) : SuperBlock := SuperBlock.ofBytes (disk.bytesFrom 1024 superBlockSize)

namespace SuperBlock

/-- The size of a block. -/
def blockSize (sb : SuperBlock) : Nat := 1 <<< (sb.logBlockSize + 10)

/-- The number of groups: as many as the blocks fill, the last one not completely. -/
def groups (sb : SuperBlock) : Nat := (sb.blocksCount + sb.blocksPerGroup - 1) / sb.blocksPerGroup

/-- Where the table of the groups is: in the block after the superblock. -/
def groupTable (sb : SuperBlock) : Nat := (1024 / sb.blockSize + 1) * sb.blockSize

end SuperBlock

/-- Where the i-nodes of group `g` are: a number of a block. -/
def tableOf (disk : BlockIo) (g : Nat) : Nat :=
  littleEndian (disk.bytesFrom ((superBlock disk).groupTable + blockGroupSize * g + 8) 4)

/-- Where i-node `i` is; they are counted from 1 on, through all groups. -/
def inodeOffset (disk : BlockIo) (i : Nat) : Nat :=
  let sb := superBlock disk
  tableOf disk ((i - 1) / sb.inodesPerGroup) * sb.blockSize + (i - 1) % sb.inodesPerGroup * sb.inodeSize

/-- I-node `i`, as it is on the device. -/
def nodeOn (disk : BlockIo) (i : Nat) : Node :=
  ⟨disk, i, (superBlock disk).blockSize, NodeData.ofBytes (disk.bytesFrom (inodeOffset disk i) nodeDataSize)⟩

/-- What `mount` should make of a device. -/
def fileSystemOn (disk : BlockIo) : Ext2 :=
  let sb := superBlock disk
  ⟨disk, sb.blockSize, sb.inodesCount, sb.blocksCount, sb.inodeSize, sb.groups,
    inodeTable (disk.bytesFrom sb.groupTable (blockGroupSize * sb.groups)), sb.inodesPerGroup⟩

/-- The device has an ext2 file system: the sizes are 32-bit words and fit together, and the superblock, the
    table of the groups and all i-nodes lie on the device. -/
structure Formatted (disk : BlockIo) : Prop where
  sectors : 0 < disk.blockSize
  words : disk.sizeInBytes < 4294967296
  superBlock_in : 1024 + superBlockSize ≤ disk.sizeInBytes
  log_lt : (superBlock disk).logBlockSize < 22
  blocksPerGroup_pos : 0 < (superBlock disk).blocksPerGroup
  blocks_lt : (superBlock disk).blocksCount + (superBlock disk).blocksPerGroup ≤ 4294967296
  inodesPerGroup_pos : 0 < (superBlock disk).inodesPerGroup
  inodes_le : (superBlock disk).inodesCount ≤ (superBlock disk).groups * (superBlock disk).inodesPerGroup
  hasRoot : 2 ≤ (superBlock disk).inodesCount
  groups_in : (superBlock disk).groupTable + blockGroupSize * (superBlock disk).groups ≤ disk.sizeInBytes
  tables : ∀ g, g < (superBlock disk).groups → tableOf disk g ≤ (superBlock disk).blocksCount
  inodes_in : ∀ i, 1 ≤ i → i ≤ (superBlock disk).inodesCount →
    inodeOffset disk i + nodeDataSize ≤ disk.sizeInBytes

/-! ## What is read -/

variable {disk : BlockIo} {offset n i k : Nat}

/-- Bytes out of the middle of bytes. -/
theorem bytesFrom_middle (h : i + k ≤ n) :
    ((disk.bytesFrom offset n).drop i).take k = disk.bytesFrom (offset + i) k := by
  have hsplit : disk.bytesFrom offset n =
      disk.bytesFrom offset i ++ (disk.bytesFrom (offset + i) k ++
        disk.bytesFrom (offset + i + k) (n - i - k)) := by
    rw [disk.bytesFrom_append, disk.bytesFrom_append]
    congr 1
    omega
  rw [hsplit, List.drop_left' BlockIo.bytesFrom_length, List.take_left' BlockIo.bytesFrom_length]

/-- The part of the bytes from an offset on, as much of it as there is. -/
theorem bytesFrom_part (h : offset ≤ n) :
    ((disk.bytesFrom 0 n).drop offset).take k = disk.bytesFrom offset (min k (n - offset)) := by
  have hmiddle : ((disk.bytesFrom 0 n).drop offset).take (min k (n - offset)) =
      disk.bytesFrom offset (min k (n - offset)) := by
    rw [bytesFrom_middle (by omega), Nat.zero_add]
  rw [← hmiddle]
  by_cases hk : k ≤ n - offset
  · rw [Nat.min_eq_left hk]
  · have hlen : ((disk.bytesFrom 0 n).drop offset).length = n - offset := by
      rw [List.length_drop, BlockIo.bytesFrom_length]
    rw [Nat.min_eq_right (by omega), List.take_of_length_le (by omega), List.take_of_length_le (by omega)]

/-- **A word of what was read** is the word on the device. -/
theorem wordAt_bytesFrom (h : i + 4 ≤ n) :
    wordAt (disk.bytesFrom offset n) i = littleEndian (disk.bytesFrom (offset + i) 4) := by
  rw [wordAt, bytesFrom_middle h]

/-- What `get_node` finds, when nothing stands in its way. -/
theorem getNode_of {fs : Ext2} {number : Nat} {bytes : List UInt8} (hne : number ≠ 0)
    (hle : number ≤ fs.numberOfNodes) (hpos : 0 < fs.iNodesPerGroup)
    (hgroup : (number - 1) / fs.iNodesPerGroup < fs.nGroups)
    (htable : fs.iNodeTables ((number - 1) / fs.iNodesPerGroup) ≤ fs.numberOfBlocks)
    (hread : fs.bufferCache.readThing (u32 (fs.iNodeTables ((number - 1) / fs.iNodesPerGroup) * fs.blockSize +
      (number - 1) % fs.iNodesPerGroup * fs.iNodeSize)) nodeDataSize = some bytes) :
    fs.getNode number = .node ⟨fs.bufferCache, number, fs.blockSize, NodeData.ofBytes bytes⟩ := by
  rw [getNode, if_neg hne, if_neg (not_not.2 hle), if_neg (by omega)]
  simp only
  rw [if_neg (not_not.2 hgroup), if_neg (not_not.2 htable), hread]

/-- A power of two below 32 bits. -/
theorem shift_lt {k : Nat} (h : k < 32) : 1 <<< k < 4294967296 := by
  have hle : 1 <<< k ≤ 1 <<< 31 := by
    rw [Nat.one_shiftLeft, Nat.one_shiftLeft]
    exact Nat.pow_le_pow_right (by decide) (by omega)
  have hlast : 1 <<< 31 = 2147483648 := by decide
  omega

namespace Formatted

/-- The size of a block is a word. -/
theorem blockSize_eq (h : Formatted disk) :
    u32 (1 <<< (u32 ((superBlock disk).logBlockSize + 10) % 32)) = (superBlock disk).blockSize := by
  have hlog := h.log_lt
  rw [u32_of_lt (n := (superBlock disk).logBlockSize + 10) (by omega), Nat.mod_eq_of_lt (by omega),
    u32_of_lt (shift_lt (by omega))]
  rfl

/-- The groups hold all blocks, and the last one is not empty. -/
theorem groups_bounds (h : Formatted disk) :
    (superBlock disk).blocksCount ≤ (superBlock disk).groups * (superBlock disk).blocksPerGroup ∧
    (superBlock disk).groups * (superBlock disk).blocksPerGroup <
      (superBlock disk).blocksCount + (superBlock disk).blocksPerGroup := by
  have hpos := h.blocksPerGroup_pos
  rw [SuperBlock.groups]
  generalize (superBlock disk).blocksCount = c at *
  generalize (superBlock disk).blocksPerGroup = p at *
  have hdiv := Nat.div_add_mod' (c + p - 1) p
  have hmod := Nat.mod_lt (c + p - 1) hpos
  constructor
  · omega
  · omega

/-- The number of groups that the constructor computes. -/
theorem groups_eq (h : Formatted disk) :
    u32 (u32 ((superBlock disk).blocksCount + (superBlock disk).blocksPerGroup) + 4294967295) /
      (superBlock disk).blocksPerGroup = (superBlock disk).groups := by
  have hpos := h.blocksPerGroup_pos
  have hlt := h.blocks_lt
  have hsum : u32 (u32 ((superBlock disk).blocksCount + (superBlock disk).blocksPerGroup) + 4294967295) =
      (superBlock disk).blocksCount + (superBlock disk).blocksPerGroup - 1 := by
    rw [u32_add, u32_of_wrap (by omega) (by omega)]
    omega
  rw [hsum]
  rfl

/-- The entry of a group in the table that the constructor reads. -/
theorem inodeTable_eq {g : Nat} (hg : g < (superBlock disk).groups) :
    (fileSystemOn disk).iNodeTables g = tableOf disk g := by
  show inodeTable (disk.bytesFrom _ _) g = _
  have hin : blockGroupSize * g + 8 + 4 ≤ blockGroupSize * (superBlock disk).groups := by
    rw [blockGroupSize]
    omega
  rw [inodeTable, wordAt_bytesFrom hin, tableOf, Nat.add_assoc]

/-- **Every i-node** is read from its place. -/
theorem getNode_eq (h : Formatted disk) (hpos : 1 ≤ i) (hle : i ≤ (superBlock disk).inodesCount) :
    (fileSystemOn disk).getNode i = .node (nodeOn disk i) := by
  have hgroup : (i - 1) / (superBlock disk).inodesPerGroup < (superBlock disk).groups := by
    have := h.inodes_le
    exact Nat.div_lt_of_lt_mul (by rw [Nat.mul_comm]; omega)
  have htable := h.tables _ hgroup
  have hin := h.inodes_in i hpos hle
  have hwords := h.words
  have hentry := inodeTable_eq hgroup
  refine @getNode_of (fileSystemOn disk) i _ (by omega) hle h.inodesPerGroup_pos hgroup ?_ ?_
  · show (fileSystemOn disk).iNodeTables ((i - 1) / (superBlock disk).inodesPerGroup) ≤ _
    rw [hentry]
    exact htable
  · show disk.readThing (u32 ((fileSystemOn disk).iNodeTables ((i - 1) / (superBlock disk).inodesPerGroup) *
      (superBlock disk).blockSize + (i - 1) % (superBlock disk).inodesPerGroup * (superBlock disk).inodeSize))
        nodeDataSize = _
    rw [hentry]
    show disk.readThing (u32 (inodeOffset disk i)) nodeDataSize = _
    rw [u32_of_lt (by omega), BlockIo.readThing_eq h.sectors hin]

end Formatted

/-- **The constructor** on a formatted device: no assertion fails. -/
theorem Formatted.mount_eq (h : Formatted disk) : mount disk = some (fileSystemOn disk, nodeOn disk 2) := by
  have hsuper : disk.readThing 1024 superBlockSize = some (disk.bytesFrom 1024 superBlockSize) :=
    BlockIo.readThing_eq h.sectors h.superBlock_in
  have hgroups := h.groups_in
  have hwords := h.words
  have hbounds := h.groups_bounds
  have hblocks := h.blocks_lt
  have htable : disk.readThing (u32 ((superBlock disk).groupTable))
      (blockGroupSize * (superBlock disk).groups) =
      some (disk.bytesFrom (superBlock disk).groupTable (blockGroupSize * (superBlock disk).groups)) := by
    rw [u32_of_lt (by omega), BlockIo.readThing_eq h.sectors hgroups]
  have hpos := h.blocksPerGroup_pos
  rw [mount, hsuper, Option.bind_some]
  simp only [show SuperBlock.ofBytes (disk.bytesFrom 1024 superBlockSize) = superBlock disk from rfl,
    h.blockSize_eq, h.groups_eq]
  rw [if_neg (by omega), u32_of_lt (by omega), if_neg (not_not.2 hbounds.1), if_neg (by omega)]
  rw [show (1024 / (superBlock disk).blockSize + 1) * (superBlock disk).blockSize =
    (superBlock disk).groupTable from rfl, htable, Option.bind_some]
  show (match (fileSystemOn disk).getNode 2 with
    | .node root => some (fileSystemOn disk, root)
    | _ => none) = _
  rw [h.getNode_eq (by decide) h.hasRoot]

/-! ## The result -/

/-- **Mounting**: on every device with an ext2 file system, of any block size, every assertion of the
    constructor holds, it finds the root in node 2, and of the file system that it makes `get_node` gives every
    i-node from its place in the format, as long as the buffer cache answers as the device. -/
theorem mount_formatted (disk : BlockIo) (h : Formatted disk) :
    mount disk = some (fileSystemOn disk, nodeOn disk 2) ∧
      ∀ i, 1 ≤ i → i ≤ (superBlock disk).inodesCount →
        (fileSystemOn disk).getNode i = .node (nodeOn disk i) :=
  ⟨h.mount_eq, fun _ hpos hle => h.getNode_eq hpos hle⟩

/-- The bytes of a device that are not zero: the superblock, the table of one group, four i-nodes, and three
    blocks.  The root has a link `l` to its directory `d`, in which there is a file `x`. -/
def tinyBytes : List (Nat × UInt8) :=
  [(1024, 16), (1028, 8), (1057, 32), (1064, 16), (1112, 128), (2056, 3),
    (3201, 0x40), (3205, 4), (3240, 5), (3329, 0xA0), (3332, 1), (3368, 100),
    (3457, 0x40), (3461, 4), (3496, 6), (3585, 0x80), (3588, 2), (3624, 7),
    (5120, 3), (5124, 12), (5126, 1), (5128, 108), (5132, 4), (5136, 0xF4), (5137, 3), (5138, 1), (5140, 100),
    (6144, 5), (6149, 4), (6150, 1), (6152, 120), (7168, 104), (7169, 105)]

/-- A device of eight blocks of 1024 bytes. -/
def tinyDisk : BlockIo := ⟨512, 8192, fun b i => (tinyBytes.lookup (512 * b + i)).getD 0⟩

theorem tinyDisk_formatted : Formatted tinyDisk where
  sectors := by decide
  words := by decide
  superBlock_in := by decide
  log_lt := by decide +kernel
  blocksPerGroup_pos := by decide +kernel
  blocks_lt := by decide +kernel
  inodesPerGroup_pos := by decide +kernel
  inodes_le := by decide +kernel
  hasRoot := by decide +kernel
  groups_in := by decide +kernel
  tables := by decide +kernel
  inodes_in := by
    have hall : (superBlock tinyDisk).inodesCount = 16 ∧ ∀ i, i < 17 →
        inodeOffset tinyDisk i + nodeDataSize ≤ tinyDisk.sizeInBytes := by decide +kernel
    intro i _ hle
    exact hall.2 i (by omega)

theorem mount_formatted_tinyDisk : ∃ fs root, mount tinyDisk = some (fs, root) ∧ root.data.isDir ∧
    ∃ n, fs.getNode 5 = .node n ∧ n.data.sizeLow = 2 := by
  obtain ⟨hmount, hnodes⟩ := mount_formatted tinyDisk tinyDisk_formatted
  refine ⟨_, _, hmount, by decide +kernel, _, hnodes 5 (by decide) (by decide +kernel), by decide +kernel⟩

end BadApple.Ext2
