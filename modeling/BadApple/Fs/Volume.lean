/-
  Volumes, and how a device holds one (kernel/ext2.cc, kernel/ext2.h).

  1. **Specification** — `Volume`: files with bytes, directories with names, and links with targets, under
     i-numbers.  A path leads from a directory to an i-number through some links (`Leads`); nothing of blocks,
     records or 32-bit offsets is left.
  2. **Storage** — `Stored`: how a device holds a volume, by the format of the blocks, the records and the
     links.
  3. **Two views** — `Node.device`: a node as the `read_block` of the source shows it; `Shows`: a mounted
     `Ext2` as the parameters of `find`.
  4. **The result** — `device_bytesFrom`: where the pointers of a node lie on the device, what the source reads
     of it is what the layout has, so that the records of a directory are the same either way.
-/
import BadApple.Fs.Entries
import BadApple.Fs.Find
import BadApple.Fs.Mount

namespace BadApple

open Ext2

/-! ## Specification -/

/-- What an i-node holds: a file its bytes, a directory its entries, a link its target. -/
inductive Content where
  | file (bytes : List UInt8)
  | directory (entries : List (List UInt8 × Nat))
  | link (target : List UInt8)

/-- A volume: 2 is a directory, and what the directories name is there. -/
structure Volume where
  content : Nat → Option Content
  root : ∃ entries, content 2 = some (.directory entries)
  closed : ∀ d entries, content d = some (.directory entries) →
    ∀ name i, (name, i) ∈ entries → (content i).isSome

namespace Volume

/-- The i-number that a directory has for a name, the first if there are more. -/
def child (v : Volume) (dir : Nat) (name : List UInt8) : Option Nat :=
  match v.content dir with
  | some (.directory entries) => entries.lookup name
  | _ => none

/-- An i-number is that of a link. -/
def IsLink (v : Volume) (i : Nat) : Prop := ∃ target, v.content i = some (.link target)

/-- Where a path starts that stands in `dir`. -/
def start (dir : Nat) (path : List UInt8) : Nat := if isAbsolute path then 2 else dir

/-- Names lead from a directory to an i-number, and `links` links on the way are replaced by their targets.  A
    link that the last name is for stands for itself. -/
inductive Leads (v : Volume) : (links : Nat) → (dir : Nat) → List (List UInt8) → (i : Nat) → Prop where
  | here (dir : Nat) : Leads v 0 dir [] dir
  | down {links dir next i : Nat} {name : List UInt8} {rest : List (List UInt8)}
      (hchild : v.child dir name = some next) (hkind : rest = [] ∨ ¬ v.IsLink next)
      (hrest : Leads v links next rest i) : Leads v links dir (name :: rest) i
  | through {links dir next i : Nat} {name target : List UInt8} {rest : List (List UInt8)}
      (hchild : v.child dir name = some next) (hlink : v.content next = some (.link target))
      (hmore : rest ≠ []) (hrest : Leads v links (start dir target) (namesOf target ++ rest) i) :
      Leads v (links + 1) dir (name :: rest) i

/-- A path stands for an i-number: it leads there through fewer than 100 links. -/
def Finds (v : Volume) (dir : Nat) (path : List UInt8) (i : Nat) : Prop :=
  ∃ links, links < 100 ∧ v.Leads links (start dir path) (namesOf path) i

end Volume

/-! ## A node as a device -/

namespace Ext2.Node

/-- The bytes that `read_block(lbn)` delivers; `none` is a failed assertion. -/
def blockBytes (n : Ext2.Node) (lbn : Nat) : Option (List UInt8) :=
  (n.findBlock lbn).bind fun pbn =>
    if pbn = 0 then some (List.replicate n.blockSize 0)
    else n.bufferCache.readThing (u32 (pbn * n.blockSize)) n.blockSize

/-- The node as a device, its blocks being what `read_block` delivers. -/
def device (n : Ext2.Node) : BlockIo :=
  ⟨n.blockSize, n.data.sizeLow, fun lbn i => ((n.blockBytes lbn).getD []).getD i 0⟩

/-- The byte at `i` of the memory from `data.direct0` on, which is that of the block pointers. -/
def direct0 (n : Ext2.Node) (i : Nat) : UInt8 := UInt8.ofNat (n.root (i / 4) >>> (8 * (i % 4)))

/-- The pointers on the way to every byte are zero or point into the device. -/
def AllInside (n : Ext2.Node) : Prop :=
  ∀ offset, offset < n.data.sizeLow → n.PointersInside (offset / n.blockSize)

/-- How a node holds what it stands for: a file in its blocks; a directory as records in its blocks, none of
    them hidden; a link with a short target in the block pointers, with a longer one in its blocks. -/
def Holds (n : Ext2.Node) : Content → Prop
  | .file bytes => n.data.mode / 4096 = 8 ∧ n.AllInside ∧ n.io.bytesFrom 0 n.data.sizeLow = bytes
  | .directory entries => n.data.mode / 4096 = 4 ∧ n.AllInside ∧ ∃ rs, Records n.io 0 rs ∧
      (∀ name, ¬ Hidden rs name) ∧
      entries = (rs.filter fun r => r.inode ≠ 0).map fun r => (r.name, r.inode)
  | .link target => n.data.mode / 4096 = 0xa ∧ 0 ∉ target ∧ n.data.sizeLow = target.length ∧
      (target.length < 60 → (List.range target.length).map n.direct0 = target) ∧
      (60 ≤ target.length → n.AllInside ∧ n.io.bytesFrom 0 n.data.sizeLow = target)

end Ext2.Node

/-- A device holds a volume: each i-number that is used is one of the file system's, and its node holds what
    it should. -/
def Stored (disk : BlockIo) (v : Volume) : Prop :=
  ∀ i c, v.content i = some c → 1 ≤ i ∧ i ≤ (superBlock disk).inodesCount ∧ (nodeOn disk i).Holds c

/-! ## The file system that `find` sees -/

/-- What a search comes to, nodes being named by their i-numbers. -/
def Ext2.Result.lookup : Result → Lookup
  | .node n => .node n.number
  | .null => .null
  | .fails => .stops

/-- A name as a C string. -/
def nameString (name : List UInt8) : Nat → UInt8 := fun i => name.getD i 0

/-- `F` is what `find` sees of a mounted file system: the nodes are those of `get_node`, and the lookup in a
    directory is what the loop of `find_one` leaves with; `stops` if it does not end. -/
structure Shows (fs : Ext2) (F : FileSystem) : Prop where
  root : F.root = 2
  mode : ∀ i n, fs.getNode i = .node n → (F.node i).mode = n.data.mode
  direct0 : ∀ i n, fs.getNode i = .node n → ∀ j, j < 60 → (F.node i).direct0 j = n.direct0 j
  io : ∀ i n, fs.getNode i = .node n → (F.node i).io = n.device
  ends : ∀ i n, fs.getNode i = .node n → ∀ name r,
    Loops.Ends (findOneRound fs n.device (nameString name)) 0 r → F.findOne i name = r.lookup
  hangs : ∀ i n, fs.getNode i = .node n → ∀ name,
    ¬ Loops.Terminates (findOneRound fs n.device (nameString name)) 0 → F.findOne i name = .stops

open Classical in
/-- Every mounted file system is seen in some way. -/
theorem exists_shows (fs : Ext2) (hpos : 0 < fs.blockSize) : ∃ F, Shows fs F := by
  have hnode : ∀ i, ∃ N : Node, ∀ n, fs.getNode i = .node n →
      N.mode = n.data.mode ∧ N.direct0 = n.direct0 ∧ N.io = n.device := by
    intro i
    by_cases h : ∃ n, fs.getNode i = .node n
    · obtain ⟨n, hn⟩ := h
      have hbs : 0 < n.device.blockSize := by
        have hne : i ≠ 0 := by
          rintro rfl
          rw [getNode_zero] at hn
          cases hn
        rcases fs.getNode_cases hne with hfails | ⟨data, hdata⟩
        · rw [hfails] at hn
          cases hn
        · rw [hdata] at hn
          obtain rfl := Result.node.inj hn
          exact hpos
      refine ⟨⟨n.data.mode, n.direct0, n.device, hbs⟩, fun n' hn' => ?_⟩
      rw [hn] at hn'
      obtain rfl := Result.node.inj hn'
      exact ⟨rfl, rfl, rfl⟩
    · exact ⟨FileSystem.emptyNode 0 0 fun _ => 0, fun n hn => absurd ⟨n, hn⟩ h⟩
  choose node hnode using hnode
  have hone : ∀ (i : Nat) (name : List UInt8), ∃ l : Lookup, ∀ n, fs.getNode i = .node n →
      (∀ r, Loops.Ends (findOneRound fs n.device (nameString name)) 0 r → l = r.lookup) ∧
      (¬ Loops.Terminates (findOneRound fs n.device (nameString name)) 0 → l = .stops) := by
    intro i name
    by_cases h : ∃ n r, fs.getNode i = .node n ∧ Loops.Ends (findOneRound fs n.device (nameString name)) 0 r
    · obtain ⟨n, r, hn, hr⟩ := h
      refine ⟨r.lookup, fun n' hn' => ?_⟩
      rw [hn] at hn'
      obtain rfl := Result.node.inj hn'
      exact ⟨fun r' hr' => by rw [hr.unique hr'], fun hnot => absurd ⟨r, hr⟩ hnot⟩
    · exact ⟨.stops, fun n hn => ⟨fun r hr => absurd ⟨n, r, hn, hr⟩ h, fun _ => rfl⟩⟩
  choose one hone using hone
  exact ⟨⟨2, node, one⟩, rfl, fun i n hn => (hnode i n hn).1,
    fun i n hn j _ => congrFun (hnode i n hn).2.1 j, fun i n hn => (hnode i n hn).2.2,
    fun i n hn name r hr => (hone i name n hn).1 r hr, fun i n hn name hnot => (hone i name n hn).2 hnot⟩

/-! ## Reading a node -/

namespace Ext2

/-- The same bytes as records. -/
theorem Records.congr {dir dir' : BlockIo} (hsize : dir'.sizeInBytes = dir.sizeInBytes)
    (hbyte : ∀ o, o < dir.sizeInBytes → dir'.byte o = dir.byte o) : ∀ {rs : List DirRecord} {offset : Nat},
    Records dir offset rs → Records dir' offset rs := by
  have hbytes : ∀ o k, o + k ≤ dir.sizeInBytes → dir'.bytesFrom o k = dir.bytesFrom o k := by
    intro o k hk
    rw [BlockIo.bytesFrom, BlockIo.bytesFrom]
    refine List.map_congr_left fun j hj => hbyte _ ?_
    have := List.mem_range.1 hj
    omega
  intro rs
  induction rs with
  | nil =>
    intro offset h
    exact Eq.trans h hsize.symm
  | cons r rs ih =>
    intro offset h
    obtain ⟨hr, hrest⟩ := h
    have hend := hrest.le
    have hroom := hr.room
    refine ⟨?_, ih hrest⟩
    constructor
    · rw [hbytes _ _ (by omega), hr.inode]
    · rw [hbytes _ _ (by omega), hr.length]
    · rw [hbyte _ (by omega), hr.nameLength]
    · rw [hbytes _ _ (by omega), hr.name]
    · exact hr.room
    · exact hr.nonempty
    · exact hr.noNul

namespace Node

variable {n : Ext2.Node} {offset k : Nat}

/-- A node of a mounted file system: its block size is one of ext2's, and sizes are words. -/
structure Mounted (n : Ext2.Node) : Prop where
  blockSize : ∃ k, n.blockSize = 1 <<< (k + 10)
  cache : 0 < n.bufferCache.blockSize
  words : n.bufferCache.sizeInBytes < 4294967296
  size : n.data.sizeLow < 4294967296

theorem Mounted.pos (h : n.Mounted) : 0 < n.blockSize := by
  obtain ⟨k, hk⟩ := h.blockSize
  have := blockSize_ge hk
  omega

/-- `read_block` delivers every block of a file whose pointers lie on the device. -/
theorem blockBytes_eq (h : n.Mounted) (hin : n.AllInside) (hoff : offset < n.data.sizeLow) :
    n.blockBytes (offset / n.blockSize) = some (n.layoutBytes (offset / n.blockSize)) := by
  obtain ⟨k, hk⟩ := h.blockSize
  have hsize := h.size
  have hwords := h.words
  have hptr := hin offset hoff
  rw [blockBytes, findBlock_reach hk (by omega) h.cache hwords hptr, Option.bind_some, layoutBytes]
  by_cases h0 : n.layoutBlock (offset / n.blockSize) = 0
  · rw [if_pos h0, if_pos h0]
  · have hend : (n.layoutBlock (offset / n.blockSize) + 1) * n.blockSize ≤ n.bufferCache.sizeInBytes :=
      (hptr _ List.prefix_rfl).resolve_left h0
    rw [Nat.add_mul, Nat.one_mul] at hend
    rw [if_neg h0, if_neg h0, u32_of_lt (by omega), BlockIo.readThing_eq h.cache hend]

/-- What is read of such a file is what the layout has. -/
theorem device_byte (h : n.Mounted) (hin : n.AllInside) (hoff : offset < n.data.sizeLow) :
    n.device.byte offset = n.io.byte offset := by
  show ((n.blockBytes (offset / n.blockSize)).getD []).getD (offset % n.blockSize) 0 =
    (n.layoutBytes (offset / n.blockSize)).getD (offset % n.blockSize) 0
  rw [blockBytes_eq h hin hoff, Option.getD_some]

theorem device_bytesFrom (h : n.Mounted) (hin : n.AllInside) (hle : offset + k ≤ n.data.sizeLow) :
    n.device.bytesFrom offset k = n.io.bytesFrom offset k := by
  rw [BlockIo.bytesFrom, BlockIo.bytesFrom]
  refine List.map_congr_left fun j hj => device_byte h hin ?_
  have := List.mem_range.1 hj
  omega

end Node

end Ext2

/-- The nodes on a device with a file system. -/
theorem Ext2.Formatted.mounted {disk : BlockIo} (h : Formatted disk) (i : Nat) : (nodeOn disk i).Mounted where
  blockSize := ⟨(superBlock disk).logBlockSize, rfl⟩
  cache := h.sectors
  words := h.words
  size := by
    refine littleEndian_lt (k := 4) ?_
    rw [List.length_take]
    exact Nat.min_le_left _ _

end BadApple
