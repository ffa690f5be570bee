/-
  `configInit` — what the firmware says about the machine (kernel/config.h, kernel/config.cc).

  1. **Tables** — the root pointer is searched for in two ranges of low memory, the MADT among the tables
     that the root table lists.  All of this is read from memory as it stands.
  2. **The loop over the entries** — each round reads the length of the record at `entryPtr`, moves on by as
     much, and then looks at the record that it has come to.  A `Scan` carries a log of the records that were
     looked at, of the bytes that were read, and of the indices that were stored at.
  3. **What is noted** — `note` is what a record changes of the configuration.
-/
import BadApple.Lib.Loops
import BadApple.Machine

namespace BadApple.Boot

open Memory Machine

/-! ## Data -/

/-- `MAX_PROCS`. -/
def maxProcs : Nat := 16

/-- `ApicInfo`. -/
structure ApicInfo where
  processorId : UInt8
  apicId : UInt8
  flags : Nat
deriving DecidableEq, Repr

/-- `Config`. -/
structure Config where
  memSize : Nat
  nOtherProcs : Nat
  totalProcs : Nat
  localAPIC : Nat
  madtFlags : Nat
  ioAPIC : Nat
  apicInfo : Vector ApicInfo maxProcs
  oemid : List UInt8

/-- `kConfig`, as it is before `configInit`. -/
def kConfig : Config where
  memSize := 0
  nOtherProcs := 0
  totalProcs := 0
  localAPIC := 0
  madtFlags := 0
  ioAPIC := 0
  apicInfo := Vector.replicate maxProcs { processorId := 0, apicId := 0, flags := 0 }
  oemid := List.replicate 7 0

/-- `MemInfo`, which the boot sector leaves. -/
structure MemInfo where
  ax : Nat
  bx : Nat
  cx : Nat
  dx : Nat
deriving DecidableEq, Repr

/-! ## Tables -/

/-- The byte at an address, which is a word. -/
def byteAt (m : Mem) (a : Nat) : UInt8 := m (u32 a)

/-- A word in memory. -/
def wordAt (m : Mem) (a : Nat) : Nat := word (byteAt m) a

/-- `iseq`, the second string being given. -/
def iseq (m : Mem) (a : Nat) (b : List UInt8) : Bool :=
  (List.range b.length).all fun i => byteAt m (a + i) == b.getD i 0

/-- `"RSD PTR "`. -/
def rsdSignature : List UInt8 := [0x52, 0x53, 0x44, 0x20, 0x50, 0x54, 0x52, 0x20]

/-- `"APIC"`. -/
def madtSignature : List UInt8 := [0x41, 0x50, 0x49, 0x43]

/-- `findRSDInRange`: every sixteenth address from `start` on. -/
def findRSDInRange (m : Mem) (start stop : Nat) : Option Nat :=
  (List.range' start ((stop - start + 15) / 16) 16).find? fun i => iseq m i rsdSignature

/-- `findRSD`; a null pointer is `0`. -/
def findRSD (m : Mem) : Nat :=
  match findRSDInRange m 0xE0000 0x100000 with
  | some p => p
  | none =>
    let base := ((byteAt m 0x40E).toNat + 256 * (byteAt m 0x40F).toNat) * 16
    (findRSDInRange m base (base + 1024)).getD 0

/-- `sizeof(SDT)`. -/
def sdtSize : Nat := 36

/-- `SDT::Length`. -/
def sdtLength (m : Mem) (sdt : Nat) : Nat := wordAt m (sdt + 4)

/-- `findSDT`: the first table that the root table lists under this name. -/
def findSDT (m : Mem) (rsdp : Nat) (name : List UInt8) : Nat :=
  let rsdt := wordAt m (rsdp + 16)
  let entries := (signed (u32 (sdtLength m rsdt + 4294967296 - sdtSize) / 4)).toNat
  let others := (List.range entries).map fun i => wordAt m (rsdt + sdtSize + 4 * i)
  (others.find? fun h => iseq m h name).getD 0

/-- `memAbove1M`, with its assertion. -/
def memAbove1M (mem : MemInfo) : Option Nat :=
  if mem.cx = 15 * 1024 ∨ mem.dx = 0 then
    some (u32 ((mem.ax ||| mem.cx) * 1024 + (mem.bx ||| mem.dx) * 65536))
  else none

/-! ## The loop over the entries -/

/-- `sizeof(MADT)`. -/
def madtSize : Nat := 44

/-- `MADT_ENTRY::type`. -/
def entryType (m : Mem) (entry : Nat) : UInt8 := byteAt m entry

/-- `MADT_ENTRY::len`. -/
def entryLen (m : Mem) (entry : Nat) : Nat := (byteAt m (entry + 1)).toNat

/-- `APIC_ENTRY::processorId`. -/
def processorId (m : Mem) (entry : Nat) : UInt8 := byteAt m (entry + 2)

/-- What is stored about an `APIC_ENTRY`. -/
def apicInfo (m : Mem) (entry : Nat) : ApicInfo where
  processorId := processorId m entry
  apicId := byteAt m (entry + 3)
  flags := wordAt m (entry + 4)

/-- `IOAPIC_ENTRY::address`. -/
def ioApicAddress (m : Mem) (entry : Nat) : Nat := wordAt m (entry + 4)

/-- The addresses of `n` bytes. -/
def bytesFrom (a n : Nat) : List Nat := (List.range n).map fun i => u32 (a + i)

/-- Where the loop stands, and what it has done. -/
structure Scan where
  entryPtr : Nat
  bytesForEntries : Int
  config : Config
  examined : List Nat
  reads : List Nat
  stores : List Nat

/-- The head of the body: `entryPtr` and `bytesForEntries` move on before the record is looked at. -/
def advance (m : Mem) (s : Scan) : Scan :=
  { s with
    entryPtr := u32 (s.entryPtr + entryLen m s.entryPtr)
    bytesForEntries := signed (unsigned (s.bytesForEntries - entryLen m s.entryPtr))
    reads := s.reads ++ bytesFrom (s.entryPtr + 1) 1 }

/-- The branches on the type of the record.  A store behind the array is in the log, what it destroys is
    not described. -/
def examine (m : Mem) (s : Scan) : Scan :=
  let q := s.entryPtr
  let s := { s with examined := s.examined ++ [q], reads := s.reads ++ bytesFrom q 1 }
  if entryType m q = 0 then
    let s := { s with reads := s.reads ++ bytesFrom (q + 2) 1 }
    if processorId m q = 0 then s
    else
      let n := s.config.nOtherProcs
      { s with
        config := { s.config with
          nOtherProcs := u32 (n + 1)
          apicInfo := s.config.apicInfo.setIfInBounds n (apicInfo m q) }
        reads := s.reads ++ bytesFrom (q + 2) 6
        stores := s.stores ++ [n] }
  else if entryType m q = 1 then
    { s with
      config := { s.config with ioAPIC := ioApicAddress m q }
      reads := s.reads ++ bytesFrom (q + 4) 4 }
  else s

/-- `while (bytesForEntries > 0)`. -/
def round (m : Mem) (s : Scan) : Scan ⊕ Scan :=
  if 0 < s.bytesForEntries then .inl (examine m (advance m s)) else .inr s

/-- `(MADT_ENTRY*)(madt + 1)`. -/
def firstEntry (madt : Nat) : Nat := u32 (madt + madtSize)

/-- `madt->sdt.Length - sizeof(MADT)`, as an `int32_t`. -/
def entryBytes (m : Mem) (madt : Nat) : Int := signed (u32 (sdtLength m madt + 4294967296 - madtSize))

/-- Before the loop. -/
def startScan (m : Mem) (madt : Nat) (config : Config) : Scan where
  entryPtr := firstEntry madt
  bytesForEntries := entryBytes m madt
  config := { config with nOtherProcs := 0 }
  examined := []
  reads := []
  stores := []

/-- `findSDT(rsdp, "APIC")`. -/
def findMADT (m : Mem) : Nat := findSDT m (findRSD m) madtSignature

/-- The configuration when the loop is come to; `above` is what `memAbove1M` returned. -/
def beforeLoop (above : Nat) (m : Mem) (config : Config) : Config :=
  { config with
    memSize := u32 (above + 1048576)
    oemid :=
      if findRSD m = 0 then config.oemid
      else (List.range 6).map (fun i => byteAt m (findRSD m + 9 + i)) ++ [0]
    localAPIC := wordAt m (findMADT m + 36)
    madtFlags := wordAt m (findMADT m + 40) }

/-- `configInit`, the loop making at most `fuel` rounds. -/
def configInit (fuel : Nat) (mem : MemInfo) (m : Mem) (config : Config) : Option Config := do
  let above ← memAbove1M mem
  let s ← Loops.run (round m) fuel (startScan m (findMADT m) (beforeLoop above m config))
  return { s.config with totalProcs := u32 (s.config.nOtherProcs + 1) }

/-! ## What is noted -/

/-- Whether a record describes a processor other than the first. -/
def isProcessor (m : Mem) (entry : Nat) : Bool := entryType m entry == 0 && processorId m entry != 0

/-- What looking at a record changes of the configuration. -/
def note (m : Mem) (config : Config) (entry : Nat) : Config :=
  if isProcessor m entry then
    { config with
      nOtherProcs := u32 (config.nOtherProcs + 1)
      apicInfo := config.apicInfo.setIfInBounds config.nOtherProcs (apicInfo m entry) }
  else if entryType m entry = 1 then { config with ioAPIC := ioApicAddress m entry }
  else config

variable {m : Mem} {s : Scan} {config : Config} {q : Nat}

theorem isProcessor_iff : isProcessor m q = true ↔ entryType m q = 0 ∧ processorId m q ≠ 0 := by
  unfold isProcessor
  rw [Bool.and_eq_true, beq_iff_eq, bne_iff_ne]

theorem note_processor (h : isProcessor m q = true) :
    note m config q = { config with
      nOtherProcs := u32 (config.nOtherProcs + 1)
      apicInfo := config.apicInfo.setIfInBounds config.nOtherProcs (apicInfo m q) } := by
  rw [note, if_pos h]

/-- Only a processor adds to the array. -/
theorem note_other (config : Config) (h : isProcessor m q = false) :
    (note m config q).nOtherProcs = config.nOtherProcs ∧ (note m config q).apicInfo = config.apicInfo := by
  rw [note, if_neg (by rw [h]; exact Bool.false_ne_true)]
  split
  · exact ⟨rfl, rfl⟩
  · exact ⟨rfl, rfl⟩

/-- **One record**: what `examine` does to each part of the scan. -/
theorem examine_eq (m : Mem) (s : Scan) :
    ∃ reads, examine m s = { s with
      config := note m s.config s.entryPtr
      examined := s.examined ++ [s.entryPtr]
      reads := s.reads ++ (bytesFrom s.entryPtr 1 ++ reads)
      stores := s.stores ++ if isProcessor m s.entryPtr then [s.config.nOtherProcs] else [] } := by
  unfold examine
  simp only
  by_cases htype : entryType m s.entryPtr = 0
  · rw [if_pos htype]
    by_cases hid : processorId m s.entryPtr = 0
    · have hnot : isProcessor m s.entryPtr = false := by
        rw [← Bool.not_eq_true, isProcessor_iff]
        exact fun h => h.2 hid
      refine ⟨bytesFrom (s.entryPtr + 2) 1, ?_⟩
      rw [if_pos hid, note, hnot]
      simp [htype]
    · have hyes : isProcessor m s.entryPtr = true := isProcessor_iff.2 ⟨htype, hid⟩
      refine ⟨bytesFrom (s.entryPtr + 2) 1 ++ bytesFrom (s.entryPtr + 2) 6, ?_⟩
      rw [if_neg hid, note_processor hyes, hyes]
      simp
  · rw [if_neg htype]
    have hnot : isProcessor m s.entryPtr = false := by
      rw [← Bool.not_eq_true, isProcessor_iff]
      exact fun h => htype h.1
    by_cases hone : entryType m s.entryPtr = 1
    · refine ⟨bytesFrom (s.entryPtr + 4) 4, ?_⟩
      rw [if_pos hone, note, hnot]
      simp [hone]
    · refine ⟨[], ?_⟩
      rw [if_neg hone, note, hnot]
      simp [hone]

end BadApple.Boot
