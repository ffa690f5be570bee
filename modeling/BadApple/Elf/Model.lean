/-
  `ELF::load` — putting a program into an address space (kernel/elf.h, kernel/elf.cc).

  1. **Headers** — `ElfHeader` and `ProgramHeader` are the fields that are used, from their bytes in the
     file.  `file->read` asserts that all bytes of a header are there.
  2. **Loading** — for each header of a segment to load, `load` asks the address space for room, twice and
     without looking at what it gets, copies the bytes of the file to where the header says, and zeroes
     what comes after them.  A page that has no room ends the process when it is written to.
  3. **The headers of a file** — `header` and `programHeader`, and the loop as a walk over these.
-/
import BadApple.Fs.Ext2
import BadApple.Sys.Model

namespace BadApple

open Effects

namespace Elf

/-! ## Headers -/

/-- The number in the `n` bytes from `i` on. -/
def field (bytes : List UInt8) (i n : Nat) : Nat := littleEndian ((bytes.drop i).take n)

/-- `ElfHeader`. -/
structure ElfHeader where
  magic : List UInt8
  entry : Nat
  phoff : Nat
  phentsize : Nat
  phnum : Nat
deriving DecidableEq, Repr

/-- `sizeof(ElfHeader)`. -/
def elfHeaderSize : Nat := 52

def ElfHeader.ofBytes (bytes : List UInt8) : ElfHeader where
  magic := bytes.take 4
  entry := field bytes 24 4
  phoff := field bytes 28 4
  phentsize := field bytes 42 2
  phnum := field bytes 44 2

/-- `0x7f`, `'E'`, `'L'`, `'F'`. -/
def elfMagic : List UInt8 := [0x7f, 0x45, 0x4c, 0x46]

/-- `ProgramHeader`. -/
structure ProgramHeader where
  type : Nat
  offset : Nat
  vaddr : Nat
  filesz : Nat
  memsz : Nat
deriving DecidableEq, Repr

/-- `sizeof(ProgramHeader)`. -/
def programHeaderSize : Nat := 32

def ProgramHeader.ofBytes (bytes : List UInt8) : ProgramHeader where
  type := field bytes 0 4
  offset := field bytes 4 4
  vaddr := field bytes 8 4
  filesz := field bytes 16 4
  memsz := field bytes 20 4

/-! ## Loading -/

/-- `VMM::naive_mmap(size, false, {}, 0, false)`, whose result is not looked at. -/
def mmap (size : Nat) : Sys.Handler Unit :=
  modify fun m => { m with vme := (m.vme.addEntry size none 0 false).2 }

/-- `bzero(dest, n)` in the address space. -/
def bzero (dest n : Nat) : Sys.Handler Unit := Sys.storeBytes dest (List.replicate (Machine.rounds n) 0)

/-- The address check of a segment. -/
def ProgramHeader.rejected (ph : ProgramHeader) : Bool :=
  ph.vaddr < 0x80000000 || u32 (ph.vaddr + ph.memsz) ≥ 0xF0000000

/-- The body of the loop, for one header. -/
def loadSegment (io : BlockIo) (phdr : ProgramHeader) : Sys.Handler Unit :=
  if phdr.type = 1 then
    if phdr.rejected then stop .panic
    else do
      if phdr.vaddr > 0x80000000 then mmap (phdr.vaddr - 0x80000000)
      mmap phdr.memsz
      Sys.storeBytes phdr.vaddr (io.readAll phdr.offset phdr.filesz)
      bzero (u32 (phdr.vaddr + phdr.filesz)) (Sys.sub phdr.memsz phdr.filesz)
  else pure ()

/-- The loop over the headers, `n` of which are left. -/
def loadSegments (io : BlockIo) (phentsize : Nat) : (n : Nat) → (hoff : Nat) → Sys.Handler Unit
  | 0, _ => pure ()
  | n + 1, hoff =>
    match io.readThing hoff programHeaderSize with
    | none => stop .panic
    | some bytes => do
      loadSegment io (ProgramHeader.ofBytes bytes)
      loadSegments io phentsize n (u32 (hoff + phentsize))

/-- `ELF::load`. -/
def load (file : Nat) : Sys.Handler Nat := do
  let m ← getState
  let io := (m.fs.node file).io
  match io.readThing 0 elfHeaderSize with
  | none => stop .panic
  | some bytes =>
    let hdr := ElfHeader.ofBytes bytes
    if hdr.magic ≠ elfMagic then stop .panic
    else do
      loadSegments io hdr.phentsize hdr.phnum hdr.phoff
      pure hdr.entry

/-! ## The headers of a file -/

/-- The header of a file, if it has one. -/
def header (io : BlockIo) : Option ElfHeader :=
  ((io.readThing 0 elfHeaderSize).map ElfHeader.ofBytes).filter fun hdr => hdr.magic = elfMagic

/-- Where program header `i` is. -/
def ElfHeader.at (hdr : ElfHeader) (i : Nat) : Nat := u32 (hdr.phoff + i * hdr.phentsize)

/-- Program header `i`, if it is there. -/
def programHeader (io : BlockIo) (hdr : ElfHeader) (i : Nat) : Option ProgramHeader :=
  (io.readThing (hdr.at i) programHeaderSize).map ProgramHeader.ofBytes

variable {io : BlockIo} {hdr : ElfHeader} {ph : ProgramHeader} {m : Sys.Machine} {file : Nat}

theorem header_eq (hbs : 0 < io.blockSize) (hin : elfHeaderSize ≤ io.sizeInBytes) :
    header io = (some (ElfHeader.ofBytes (io.bytesFrom 0 elfHeaderSize))).filter fun hdr =>
      hdr.magic = elfMagic := by
  rw [header, BlockIo.readThing_eq hbs (by omega)]
  rfl

theorem programHeader_eq (hbs : 0 < io.blockSize) {i : Nat}
    (hin : hdr.at i + programHeaderSize ≤ io.sizeInBytes) :
    programHeader io hdr i = some (ProgramHeader.ofBytes (io.bytesFrom (hdr.at i) programHeaderSize)) := by
  rw [programHeader, BlockIo.readThing_eq hbs hin]
  rfl

theorem field_lt (bytes : List UInt8) (i : Nat) : field bytes i 4 < 4294967296 :=
  littleEndian_lt (List.length_take_le 4 (bytes.drop i))

/-- The loop starts at the first header, -/
theorem at_zero (hvalid : header io = some hdr) : hdr.at 0 = hdr.phoff := by
  obtain ⟨hmap, -⟩ := Option.filter_eq_some_iff.1 hvalid
  obtain ⟨bytes, -, rfl⟩ := Option.map_eq_some_iff.1 hmap
  unfold ElfHeader.at
  rw [Nat.zero_mul, Nat.add_zero]
  exact u32_of_lt (field_lt bytes 28)

/-- and each round goes on to the next. -/
theorem at_succ (hdr : ElfHeader) (i : Nat) : u32 (hdr.at i + hdr.phentsize) = hdr.at (i + 1) := by
  unfold ElfHeader.at
  rw [u32_add, Nat.succ_mul, Nat.add_assoc]

/-- `load`, of a file with a header, -/
theorem load_eq (hvalid : header (m.fs.node file).io = some hdr) :
    load file m = (loadSegments (m.fs.node file).io hdr.phentsize hdr.phnum (hdr.at 0) >>= fun _ =>
      pure hdr.entry) m := by
  rw [at_zero hvalid]
  obtain ⟨hmap, hmagic⟩ := Option.filter_eq_some_iff.1 hvalid
  obtain ⟨bytes, hread, rfl⟩ := Option.map_eq_some_iff.1 hmap
  unfold load
  rw [bind_run, getState_run, andThen_ok]
  simp only [hread, List.nil_append]
  rw [if_neg (not_not.2 (of_decide_eq_true hmagic))]

/-- and of one without. -/
theorem load_invalid (hinvalid : header (m.fs.node file).io = none) :
    load file m = ⟨[], .error .panic, m⟩ := by
  unfold load
  rw [bind_run, getState_run, andThen_ok]
  cases hread : (m.fs.node file).io.readThing 0 elfHeaderSize with
  | none => rfl
  | some bytes =>
    rw [header, hread, Option.map_some, Option.filter_some] at hinvalid
    by_cases hmagic : (ElfHeader.ofBytes bytes).magic = elfMagic
    · rw [if_pos (decide_eq_true hmagic)] at hinvalid
      cases hinvalid
    · simp only
      rw [if_pos hmagic]
      rfl

/-- A header of another type is passed over, -/
theorem loadSegment_skip (h : ph.type ≠ 1) : loadSegment io ph = pure () := by
  unfold loadSegment
  rw [if_neg h]

/-- and one that fails the check is the end. -/
theorem loadSegment_rejected (hload : ph.type = 1) (h : ph.rejected = true) :
    loadSegment io ph = stop .panic := by
  unfold loadSegment
  rw [if_pos hload, if_pos h]

/-- A round of the loop, -/
theorem loadSegments_succ {i : Nat} (h : programHeader io hdr i = some ph) (n : Nat) :
    loadSegments io hdr.phentsize (n + 1) (hdr.at i) = loadSegment io ph >>= fun _ =>
      loadSegments io hdr.phentsize n (hdr.at (i + 1)) := by
  obtain ⟨bytes, hread, rfl⟩ := Option.map_eq_some_iff.1 h
  rw [loadSegments, hread, ← at_succ]

/-- and one for which no header is there. -/
theorem loadSegments_none {i : Nat} (h : programHeader io hdr i = none) (n : Nat) :
    loadSegments io hdr.phentsize (n + 1) (hdr.at i) = stop .panic := by
  rw [loadSegments, Option.map_eq_none_iff.1 h]

end Elf

end BadApple
