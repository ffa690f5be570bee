/-
  Page directories, page tables, page faults, and what becomes of them when threads fork and die
  (kernel/vmm.cc, kernel/vme.cc, kernel/threads.cc, kernel/sys.cc).

  1. **Tables** — a directory or a table is a frame of 1024 words.  Pointers to them are physical
     addresses: kernel addresses are mapped to themselves.  There is no TLB, so `invlpg` does nothing.
  2. **Entries** — an entry is a frame address with flags in its low 12 bits; bit 0 says that it is
     present.
  3. **Threads** — a `TCB` has the directory and the `VME` of its thread.  `CR3` is the directory of the
     thread that is running.
-/
import BadApple.Fs.BlockIo
import BadApple.Vmm.PhysMem
import BadApple.Vme.Model

namespace BadApple

open Memory

/-! ## Entries -/

/-- `w & 0x1`. -/
def present (w : Nat) : Prop := w % 2 = 1

instance (w : Nat) : Decidable (present w) := inferInstanceAs (Decidable (_ = _))

/-- `w & ~0xFFF`, which is also `(w >> 12) << 12`. -/
def frameOf (w : Nat) : Nat := w / frameSize * frameSize

/-- `w & 0xFFF`. -/
def flagsOf (w : Nat) : Nat := w % frameSize

/-- The bits that the flags of `add_mapping` set, with the present bit. -/
def flagBits (global write userMode : Bool) : Nat :=
  0x1 ||| (if global then 0x100 else 0) ||| (if write then 0x2 else 0) ||| (if userMode then 0x4 else 0)

/-- Entry `k` of the table at `f`. -/
def entry (mem : Mem) (f k : Nat) : Nat := word mem (f + 4 * k)

namespace PhysMem

/-- Write entry `k` of the table at `f`. -/
def setEntry (m : PhysMem) (f k w : Nat) : PhysMem := { m with mem := setWord m.mem (f + 4 * k) w }

/-! ## Mappings -/

/-- `check_VPN`. -/
def checkVPN (m : PhysMem) (pd vpn : Nat) : Bool :=
  let pde := entry m.mem pd (vpn / 1024)
  if present pde then decide (present (entry m.mem (frameOf pde) (vpn % 1024))) else false

/-- `add_PT_mapping`. -/
def addPTMapping (m : PhysMem) (pd pdi : Nat) (global write userMode : Bool) : Option PhysMem :=
  if present (entry m.mem pd pdi) then some m
  else m.allocFrame.map fun (pt, m) =>
    m.setEntry pd pdi (flagsOf (entry m.mem pd pdi ||| flagBits global write userMode) ||| pt)

/-- `add_mapping`. -/
def addMapping (m : PhysMem) (pd vpn ppn : Nat) (global write userMode : Bool) : Option PhysMem :=
  let pdi := vpn / 1024
  let pti := vpn % 1024
  let pde := entry m.mem pd pdi
  let table : Option (Nat × PhysMem) :=
    if present pde then some (frameOf pde, m)
    else m.allocFrame.map fun (pt, m) =>
      (pt, m.setEntry pd pdi (flagsOf (entry m.mem pd pdi ||| flagBits global write userMode) ||| pt))
  table.map fun (pt, m) => m.setEntry pt pti (flagBits global write userMode ||| u32 (ppn * frameSize))

/-- `remove_mapping`. -/
def removeMapping (m : PhysMem) (pd vpn : Nat) : Option PhysMem :=
  if pd = 0 then none
  else
    let pde := entry m.mem pd (vpn / 1024)
    if present pde then
      let pt := frameOf pde
      let pte := entry m.mem pt (vpn % 1024)
      let freed := if present pte then m.deallocFrame (frameOf pte) else some m
      freed.map fun m => m.setEntry pt (vpn % 1024) 0
    else some m

/-- `remove_PT_mapping`. -/
def removePTMapping (m : PhysMem) (pd pdi : Nat) : Option PhysMem :=
  let pde := entry m.mem pd pdi
  if present pde then (m.deallocFrame (frameOf pde)).map fun m => m.setEntry pd pdi 0
  else some m

/-- The first and the number of directory entries of the user range `[0x80000000, 0xF0000000)`. -/
def userPDI : Nat := 0x80000000 / 0x400000
def userPDIs : Nat := 0xF0000000 / 0x400000 - userPDI

/-- `new_page_directory`: the new directory. -/
def newPageDirectory (m : PhysMem) (globalPageDirectory : Nat) : Option (Nat × PhysMem) := do
  let (tmp, m) ← m.allocFrame
  some (tmp, { m with mem := Memory.memcpy m.mem tmp globalPageDirectory frameSize })

/-- The body of the inner loop of `copy_page_directory`: entry `y` of `pt`. -/
def copyPage (pt newPt : Nat) (m : PhysMem) (y : Nat) : Option PhysMem :=
  let pte := entry m.mem pt y
  if present pte then do
    let (newPa, m) ← m.allocFrame
    let m := m.setEntry newPt y (flagsOf pte ||| newPa)
    some { m with mem := Memory.memcpy m.mem newPa (frameOf pte) frameSize }
  else some m

/-- The body of the outer loop of `copy_page_directory`: entry `i` of `pd`. -/
def copyTable (pd newPd : Nat) (m : PhysMem) (i : Nat) : Option PhysMem :=
  let pde := entry m.mem pd i
  if present pde then do
    let (newPt, m) ← m.allocFrame
    let m := m.setEntry newPd i (flagsOf pde ||| newPt)
    (List.range 1024).foldlM (copyPage (frameOf pde) newPt) m
  else some m

/-- `copy_page_directory`. -/
def copyPageDirectory (m : PhysMem) (pd newPd : Nat) : Option PhysMem :=
  (List.range' userPDI userPDIs).foldlM (copyTable pd newPd) m

end PhysMem

/-! ## Page faults -/

/-- The bytes that `vmm_pageFault` reads into the new page for `va`, from the file of the entry. -/
def VMEEntry.pageBytes (e : VMEEntry BlockIo) (va : Nat) : List UInt8 :=
  match e.file with
  | none => []
  | some file =>
    let pageStart := va / frameSize * frameSize
    let pageOffset := u32 (pageStart + 4294967296 - e.start)
    let size := u32 (e.size + 4294967296 - pageOffset)
    file.readAll (u32 (e.fileOffset + pageOffset)) (if frameSize < size then frameSize else size)

/-- `vmm_pageFault`; `none` when the thread exits, or when there are no more frames. -/
def PhysMem.pageFault (m : PhysMem) (cr3 : Nat) (vme shared : VME BlockIo) (va : Nat) :
    Option PhysMem :=
  if 0xF0000000 ≤ va ∧ m.checkVPN cr3 (va / frameSize) = true then some m
  else
    let vmeEntry := if 0xF0000000 ≤ va then shared.get va
      else if 0x80000000 ≤ va then vme.get va else none
    match vmeEntry with
    | none => none
    | some e => do
      let (newPage, m) ← m.allocFrame
      let m ← m.addMapping cr3 (va / frameSize) (newPage / frameSize) false true true
      some { m with mem := store m.mem newPage (e.pageBytes va) }

/-! ## Threads -/

/-- What a `TCB` has of its thread's address space. -/
structure TCB where
  pd : Nat
  vme : VME BlockIo

/-- `VMEEntry::~VMEEntry`. -/
def PhysMem.destroyEntry (cr3 : Nat) (m : PhysMem) (e : VMEEntry BlockIo) : Option PhysMem :=
  (List.range e.numPages).foldlM
    (fun m i => m.removeMapping cr3 (u32 (e.start + u32 (i * frameSize)) / frameSize)) m

/-- `TCB::~TCB`.  Dropping the `VME` destroys its entries, from the first to the last. -/
def TCB.destroy (t : TCB) (m : PhysMem) (cr3 : Nat) : Option PhysMem := do
  let m ← t.vme.entries.foldlM (PhysMem.destroyEntry cr3) m
  let m ← (List.range' PhysMem.userPDI PhysMem.userPDIs).foldlM (fun m i => m.removePTMapping t.pd i) m
  m.deallocFrame t.pd

/-- The address-space steps of `fork`: the child's directory and `VME`. -/
def TCB.fork (parent : TCB) (m : PhysMem) (globalPageDirectory : Nat) : Option (TCB × PhysMem) := do
  let (childPd, m) ← m.newPageDirectory globalPageDirectory
  let m ← m.copyPageDirectory parent.pd childPd
  some (⟨childPd, parent.vme.duplicate⟩, m)

end BadApple
