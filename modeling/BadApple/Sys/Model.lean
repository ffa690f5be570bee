/-
  The system calls of a process (kernel/sys.cc).

  1. **State** — the process's PCB, the open files its descriptors refer to, its address space, the file
     system, and what the kernel's stack happens to hold.  A shared object is named by a number.
  2. **What is touched** — every element of a table of the PCB, and every access through a pointer that the
     user gave, is logged.  An access of a word is named by its first address.
  3. **Memory** — a page that is covered by an entry of the `VME`, or is mapped already, can be accessed;
     an access to any other ends the process (`vmm_pageFault` calls `exit`).
  4. **What does not come back** — a failed assertion, that of a null `StrongPtr` among them, `exit`,
     `shutdown`, the loading of a program over the process, a loop without end; and, since nothing can be
     said of what follows, the use of what lies behind the PCB as an open file.
  `wait` and `down` may block; that takes time only, so `wait` goes on with what the promise is kept with.
  What `up` and `down` do with the semaphore itself is in `Semaphore`.
-/
import BadApple.Lib.Effects
import BadApple.Lib.Memory
import BadApple.Fs.Find
import BadApple.Process.Model
import BadApple.Vme.Model

namespace BadApple

open Effects Memory

open Function (update)

namespace Sys

/-! ## State -/

/-- A `Node` as an open file has it: one of the file system, or one of the three for a terminal. -/
inductive FileNode where
  | ext2 (n : Nat)
  | stdin
  | stdout
  | stderr
deriving DecidableEq, Repr

/-- `OpenFile`. -/
structure OpenFile where
  node : Option FileNode
  offset : Nat

/-- What a system call of process `self` sees.  `stack i` is what the kernel's stack holds where the buffer
    for the `i`-th link of a path comes to lie, `behind` what lies behind the PCB in the heap, `mapped` the
    pages that need no page fault, and `kept` what promises are kept with. -/
structure Machine where
  self : Nat
  pcb : PCB
  files : Nat → OpenFile
  nextFile : Nat
  nextSem : Nat
  nextPromise : Nat
  nextProc : Nat
  forked : List PCB
  vme : VME FileNode
  sharedVme : VME FileNode
  mem : Mem
  mapped : Nat → Bool
  fs : FileSystem
  stack : Nat → Nat → UInt8
  behind : Nat → Option Nat
  kept : Nat → Nat

/-- The tables of a PCB. -/
inductive Table where
  | children
  | fdt
  | sdt
  | childrenPromises
deriving DecidableEq, Repr

/-- What a handler touches: an element of a table of the PCB, or memory through a pointer of the user's. -/
inductive Access where
  | table (t : Table) (i : Nat)
  | load (a : Nat)
  | store (a : Nat)
deriving DecidableEq, Repr

/-- Why a handler does not come back; `null` is the failed assertion of `StrongPtr::operator->`. -/
inductive Stop where
  | panic
  | null
  | exits
  | shutdown
  | runs (program : Nat) (args : List (List UInt8))
  | loops
  | wild
deriving DecidableEq, Repr

/-- A handler. -/
abbrev Handler (α : Type) : Type := Prog Access Stop Machine α

/-- `-1`, as a `uint32_t`. -/
def minusOne : Nat := 4294967295

/-! ## The tables of the PCB -/

/-- Element `i` of a table; what lies behind a table is the next member. -/
def Machine.element (m : Machine) : Table → Nat → Option Nat
  | .children, i => if i < pcbArrSize then m.pcb.children i else m.pcb.fdt (i - pcbArrSize)
  | .fdt, i => if i < pcbArrSize then m.pcb.fdt i else m.pcb.sdt (i - pcbArrSize)
  | .sdt, i => if i < pcbArrSize then m.pcb.sdt i else m.pcb.parentPromise
  | .childrenPromises, i => if i < pcbArrSize then m.pcb.childrenPromises i else m.behind i

/-- Write element `i` of a table. -/
def Machine.setElement (m : Machine) (i : Nat) (v : Option Nat) : Table → Machine
  | .children => { m with pcb := { m.pcb with children := update m.pcb.children i v } }
  | .fdt => { m with pcb := { m.pcb with fdt := update m.pcb.fdt i v } }
  | .sdt => { m with pcb := { m.pcb with sdt := update m.pcb.sdt i v } }
  | .childrenPromises => { m with pcb := { m.pcb with childrenPromises := update m.pcb.childrenPromises i v } }

/-- Read `me->pcb->table[i]`. -/
def index (t : Table) (i : Nat) : Handler (Option Nat) := do
  touch (.table t i)
  let m ← getState
  pure (m.element t i)

/-- Write `me->pcb->table[i]`. -/
def setIndex (t : Table) (i : Nat) (v : Option Nat) : Handler Unit := do
  touch (.table t i)
  modify fun m => m.setElement i v t

/-! ## The user's memory -/

/-- Whether an access to `a` succeeds, if need be after a page fault. -/
def Machine.covered (m : Machine) (a : Nat) : Bool :=
  m.mapped a ||
    if 0xF0000000 ≤ a then (m.sharedVme.get a).isSome
    else if 0x80000000 ≤ a then (m.vme.get a).isSome
    else false

/-- Read a character. -/
def loadByte (a : Nat) : Handler UInt8 := do
  touch (.load a)
  let m ← getState
  if m.covered a then pure (m.mem a) else stop .exits

/-- Read a word. -/
def loadWord (a : Nat) : Handler Nat := do
  touch (.load a)
  let m ← getState
  if m.covered a ∧ m.covered (a + 3) then pure (word m.mem a) else stop .exits

/-- Write a word. -/
def storeWord (a w : Nat) : Handler Unit := do
  touch (.store a)
  let m ← getState
  if m.covered a ∧ m.covered (a + 3) then modify fun m => { m with mem := setWord m.mem a w }
  else stop .exits

/-- Read a C string, up to its NUL. -/
def loadString : (fuel : Nat) → (a : Nat) → Handler (List UInt8)
  | 0, _ => stop .loops
  | fuel + 1, a => do
    let c ← loadByte a
    if c = 0 then pure []
    else do
      let rest ← loadString fuel (u32 (a + 1))
      pure (c :: rest)

/-- Read the C string at `p`; indices are 32-bit words. -/
def userString (p : Nat) : Handler (List UInt8) := loadString 4294967296 p

/-- Write bytes one after the other. -/
def storeBytes : (a : Nat) → List UInt8 → Handler Unit
  | _, [] => pure ()
  | a, b :: rest => do
    touch (.store a)
    let m ← getState
    if m.covered a then do
      modify fun m => { m with mem := update m.mem a b }
      storeBytes (u32 (a + 1)) rest
    else stop .exits

/-- Read bytes one after the other. -/
def loadBytes : (n : Nat) → (a : Nat) → Handler Unit
  | 0, _ => pure ()
  | n + 1, a => do
    let _ ← loadByte a
    loadBytes n (u32 (a + 1))

/-- `address_valid`. -/
def addressValid (addr size : Nat) : Bool := 0x80000000 ≤ addr && u32 (addr + size) ≤ 0xFFFFFFFF

/-! ## Files -/

/-- `fs->find(dir, name)`. -/
def find (dir : Nat) (name : List UInt8) : Handler (Option Nat) := do
  let m ← getState
  match m.fs.find m.stack dir name with
  | .node n => pure (some n)
  | .null => pure none
  | .stops => stop .panic

/-- `StrongPtr<OpenFile>::make(node)`. -/
def newOpenFile (node : Option FileNode) : Handler Nat := do
  let m ← getState
  modify fun m => { m with files := update m.files m.nextFile ⟨node, 0⟩, nextFile := m.nextFile + 1 }
  pure m.nextFile

/-- Set the offset of an open file. -/
def setOffset (r offset : Nat) : Handler Unit :=
  modify fun m => { m with files := update m.files r { m.files r with offset := offset } }

/-- `node->read_all(offset, n, buf)`: it fills the buffer and returns how many bytes it read, or -1. -/
def readAll (node : FileNode) (offset n buf : Nat) : Handler Nat := do
  let m ← getState
  match node with
  | .ext2 i => do
    let io := (m.fs.node i).io
    storeBytes buf (io.readAll offset n)
    pure ((io.readAllCount offset n 0).getD minusOne)
  | _ => pure 0

/-- `node->write(offset, n, buf)`. -/
def writeNode (node : FileNode) (n buf : Nat) : Handler Nat :=
  match node with
  | .stdout | .stderr => do
    loadBytes n buf
    pure n
  | _ => pure minusOne

/-- `node->size_in_bytes()`. -/
def sizeInBytes (node : FileNode) : Handler Nat := do
  let m ← getState
  match node with
  | .ext2 i => pure (m.fs.node i).sizeInBytes
  | _ => pure 0

/-! ## Handlers -/

/-- `read`. -/
def read (fd buf nbyte : Nat) : Handler Nat :=
  if !addressValid buf nbyte || fd ≥ pcbArrSize then pure minusOne
  else do
    match ← index .fdt fd with
    | none => pure minusOne
    | some r => do
      let m ← getState
      match (m.files r).node with
      | none => pure minusOne
      | some node => do
        let bytesRead ← readAll node (m.files r).offset nbyte buf
        setOffset r (u32 ((m.files r).offset + bytesRead))
        pure bytesRead

/-- `write`; `nbyte` is an `int32_t`. -/
def write (fd buf nbyte : Nat) : Handler Nat :=
  if nbyte ≥ 0x80000000 || !addressValid buf nbyte || fd ≥ pcbArrSize then pure minusOne
  else do
    match ← index .fdt fd with
    | none => pure minusOne
    | some r => do
      let m ← getState
      match (m.files r).node with
      | none => pure minusOne
      | some node => do
        let bytesWritten ← writeNode node nbyte buf
        setOffset r (u32 ((m.files r).offset + bytesWritten))
        pure bytesWritten

/-- The loop of `open` over the descriptors, `fuel` of which are left. -/
def openLoop (file : Nat) : (fuel : Nat) → (i : Nat) → Handler Nat
  | 0, _ => pure minusOne
  | fuel + 1, i => do
    match ← index .fdt i with
    | none => do
      setIndex .fdt i (some file)
      pure i
    | some _ => openLoop file fuel (i + 1)

/-- `open`. -/
def open_ (path : Nat) : Handler Nat := do
  let m ← getState
  let cwd := m.pcb.cwd.getD m.fs.root
  modify fun m => { m with pcb := { m.pcb with cwd := some cwd } }
  let name ← userString path
  let newNode ← find cwd name
  let newFile ← newOpenFile (newNode.map .ext2)
  openLoop newFile pcbArrSize 0

/-- `len`. -/
def len (fd : Nat) : Handler Nat :=
  if fd ≥ pcbArrSize then pure minusOne
  else do
    match ← index .fdt fd with
    | none => pure minusOne
    | some r => do
      let m ← getState
      match (m.files r).node with
      | none => stop .null
      | some node => sizeInBytes node

/-- `close`. -/
def close (fd : Nat) : Handler Nat :=
  if fd < pcbArrSize then do
    setIndex .fdt fd none
    pure 0
  else if fd < pcbArrSize * 2 then do
    setIndex .sdt (fd - pcbArrSize) none
    pure 0
  else if fd < pcbArrSize * 3 then do
    setIndex .children (fd - pcbArrSize * 2) none
    setIndex .childrenPromises (fd - pcbArrSize * 2) none
    pure 0
  else pure minusOne

/-- `seek`. -/
def seek (fd offset : Nat) : Handler Nat :=
  if fd ≥ pcbArrSize then pure minusOne
  else do
    match ← index .fdt fd with
    | none => pure minusOne
    | some r => do
      setOffset r offset
      pure offset

/-- The loop of `PCB::duplicate` over the children, `fuel` of which are left. -/
def childLoop : (fuel : Nat) → (childIdx : Nat) → Handler Nat
  | 0, childIdx => pure childIdx
  | fuel + 1, childIdx => do
    match ← index .children pcbArrSize with
    | none => childLoop fuel (childIdx + 1)
    | some _ => pure childIdx

/-- `child_pcb->table[i] = parent_pcb->table[i]` for `n` indices from `i` on. -/
def copyLoop (t : Table) : (n : Nat) → (i : Nat) → Handler Unit
  | 0, _ => pure ()
  | n + 1, i => do
    let _ ← index t i
    copyLoop t n (i + 1)

/-- `fork`, as far as the parent is concerned; `forked` gets the PCB of the child. -/
def fork : Handler Nat := do
  let childIdx ← childLoop pcbArrSize 0
  let m ← getState
  setIndex .children childIdx (some m.nextProc)
  if childIdx < pcbArrSize then do
    copyLoop .fdt pcbArrSize 0
    copyLoop .sdt pcbArrSize 0
    setIndex .childrenPromises childIdx (some m.nextPromise)
    let promise ← index .childrenPromises childIdx
    let child := PCB.make childIdx m.nextFile
    modify fun m => { m with
      nextProc := m.nextProc + 1
      nextPromise := m.nextPromise + 1
      nextFile := m.nextFile + 3
      forked := m.forked ++ [{ child with
        cwd := m.pcb.cwd
        parent := some m.self
        fdt := PCB.copyTable m.pcb.fdt child.fdt
        sdt := PCB.copyTable m.pcb.sdt child.sdt
        parentPromise := promise }] }
    pure (childIdx + pcbArrSize * 2)
  else stop .panic

/-- The loop of `execl` that checks the arguments: how many there are, or `none` if one is invalid. -/
def checkArgs (argv : Nat) : (fuel : Nat) → (argc : Nat) → Handler (Option Nat)
  | 0, _ => stop .loops
  | fuel + 1, argc => do
    let arg ← loadWord (u32 (argv + 4 * argc))
    if arg = 0 then pure (some argc)
    else if arg < 0x80000000 then pure none
    else do
      let str ← userString arg
      if u32 (arg + str.length) ≥ 0xF0000000 then pure none else checkArgs argv fuel (argc + 1)

/-- The loop of `execl` that copies the arguments, `n` of which are left. -/
def copyArgs (argv : Nat) : (n : Nat) → (i : Nat) → Handler (List (List UInt8))
  | 0, _ => pure []
  | n + 1, i => do
    let arg ← loadWord (u32 (argv + 4 * i))
    let str ← userString arg
    loadBytes (str.length + 1) arg
    let rest ← copyArgs argv n (i + 1)
    pure (str :: rest)

/-- `execl`, up to where it clears the address space. -/
def execl (path argv : Nat) : Handler Nat := do
  let m ← getState
  let name ← userString path
  match ← find (m.pcb.cwd.getD m.fs.root) name with
  | none => pure minusOne
  | some newProgram => do
    match ← checkArgs argv 4294967296 0 with
    | none => pure minusOne
    | some argc => do
      let args ← copyArgs argv argc 0
      stop (.runs newProgram args)

/-- `exit`. -/
def exit : Handler Nat := stop .exits

/-- `wait`. -/
def wait (id status : Nat) : Handler Nat :=
  if id ≥ pcbArrSize then pure minusOne
  else do
    match ← index .childrenPromises id with
    | none => pure minusOne
    | some promise => do
      let _ ← index .childrenPromises id
      let m ← getState
      storeWord status (m.kept promise)
      setIndex .childrenPromises id none
      setIndex .children id none
      pure 0

/-- `chdir`. -/
def chdir (path : Nat) : Handler Nat := do
  let m ← getState
  let name ← userString path
  match ← find (m.pcb.cwd.getD m.fs.root) name with
  | none => pure minusOne
  | some newNode => do
    modify fun m => { m with pcb := { m.pcb with cwd := some newNode } }
    pure 0

/-- The loop of `sem`, `fuel` being the distance of `id` from the bound. -/
def semLoop : (fuel : Nat) → (id : Nat) → Handler Nat
  | 0, id => do
    let _ ← index .sdt id
    pure id
  | fuel + 1, id => do
    match ← index .sdt id with
    | none => pure id
    | some _ => semLoop fuel (id + 1)

/-- `sem`. -/
def sem : Handler Nat := do
  let id ← semLoop pcbArrSize 0
  if id = pcbArrSize then pure minusOne
  else do
    let m ← getState
    modify fun m => { m with nextSem := m.nextSem + 1 }
    setIndex .sdt id (some m.nextSem)
    pure (id + pcbArrSize)

/-- `up` and `down`, up to where they use the semaphore. -/
def useSem (id : Nat) : Handler Nat :=
  if id ≥ pcbArrSize then pure minusOne
  else do
    match ← index .sdt id with
    | none => pure minusOne
    | some _ => do
      let _ ← index .sdt id
      pure 0

/-- `up`. -/
def up (id : Nat) : Handler Nat := useSem id

/-- `down`. -/
def down (id : Nat) : Handler Nat := useSem id

/-- `naive_mmap`. -/
def naiveMmap (size : Nat) (isShared : Bool) (file offset : Nat) : Handler Nat := do
  let openFile ← index .fdt file
  if file < pcbArrSize then do
    let m ← getState
    let node := openFile.bind fun r => (m.files r).node
    if isShared then do
      modify fun m => { m with sharedVme := (m.sharedVme.addEntry size node offset true).2 }
      pure (m.sharedVme.addEntry size node offset true).1
    else do
      modify fun m => { m with vme := (m.vme.addEntry size node offset true).2 }
      pure (m.vme.addEntry size node offset true).1
  else stop .wild

/-- `naive_unmap`; an entry that is removed takes its pages with it. -/
def naiveUnmap (p : Nat) : Handler Unit :=
  if p < 0xF0000000 then
    modify fun m =>
      match m.vme.removeEntry p true with
      | (none, vme) => { m with vme := vme }
      | (some e, vme) => { m with vme := vme, mapped := fun a => m.mapped a && !VME.covers a e }
  else pure ()

/-! ## The handler of interrupt 48 -/

/-- A system call with its arguments. -/
inductive Call where
  | exit
  | write (fd buf nbyte : Nat)
  | fork
  | sem
  | up (id : Nat)
  | down (id : Nat)
  | close (fd : Nat)
  | shutdown
  | wait (id status : Nat)
  | execl (path argv : Nat)
  | open_ (path : Nat)
  | len (fd : Nat)
  | read (fd buf nbyte : Nat)
  | seek (fd offset : Nat)
  | chdir (path : Nat)
  | naiveMmap (size : Nat) (isShared : Bool) (file offset : Nat)
  | naiveUnmap (p : Nat)
  | vga
  | unknown
deriving DecidableEq, Repr

/-- `-`, on words. -/
def sub (x y : Nat) : Nat := u32 (x + 4294967296 - y)

/-- The arguments on the user's stack. -/
def fetch (eax userSp : Nat) : Handler Call :=
  let arg (k : Nat) := loadWord (userSp + 4 * k)
  match eax with
  | 0 => do
    let _ ← arg 1
    pure .exit
  | 1 => return .write (← arg 1) (← arg 2) (← arg 3)
  | 2 => pure .fork
  | 3 => do
    let _ ← arg 1
    pure .sem
  | 4 => return .up (sub (← arg 1) pcbArrSize)
  | 5 => return .down (sub (← arg 1) pcbArrSize)
  | 6 => return .close (← arg 1)
  | 7 => pure .shutdown
  | 8 => return .wait (sub (← arg 1) (pcbArrSize * 2)) (← arg 2)
  | 9 => return .execl (← arg 1) (userSp + 8)
  | 10 => return .open_ (← arg 1)
  | 11 => return .len (← arg 1)
  | 12 => return .read (← arg 1) (← arg 2) (← arg 3)
  | 13 => return .seek (← arg 1) (← arg 2)
  | 100 => return .chdir (← arg 1)
  | 101 => return .naiveMmap (← arg 1) ((← arg 2) ≠ 0) (← arg 3) (← arg 4)
  | 102 => return .naiveUnmap (← arg 1)
  | 103 => pure .vga
  | _ => pure .unknown

/-- What a system call does. -/
def handle : Call → Handler Nat
  | .exit => exit
  | .write fd buf nbyte => write fd buf nbyte
  | .fork => fork
  | .sem => sem
  | .up id => up id
  | .down id => down id
  | .close fd => close fd
  | .shutdown => stop .shutdown
  | .wait id status => wait id status
  | .execl path argv => execl path argv
  | .open_ path => open_ path
  | .len fd => len fd
  | .read fd buf nbyte => read fd buf nbyte
  | .seek fd offset => seek fd offset
  | .chdir path => chdir path
  | .naiveMmap size isShared file offset => naiveMmap size isShared file offset
  | .naiveUnmap p => do
    naiveUnmap p
    pure 0
  | .vga => pure 0
  | .unknown => pure minusOne

/-- `sysHandler`. -/
def sysHandler (eax userSp : Nat) : Handler Nat :=
  if userSp < 0x80000000 ∨ userSp ≥ 0xF0000000 then exit
  else do
    let call ← fetch eax userSp
    handle call

end Sys

end BadApple
