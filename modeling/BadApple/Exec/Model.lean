/-
  `execl` — replacing the program of a process (kernel/sys.cc).

  1. **The kernel** — what a call needs of it beside the process: room on its stack for `k_argv` and `length`,
     blocks of its heap for the copies of the arguments, a frame for each page that is used for the first
     time, and what the lookup and the loading of the program use themselves.
  2. **Model** — `prepare` looks up the program and copies the arguments into the kernel; `replace` clears the
     address space, loads the program and its arguments, and goes on in user mode.
  3. **Room** — the new address space hands out its range from the bottom upwards, so the requests made so
     far say where there is room; a request that would come to lie beyond the range is not granted, and
     nobody looks at that.
  4. **Specification** — `Replaced` and `Unchanged` are the two ways in which a call may end.
  5. **When** — `Answers`: there is no such program; or an argument is refused; or the file is a program all
     of which can be put where it belongs, and so can the arguments; and the kernel has what that takes.
-/
import BadApple.Elf.Writes
import BadApple.Heap.Model
import BadApple.Sys.Arguments
import BadApple.Sys.LoadArgs

namespace BadApple

open Effects Memory

open Gheith (Heap)

namespace Exec

open Sys (Handler Machine Access CString Looked StringAt WordAt bytesAt minusOne FileNode)
open Elf (ElfHeader ProgramHeader)

/-! ## The kernel -/

/-- What the kernel has for a call of `execl`: the words of the thread's stack that `k_argv` and `length` may
    take up; the heap when the first argument is copied; which of the pages that are not there can be brought
    in while `execl` reads, and which of those that it writes to get a frame, with a page table if need be
    (`alloc_frame` panics otherwise); and whether `find`, and the new `VME` and `ELF::load`, get the blocks of
    the heap and of files that they ask for. -/
structure Kernel where
  stackWords : Nat
  heap : Heap
  pages : Nat → Bool
  frames : Nat → Bool
  finds : Bool
  loads : Bool

/-- `new char[length]`; `none` when it panics. -/
def newChars (heap : Heap) (length : Nat) : Option Heap :=
  (heap.malloc length).bind fun r => if r.1 = 0 then none else some r.2

/-- The heap when all these strings are copied; `memcpy` copies nothing of one as long as 2³¹ bytes. -/
def copied (heap : Heap) : List (List UInt8) → Option Heap
  | [] => some heap
  | str :: rest =>
    (newChars heap (u32 (str.length + 1))).bind fun heap =>
      if 0x80000000 ≤ str.length + 1 then none else copied heap rest

/-- **There is room in the kernel for copies of the arguments.** -/
structure Kernel.Copies (k : Kernel) (args : List (List UInt8)) : Prop where
  array : args.length + 1 ≤ k.stackWords
  strings : (copied k.heap args).isSome

/-- The process as it can be read: a page that is not there and cannot be brought in is missing. -/
def within (m : Machine) (pages : Nat → Bool) : Machine :=
  { m with
    vme := { m.vme with entries := [] }
    sharedVme := { m.sharedVme with entries := [] }
    mapped := fun a => m.covered a && (m.mapped a || pages a) }

/-- A part of `execl` that reads the process, and changes nothing of it. -/
def Kernel.reading {α : Type} (k : Kernel) (p : Handler α) : Handler α := fun m =>
  ⟨(p (within m k.pages)).log, (p (within m k.pages)).result, m⟩

/-- A byte is written to a page that is there or gets a frame. -/
def Kernel.gets (k : Kernel) (mapped : Nat → Bool) : Access → Bool
  | .store a => mapped a || k.frames a
  | _ => true

/-- A part that writes: the first page that gets no frame is the end. -/
def Kernel.writing {α : Type} (k : Kernel) (p : Handler α) : Handler α := fun m =>
  limited (k.gets m.mapped) .panic p m

/-! ## Model -/

/-- How a call ends if it does: it returns, or goes on in user mode. -/
inductive Outcome where
  | returned (rc : Nat)
  | switched (pc esp : Nat)
deriving DecidableEq, Repr

/-- The loop that copies the arguments, `n` of which are left. -/
def copyArgs (argv : Nat) : (n : Nat) → (i : Nat) → (heap : Heap) → Handler (List (List UInt8))
  | 0, _, _ => pure []
  | n + 1, i, heap => do
    let arg ← Sys.loadWord (u32 (argv + 4 * i))
    let str ← Sys.userString arg
    match newChars heap (u32 (str.length + 1)) with
    | none => stop .panic
    | some heap =>
      -- a string that `memcpy` does not copy is whatever was in the block
      if 0x80000000 ≤ str.length + 1 then stop .wild
      else do
        Sys.loadBytes (str.length + 1) arg
        let rest ← copyArgs argv n (i + 1) heap
        pure (str :: rest)

/-- `execl`, before `CLEAR ADDR SPACE`: the program and the arguments, or `none` if it returns -1.  An array
    for which the stack has no room lies over the thread's own data. -/
def prepare (k : Kernel) (path argv : Nat) : Handler (Option (Nat × List (List UInt8))) := do
  let m ← getState
  let name ← Sys.userString path
  if k.finds then do
    match ← Sys.find (m.pcb.cwd.getD m.fs.root) name with
    | none => pure none
    | some newProgram => do
      match ← Sys.checkArgs argv 4294967296 0 with
      | none => pure none
      | some argc =>
        if k.stackWords < argc + 1 then stop .wild
        else do
          let kArgv ← copyArgs argv argc 0 k.heap
          pure (some (newProgram, kArgv))
  else stop .panic

/-- A page of the user's, that is not shared. -/
def isUser (a : Nat) : Bool := decide (0x80000000 ≤ a ∧ a < 0xF0000000)

/-- `CLEAR ADDR SPACE`, and the new `VME`. -/
def clearAddrSpace : Handler Unit :=
  modify fun m => { m with vme := Elf.freshVme, mapped := fun a => m.mapped a && !isUser a }

def stackSize : Nat := 134217728

/-- `VMM::naive_mmap(stack_size, false, {}, 0, false)`. -/
def mmapStack : Handler Nat := do
  let m ← getState
  modify fun m => { m with vme := (m.vme.addEntry stackSize none 0 false).2 }
  pure (m.vme.addEntry stackSize none 0 false).1

/-- Writes, one after the other. -/
def storeAll : List Write → Handler Unit
  | [] => pure ()
  | w :: ws => do
    Sys.storeBytes w.addr w.bytes
    storeAll ws

/-- `load_args`, in the address space. -/
def loadArgs (userEsp : Nat) (argv : List CString) : Handler Nat := do
  storeAll (Sys.loadArgs userEsp argv).2
  pure (Sys.loadArgs userEsp argv).1

/-- The C string in a buffer. -/
def cString (bytes : List UInt8) : CString :=
  ⟨bytes.takeWhile fun b => b ≠ 0, fun h => by simpa using List.all_eq_true.1 List.all_takeWhile 0 h⟩

/-- `execl`, from `ELF::load` on. -/
def start (k : Kernel) (newProgram : Nat) (kArgv : List (List UInt8)) : Handler Outcome := do
  let e ← Elf.load newProgram
  let stackStart ← mmapStack
  let userEsp := u32 (stackStart + stackSize - 16)
  -- `length[argc]` lies below `k_argv[argc + 1]` on the kernel's stack
  if k.stackWords < (kArgv.length + 1) + kArgv.length then stop .wild
  else do
    let userEsp ← loadArgs userEsp (kArgv.map cString)
    pure (.switched e userEsp)

/-- `execl`, from `CLEAR ADDR SPACE` on. -/
def replace (k : Kernel) (newProgram : Nat) (kArgv : List (List UInt8)) : Handler Outcome := do
  clearAddrSpace
  if k.loads then k.writing (start k newProgram kArgv) else stop .panic

/-- `execl`. -/
def execl (k : Kernel) (path argv : Nat) : Handler Outcome := do
  match ← k.reading (prepare k path argv) with
  | none => pure (.returned minusOne)
  | some p => replace k p.1 p.2

/-! ## Room -/

/-- Where the next request starts. -/
def grow (top size : Nat) : Nat :=
  if u32 (top + size) ≤ 0xF0000000 then u32 (top + u32 (4096 * VME.requiredPages size)) else top

/-- One of the requests, the first of which starts at `top`, covers an address. -/
def Covers : (top : Nat) → (sizes : List Nat) → (a : Nat) → Prop
  | _, [], _ => False
  | top, size :: sizes, a => (top ≤ a ∧ a < grow top size) ∨ Covers (grow top size) sizes a

/-- A page of the new address space is there, or gets a frame. -/
def Kernel.Backs (k : Kernel) (m : Machine) (a : Nat) : Prop :=
  (m.mapped a && !isUser a) = true ∨ k.frames a = true

/-- **An address above the kernel that can be written to** after these requests. -/
def Room (k : Kernel) (m : Machine) (sizes : List Nat) (a : Nat) : Prop :=
  0x80000000 ≤ a ∧ k.Backs m a ∧ if a < 0xF0000000 then Covers 0x80000000 sizes a else m.covered a = true

/-- What the segments of a program ask for. -/
def requests (phs : List ProgramHeader) : List Nat := phs.flatMap ProgramHeader.requests

/-- **Segments that can be put where they belong**, after some requests: each is accepted, and all that is
    written for it has room. -/
def Placeable (k : Kernel) (m : Machine) (size : Nat) : (sizes : List Nat) → (phs : List ProgramHeader) → Prop
  | _, [] => True
  | sizes, ph :: phs =>
    (ph.rejected = false ∧ ∀ i, ph.Writes size i → Room k m (sizes ++ ph.requests) (u32 (ph.vaddr + i))) ∧
      Placeable k m size (sizes ++ ph.requests) phs

/-- Where the stack ends when these requests were made before it. -/
def stackPointer (sizes : List Nat) : Nat :=
  u32 ((if u32 (sizes.foldl grow 0x80000000 + stackSize) ≤ 0xF0000000 then sizes.foldl grow 0x80000000
    else 0) + stackSize - 16)

/-- **A program that can be started** with these arguments: it has an ELF header and all of its program
    headers, its segments can be put where they belong, and there is room for what is written to the stack;
    and the kernel has what it takes to load it, and room for `length`. -/
structure Startable (k : Kernel) (m : Machine) (io : BlockIo) (hdr : ElfHeader) (phs : List ProgramHeader)
    (args : List (List UInt8)) : Prop where
  valid : Elf.header io = some hdr
  table : (List.range hdr.phnum).mapM (Elf.programHeader io hdr) = some phs
  segments : Placeable k m io.sizeInBytes [] (Elf.loadsOf phs)
  stack : ∀ w ∈ (Sys.loadArgs (stackPointer (requests (Elf.loadsOf phs))) (args.map cString)).2,
    ∀ a ∈ Sys.written w, Room k m (requests (Elf.loadsOf phs) ++ [stackSize]) a
  loads : k.loads = true
  array : (args.length + 1) + args.length ≤ k.stackWords

/-! ## Arguments -/

/-- Where `argv[i]` is. -/
def slot (argv i : Nat) : Nat := u32 (argv + 4 * i)

/-- `argv[i]`. -/
def pointer (m : Machine) (argv i : Nat) : Nat := word m.mem (slot argv i)

/-- Argument `i` is this string, and passes the check. -/
structure ArgIs (m : Machine) (argv i : Nat) (s : List UInt8) : Prop where
  there : WordAt m (slot argv i)
  user : 0x80000000 ≤ pointer m argv i
  string : StringAt m (pointer m argv i) s.length
  bytes : s = bytesAt m (pointer m argv i) s.length
  bound : u32 (pointer m argv i + s.length) < 0xF0000000

/-- Argument `i` fails the check. -/
structure ArgFails (m : Machine) (argv i : Nat) : Prop where
  there : WordAt m (slot argv i)
  notNull : pointer m argv i ≠ 0
  outside : pointer m argv i < 0x80000000 ∨
    ∃ n, StringAt m (pointer m argv i) n ∧ 0xF0000000 ≤ u32 (pointer m argv i + n)

/-- The arguments end here. -/
structure ArgsEnd (m : Machine) (argv i : Nat) : Prop where
  there : WordAt m (slot argv i)
  null : pointer m argv i = 0

/-- The first arguments are these. -/
def FirstArgs (m : Machine) (argv : Nat) (args : List (List UInt8)) : Prop :=
  ∀ i (h : i < args.length), ArgIs m argv i args[i]

/-- An argument is refused. -/
def Refused (m : Machine) (argv : Nat) : Prop :=
  ∃ args, FirstArgs m argv args ∧ ArgFails m argv args.length

/-- The arguments are these. -/
def Given (m : Machine) (argv : Nat) (args : List (List UInt8)) : Prop :=
  FirstArgs m argv args ∧ ArgsEnd m argv args.length

/-! ## Specification -/

/-- What memory and the file system say of a call. -/
def Found (m : Machine) (path argv : Nat) : Option (Nat × List (List UInt8)) → Prop
  | none => Looked m path .null ∨ ∃ program, Looked m path (.node program) ∧ Refused m argv
  | some p => Looked m path (.node p.1) ∧ Given m argv p.2

/-- **What is known before the address space is cleared**, if the kernel has what that takes. -/
structure Prepared (k : Kernel) (m : Machine) (path argv : Nat) (r : Option (Nat × List (List UInt8))) :
    Prop where
  finds : k.finds = true
  found : Found m path argv r
  copies : ∀ p, r = some p → k.Copies p.2

/-- **When `execl` does what it should**: it fails before the address space is cleared, or the program can be
    started. -/
def Answers (k : Kernel) (m : Machine) (path argv : Nat) : Prop :=
  Prepared k (within m k.pages) path argv none ∨
    ∃ program args, Prepared k (within m k.pages) path argv (some (program, args)) ∧
      ∃ hdr phs, Startable k m (m.fs.node program).io hdr phs args

/-- Nothing of the kernel's is written. -/
def StoresAbove (x : Access) : Prop := ∀ a, x = .store a → 0x80000000 ≤ a

/-- Requests, one after the other. -/
def ask (v : VME FileNode) (sizes : List Nat) : VME FileNode :=
  sizes.foldl (fun v size => (v.addEntry size none 0 false).2) v

/-- A call goes on at the entry point of the program that was looked up; the address space is a new one, of
    which the program and the stack have asked for their parts, and no page of the user's is left; and no
    memory of the kernel's was written. -/
structure ReplacedBy (k : Kernel) (m : Machine) (path argv program : Nat) (hdr : ElfHeader)
    (phs : List ProgramHeader) : Prop where
  looked : Looked (within m k.pages) path (.node program)
  valid : Elf.header (m.fs.node program).io = some hdr
  table : (List.range hdr.phnum).mapM (Elf.programHeader (m.fs.node program).io hdr) = some phs
  switched : ∃ esp, (execl k path argv m).result = .ok (.switched hdr.entry esp)
  fresh : (execl k path argv m).state.vme = ask Elf.freshVme (requests (Elf.loadsOf phs) ++ [stackSize])
  cleared : ∀ a, isUser a = true → (execl k path argv m).state.mapped a = false
  kernel : ∀ x ∈ (execl k path argv m).log, StoresAbove x

/-- **The image of the process is replaced**, and the kernel is not. -/
def Replaced (k : Kernel) (m : Machine) (path argv : Nat) : Prop :=
  ∃ program hdr phs, ReplacedBy k m path argv program hdr phs

/-- **The call returns -1**, with the address space, the directory and the tables as they were. -/
def Unchanged (k : Kernel) (m : Machine) (path argv : Nat) : Prop :=
  (execl k path argv m).result = .ok (.returned minusOne) ∧ (execl k path argv m).state.vme = m.vme ∧
    (execl k path argv m).state.mapped = m.mapped ∧ (execl k path argv m).state.pcb = m.pcb

end Exec

end BadApple
