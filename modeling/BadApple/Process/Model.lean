/-
  Processes: their control blocks, and `fork`, `exit`, `wait` and `close` (kernel/processes.h,
  kernel/processes.cc, kernel/promise.h, kernel/sys.cc).

  1. **Data** — a `PCB` has four tables of `PCB_ARR_SIZE` pointers.  A pointer is `none` for null and
     otherwise a reference: to a process, an open file, a semaphore or a promise.  Shared objects
     (promises) live in a store of the `System`, so that parent and child see the same one.
  2. **The slot search** — the loop of `PCB::duplicate` tests `children[PCB_ARR_SIZE]` instead of
     `children[child_idx]`.  That element does not exist: a `StrongPtr` is one pointer wide and `fdt`
     is the next member, so what the test reads is `fdt[0]`.
  3. **Blocking** — `wait` blocks in `Promise::get` until the child has exited.  It is two steps: the
     call, which leaves the process `waiting`, and the return (`wake`), enabled once the promise's
     semaphore has been raised.
  4. **Events** — a step reports what its caller learns from it; the book-keeping that a specification
     needs is computed from events alone (`Book`).
-/
import BadApple.Word
import Mathlib.Logic.Function.Basic

namespace BadApple

open Function (update)

/-! ## Promises -/

/-- `Promise<int32_t>`: the count of its semaphore and its value (as a word). -/
structure Promise where
  n : Nat
  value : Nat
deriving DecidableEq, Repr

namespace Promise

/-- A new promise: `sem{0}`, `value{}`. -/
def make : Promise := ⟨0, 0⟩

/-- `set(v)`: store the value, raise the semaphore. -/
def set (p : Promise) (v : Nat) : Promise := { p with value := v, n := p.n + 1 }

/-- `get()`: `sem.down()`, `sem.up()`, return the value.  `none` while `down` blocks. -/
def get (p : Promise) : Option (Nat × Promise) :=
  if p.n > 0 then some (p.value, { p with n := p.n - 1 + 1 }) else none

end Promise

/-! ## Process control blocks -/

/-- `PCB_ARR_SIZE`. -/
def pcbArrSize : Nat := 100

@[simp] theorem pcbArrSize_eq : pcbArrSize = 100 := rfl

/-- `PCB`; the tables are indexed below `pcbArrSize`. -/
structure PCB where
  pcbId : Nat
  cwd : Option Nat
  parent : Option Nat
  children : Nat → Option Nat
  fdt : Nat → Option Nat
  sdt : Nat → Option Nat
  parentPromise : Option Nat
  childrenPromises : Nat → Option Nat

namespace PCB

/-- The constructor: `f`, `f + 1`, `f + 2` are the open files it makes for `stdin`, `stdout` and
    `stderr`; everything else is null. -/
def make (pcbId f : Nat) : PCB where
  pcbId := pcbId
  cwd := none
  parent := none
  children := fun _ => none
  fdt := fun i => if i < 3 then some (f + i) else none
  sdt := fun _ => none
  parentPromise := none
  childrenPromises := fun _ => none

/-- `children[i] == nullptr` as the machine evaluates it: past the end of `children` lies `fdt`. -/
def childIsNull (pcb : PCB) (i : Nat) : Bool :=
  if i < pcbArrSize then (pcb.children i).isNone else (pcb.fdt (i - pcbArrSize)).isNone

/-- The `while` of `PCB::duplicate`; `fuel` is the distance of `childIdx` from the bound. -/
def slotSearch (pcb : PCB) : (fuel childIdx : Nat) → Nat
  | 0, childIdx => childIdx
  | fuel + 1, childIdx =>
      if childIdx < pcbArrSize ∧ pcb.childIsNull pcbArrSize then slotSearch pcb fuel (childIdx + 1)
      else childIdx

/-- `for (i < PCB_ARR_SIZE) dst[i] = src[i]`. -/
def copyTable (src dst : Nat → Option Nat) : Nat → Option Nat :=
  fun i => if i < pcbArrSize then src i else dst i

/-- `PCB::duplicate` on the PCB of process `parentRef`: the child's PCB and the parent's, or `none`
    when `ASSERT(child_pcb->pcb_id < PCB_ARR_SIZE)` fails. -/
def duplicate (parentRef childRef f : Nat) (parent : PCB) : Option (PCB × PCB) :=
  let childIdx := slotSearch parent pcbArrSize 0
  let child := make childIdx f
  let parent' := { parent with children := update parent.children childIdx (some childRef) }
  if child.pcbId < pcbArrSize then
    some ({ child with
      cwd := parent'.cwd
      parent := some parentRef
      fdt := copyTable parent'.fdt child.fdt
      sdt := copyTable parent'.sdt child.sdt }, parent')
  else none

end PCB

/-! ## The system -/

/-- What a process is doing: running user code, blocked in `wait` on the promise of a slot, gone. -/
inductive RunState where
  | running
  | waiting (slot promise : Nat)
  | exited
deriving DecidableEq, Repr

/-- A process: its PCB and what it is doing. -/
structure Process where
  pcb : PCB
  run : RunState

/-- All processes, and the promises they share; the counters are the next unused references. -/
structure System where
  procs : Nat → Option Process
  nextProc : Nat
  promises : Nat → Promise
  nextPromise : Nat
  nextFile : Nat

/-- The system at boot: one process, `PCB::make(1)`. -/
def System.boot : System where
  procs := fun p => if p = 0 then some ⟨PCB.make 1 0, .running⟩ else none
  nextProc := 1
  promises := fun _ => Promise.make
  nextPromise := 0
  nextFile := 3

/-- A system call, or the return of a blocked `wait`, by process `p`; `id` and `fd` are what the user
    passes. -/
inductive Call where
  | fork (p : Nat)
  | exit (p rc : Nat)
  | wait (p id : Nat)
  | wake (p : Nat)
  | close (p fd : Nat)

/-- What a step tells its caller: the id `fork` returned for the new process `child`; an exit code; a
    `wait(id)` that returned `0` having stored `status`; a closed descriptor; a `-1`. -/
inductive Event where
  | forked (p id child : Nat)
  | exited (p rc : Nat)
  | waiting (p : Nat)
  | waited (p id status : Nat)
  | closed (p fd : Nat)
  | refused (p : Nat)
deriving DecidableEq, Repr

namespace System

/-- Store a process. -/
def setProc (s : System) (p : Nat) (q : Process) : System :=
  { s with procs := update s.procs p (some q) }

/-- `fork`: duplicate the PCB, install a new promise in the parent's slot and in the child, make the
    child runnable, return `pcb_id + 2 * PCB_ARR_SIZE`. -/
def fork (s : System) (p : Nat) (pcb : PCB) : Option (System × Event) :=
  match PCB.duplicate p s.nextProc s.nextFile pcb with
  | none => none
  | some (child, parent) =>
      let parent' := { parent with
        childrenPromises := update parent.childrenPromises child.pcbId (some s.nextPromise) }
      let child' := { child with parentPromise := parent'.childrenPromises child.pcbId }
      some ({ s with
        procs := update (update s.procs p (some ⟨parent', .running⟩)) s.nextProc
          (some ⟨child', .running⟩)
        nextProc := s.nextProc + 1
        promises := update s.promises s.nextPromise Promise.make
        nextPromise := s.nextPromise + 1
        nextFile := s.nextFile + 3 }, .forked p (child'.pcbId + pcbArrSize * 2) s.nextProc)

/-- `exit(rc)`: keep the promise made to the parent, if there is one, and stop. -/
def exit (s : System) (p rc : Nat) (pcb : PCB) : System × Event :=
  let s' := match pcb.parentPromise with
    | none => s
    | some r => { s with promises := update s.promises r ((s.promises r).set rc) }
  (s'.setProc p ⟨pcb, .exited⟩, .exited p rc)

/-- The checks of `wait`, called by the system-call handler with `id - 2 * PCB_ARR_SIZE`, and the call
    to `Promise::get`. -/
def wait (s : System) (p id : Nat) (pcb : PCB) : System × Event :=
  let slot := u32 (id + 4294967296 - pcbArrSize * 2)
  if slot ≥ pcbArrSize then (s, .refused p)
  else
    match pcb.childrenPromises slot with
    | none => (s, .refused p)
    | some r => (s.setProc p ⟨pcb, .waiting slot r⟩, .waiting p)

/-- The rest of `wait` once `get` returns: store the status, clear both slots, return `0`. -/
def wake (s : System) (p : Nat) (pcb : PCB) (slot r : Nat) : Option (System × Event) :=
  match (s.promises r).get with
  | none => none
  | some (value, promise) =>
      let pcb' := { pcb with
        childrenPromises := update pcb.childrenPromises slot none
        children := update pcb.children slot none }
      some ({ s with promises := update s.promises r promise }.setProc p ⟨pcb', .running⟩,
        .waited p (slot + pcbArrSize * 2) value)

/-- `close(fd)`: files, then semaphores, then children. -/
def close (s : System) (p fd : Nat) (pcb : PCB) : System × Event :=
  if fd < pcbArrSize then
    (s.setProc p ⟨{ pcb with fdt := update pcb.fdt fd none }, .running⟩, .closed p fd)
  else if fd < pcbArrSize * 2 then
    (s.setProc p ⟨{ pcb with sdt := update pcb.sdt (fd - pcbArrSize) none }, .running⟩,
      .closed p fd)
  else if fd < pcbArrSize * 3 then
    (s.setProc p ⟨{ pcb with
      children := update pcb.children (fd - pcbArrSize * 2) none
      childrenPromises := update pcb.childrenPromises (fd - pcbArrSize * 2) none }, .running⟩,
      .closed p fd)
  else (s, .refused p)

/-- One step of the system; `none` when it is not enabled (the process does not exist, is not running
    or is still blocked) or ends in a failed assertion. -/
def step (s : System) : Call → Option (System × Event)
  | .fork p =>
      match s.procs p with
      | some ⟨pcb, .running⟩ => s.fork p pcb
      | _ => none
  | .exit p rc =>
      match s.procs p with
      | some ⟨pcb, .running⟩ => some (s.exit p rc pcb)
      | _ => none
  | .wait p id =>
      match s.procs p with
      | some ⟨pcb, .running⟩ => some (s.wait p id pcb)
      | _ => none
  | .wake p =>
      match s.procs p with
      | some ⟨pcb, .waiting slot r⟩ => s.wake p pcb slot r
      | _ => none
  | .close p fd =>
      match s.procs p with
      | some ⟨pcb, .running⟩ => some (s.close p fd pcb)
      | _ => none

end System

/-! ## The book-keeping of an observer -/

/-- Per process, the ids `fork` has returned for children not yet waited for or closed, with the child
    each was returned for; and the exit codes seen so far. -/
structure Book where
  kids : Nat → List (Nat × Nat)
  codes : Nat → Option Nat

/-- The empty book. -/
def Book.empty : Book := ⟨fun _ => [], fun _ => none⟩

/-- Read one event. -/
def Book.observe (b : Book) : Event → Book
  | .forked p id child => { b with kids := update b.kids p ((id, child) :: b.kids p) }
  | .exited p rc => { b with codes := update b.codes p (some rc) }
  | .waited p id _ => { b with kids := update b.kids p ((b.kids p).filter fun k => k.1 ≠ id) }
  | .closed p fd => { b with kids := update b.kids p ((b.kids p).filter fun k => k.1 ≠ fd) }
  | .waiting _ => b
  | .refused _ => b

end BadApple
