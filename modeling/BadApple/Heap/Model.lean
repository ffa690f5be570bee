/-
  The kernel heap: boundary tags and an avail list in one array of ints (kernel/heap.cc).

  1. **Data** — `array`, `len`, `avail` and `theLock` are the globals of `gheith`.  Indices and values are
     `int`s, modelled by `Int`: they stay below `2 ^ 30`, as `len` does.  A pointer is its address.
  2. **Blocks** — the first and the last int of a block hold its size, negative when it is taken; ints 1
     and 2 of a block that is available are its links, `0` for none.  `sanity` only checks when `safe` is
     set, which it never is, so it is the identity.
  3. **Locking** — `malloc` and `free` hold `theLock` throughout, so calls follow one another.  The lock
     is itself an object in the heap; what its constructor, `lock` and `unlock` write lies inside its
     block, so it is a write into a block in use.
  4. **Use** — the callers hold the results of `malloc` and may write into the blocks they point to.
-/
import Mathlib.Logic.Function.Basic
import BadApple.Word

namespace BadApple

open Function (update)

namespace Gheith

/-- The heap's globals. -/
structure Heap where
  base : Nat
  array : Int → Int
  len : Int
  avail : Int
  theLock : Nat

/-- `sizeof(BlockingLock)`: a `SpinLock`, a `uint64_t` and a `Queue` of two pointers and a `NoLock`. -/
def lockBytes : Nat := 24

/-- How many fitting blocks `malloc` looks at. -/
def countDownFrom : Nat := 20

/-- The `mx` that `malloc` starts with. -/
def mxFrom : Int := 0x7FFFFFFF

namespace Heap

/-- `array[i] = v`. -/
def set (h : Heap) (i v : Int) : Heap := { h with array := update h.array i v }

def abs (x : Int) : Int := if x < 0 then -x else x

def size (h : Heap) (i : Int) : Int := abs (h.array i)

def headerFromFooter (h : Heap) (i : Int) : Int := i - h.size i + 1

def footerFromHeader (h : Heap) (i : Int) : Int := i + h.size i - 1

def left (h : Heap) (i : Int) : Int := h.headerFromFooter (i - 1)

def right (h : Heap) (i : Int) : Int := i + h.size i

def next (h : Heap) (i : Int) : Int := h.array (i + 1)

def prev (h : Heap) (i : Int) : Int := h.array (i + 2)

def setNext (h : Heap) (i x : Int) : Heap := h.set (i + 1) x

def setPrev (h : Heap) (i x : Int) : Heap := h.set (i + 2) x

def remove (h : Heap) (i : Int) : Heap :=
  let prevIndex := h.prev i
  let nextIndex := h.next i
  let h := if prevIndex = 0 then { h with avail := nextIndex } else h.setNext prevIndex nextIndex
  if nextIndex ≠ 0 then h.setPrev nextIndex prevIndex else h

/-- Write header and footer. -/
def setTags (h : Heap) (i v : Int) : Heap :=
  let h := h.set i v
  h.set (h.footerFromHeader i) v

def makeAvail (h : Heap) (i ints : Int) : Heap :=
  let h := h.setTags i ints
  let h := h.setNext i h.avail
  let h := h.setPrev i 0
  let h := if h.avail ≠ 0 then h.setPrev h.avail i else h
  { h with avail := i }

def makeTaken (h : Heap) (i ints : Int) : Heap := h.setTags i (-ints)

def isAvail (h : Heap) (i : Int) : Prop := 0 < h.array i

def isTaken (h : Heap) (i : Int) : Prop := h.array i < 0

instance (h : Heap) (i : Int) : Decidable (h.isAvail i) := inferInstanceAs (Decidable (_ < _))

instance (h : Heap) (i : Int) : Decidable (h.isTaken i) := inferInstanceAs (Decidable (_ < _))

/-- `&array[i]`. -/
def addr (h : Heap) (i : Int) : Nat := h.base + 4 * i.toNat

/-- The index of the block that `p` points into: the `idx` of `free`. -/
def idx (h : Heap) (p : Nat) : Int := ((p - h.base) / 4 : Nat) - 1

/-- The loop of `malloc`: `mx` and `it` at its end; `none` when it panics, or runs for longer than
    `fuel`. -/
def search (h : Heap) (ints : Int) : Nat → Int → Nat → Int → Int → Option (Int × Int)
  | 0, _, _, _, _ => none
  | fuel + 1, p, countDown, mx, it =>
    if p = 0 then some (mx, it)
    else if ¬ h.isAvail p then none
    else if ints ≤ h.size p then
      let best := if h.size p < mx then (h.size p, p) else (mx, it)
      if countDown - 1 = 0 then some best
      else search h ints fuel (h.next p) (countDown - 1) best.1 best.2
    else search h ints fuel (h.next p) countDown mx it

/-- The ints of a block for `bytes` bytes. -/
def intsFor (bytes : Nat) : Int :=
  let ints : Nat := u32 (bytes + 3) / 4 + 2
  if ints < 4 then 4 else ints

/-- `malloc`: its result and the heap after it. -/
def malloc (h : Heap) (bytes : Nat) : Option (Nat × Heap) :=
  if bytes = 0 then some (h.base, h)
  else do
    let ints := intsFor bytes
    let (mx, it) ← h.search ints h.len.toNat h.avail countDownFrom mxFrom 0
    if it ≠ 0 then
      let h := h.remove it
      let extra := mx - ints
      let h := if 4 ≤ extra then (h.makeTaken it ints).makeAvail (it + ints) extra
        else h.makeTaken it mx
      some (h.addr (it + 1), h)
    else some (0, h)

/-- `free`; `none` when it panics. -/
def free (h : Heap) (p : Nat) : Option Heap :=
  if p = 0 then some h
  else if p = h.base then some h
  else
    let idx := h.idx p
    if h.isTaken idx then
      let sz := h.size idx
      let leftIndex := h.left idx
      let rightIndex := h.right idx
      let (h, idx, sz) := if h.isAvail leftIndex then
        (h.remove leftIndex, leftIndex, sz + (h.remove leftIndex).size leftIndex) else (h, idx, sz)
      let (h, sz) := if h.isAvail rightIndex then
        (h.remove rightIndex, sz + (h.remove rightIndex).size rightIndex) else (h, sz)
      some (h.makeAvail idx sz)
    else none

/-- The globals before `heapInit`; the contents of the memory at `base` do not matter. -/
def initial (base : Nat) (len : Int) (mem : Int → Int) : Heap := ⟨base, mem, len, 0, 0⟩

/-- The three blocks that `heapInit` makes. -/
def initBlocks (h : Heap) : Heap :=
  ((h.makeTaken 0 2).makeAvail 2 (h.len - 4)).makeTaken (h.len - 2) 2

/-- `heapInit`; `none` when there is no memory for the lock. -/
def heapInit (base bytes : Nat) (mem : Int → Int) : Option Heap := do
  let h := (initial base (bytes / 4 : Nat) mem).initBlocks
  let (p, h) ← h.malloc lockBytes
  if p = 0 then none else some { h with theLock := p }

end Heap

/-! ## Use -/

/-- The heap and the results of `malloc` that the callers hold. -/
structure Use where
  heap : Heap
  live : List Nat

/-- A call of `malloc` or `free`, or a write of `v` to word `k` of the block at `p`. -/
inductive Call where
  | malloc (bytes : Nat)
  | free (p : Nat)
  | write (p : Nat) (k v : Int)
deriving DecidableEq, Repr

/-- What a caller is given to keep: not null, and not the array itself. -/
def Use.given (u : Use) (p : Nat) : List Nat := if p = 0 ∨ p = u.heap.base then [] else [p]

/-- One call.  `free` is called with null, the array or a live result of `malloc`; callers write into
    their blocks and the heap into that of its lock. -/
def Use.step (u : Use) : Call → Option Use
  | .malloc bytes => do
    let (p, h) ← u.heap.malloc bytes
    some ⟨h, u.given p ++ u.live⟩
  | .free p =>
    if p = 0 ∨ p = u.heap.base ∨ p ∈ u.live then do
      let h ← u.heap.free p
      some ⟨h, u.live.erase p⟩
    else none
  | .write p k v =>
    let i := u.heap.idx p
    if (p ∈ u.live ∨ p = u.heap.theLock) ∧ 0 < k ∧ k < u.heap.size i - 1 then
      some ⟨u.heap.set (i + k) v, u.live⟩
    else none

end Gheith

end BadApple
