/-
  The heap of a user program: `malloc`, `free` and `realloc` on one array (my-test.dir/sbin/heap.c).

  1. **Data** — `array`, `heap_len` and `avail` are globals.  Tags, links, `remove`, `makeAvail` and
     `makeTaken` are those of the kernel's heap, word for word, and so is their model; the lock is not used.
     `safe` is set here, but `sanity` returns its argument in every case, so it is the identity.
  2. **What is different** — `malloc` takes the first block that fits, and returns null when there is none;
     `free` of what is not taken returns; `realloc` is here only.
  3. **Bytes** — an `int` of the array is four bytes, the lowest first.  A program, and `memcpy`
     (my-test.dir/sbin/machine.S), write bytes; the registers of `memcpy` are 32 bits wide and its count is
     read as a signed number.
  4. **Use** — the program holds the results of `malloc` and `realloc`, and writes into the blocks they point
     to.  When `realloc` returns null it holds on to what it had.
-/
import BadApple.Heap.BestFit
import BadApple.Machine

namespace BadApple

open Gheith
open Machine

namespace UserHeap

/-- `heap_len`: `INTS`. -/
def heapLen : Int := 0x100000

/-- `heap_init`, the array being at `base`. -/
def heapInit (base : Nat) (mem : Int → Int) : Heap := (Heap.initial base heapLen mem).initBlocks

/-! ## `malloc` and `free` -/

/-- The loop of `malloc`; `none` when it runs for longer than `fuel`. -/
def mallocLoop (h : Heap) (ints : Int) : Nat → Int → Option (Nat × Heap)
  | 0, _ => none
  | fuel + 1, p =>
    if p = 0 then some (0, h)
    else
      let sz := h.size p
      if ints ≤ sz then
        let h := h.remove p
        let extra := sz - ints
        let h := if 4 ≤ extra then (h.makeTaken p ints).makeAvail (p + ints) extra
          else h.makeTaken p sz
        some (h.addr (p + 1), h)
      else mallocLoop h ints fuel (h.next p)

/-- `malloc`: its result and the heap after it. -/
def malloc (h : Heap) (bytes : Nat) : Option (Nat × Heap) :=
  if bytes = 0 then some (h.base, h)
  else mallocLoop h (Heap.intsFor bytes) h.len.toNat h.avail

/-- `free`. -/
def free (h : Heap) (p : Nat) : Heap :=
  if p = 0 then h
  else if p = h.base then h
  else
    let idx := h.idx p
    if ¬ h.isTaken idx then h
    else
      let sz := h.size idx
      let leftIndex := h.left idx
      let rightIndex := h.right idx
      let (h, idx, sz) := if h.isAvail leftIndex then
        (h.remove leftIndex, leftIndex, sz + (h.remove leftIndex).size leftIndex) else (h, idx, sz)
      let (h, sz) := if h.isAvail rightIndex then
        (h.remove rightIndex, sz + (h.remove rightIndex).size rightIndex) else (h, sz)
      h.makeAvail idx sz

/-! ## Bytes -/

/-- The four bytes of an `int`. -/
def bytesOf (w : Int) : Memory.Mem := Memory.setWord (fun _ => 0) 0 (unsigned w)

/-- An `int` with its byte `j` replaced. -/
def withByte (w : Int) (j : Nat) (v : UInt8) : Int :=
  signed (Memory.word (Function.update (bytesOf w) j v) 0)

/-- The index of the `int` that address `a` lies in. -/
def intOf (h : Heap) (a : Nat) : Int := ((a : Int) - h.base) / 4

/-- Which of its bytes that is. -/
def lane (h : Heap) (a : Nat) : Nat := (((a : Int) - h.base) % 4).toNat

/-- The byte at address `a`. -/
def byte (h : Heap) (a : Nat) : UInt8 := bytesOf (h.array (intOf h a)) (lane h a)

/-- Write the byte at address `a`. -/
def setByte (h : Heap) (a : Nat) (v : UInt8) : Heap :=
  h.set (intOf h a) (withByte (h.array (intOf h a)) (lane h a) v)

/-- The loop of `memcpy`. -/
def memcpyLoop : (rounds : Nat) → (dest src : Nat) → Heap → Heap
  | 0, _, _, h => h
  | k + 1, dest, src, h => memcpyLoop k (u32 (dest + 1)) (u32 (src + 1)) (setByte h dest (byte h src))

/-- `memcpy(dest, src, n)`. -/
def memcpy (h : Heap) (dest src n : Nat) : Heap := memcpyLoop (rounds n) dest src h

/-! ## `realloc` -/

/-- `realloc`: its result and the heap after it. -/
def realloc (h : Heap) (p newSize : Nat) : Option (Nat × Heap) :=
  if p = 0 then malloc h newSize
  else if newSize = 0 then some (0, free h p)
  else
    let idx := h.idx p
    if ¬ h.isTaken idx then some (0, h)
    else do
      let sz := unsigned (h.size idx * 4)
      let (newPtr, h) ← malloc h newSize
      let h :=
        if newPtr ≠ 0 then
          let m := if sz < newSize then sz else newSize
          memcpy h newPtr p m
        else h
      some (newPtr, free h p)

/-! ## Use -/

/-- How many bytes the program may use at `p`: none at the array itself, which is what `malloc(0)` returns. -/
def room (h : Heap) (p : Nat) : Nat := if p = h.base then 0 else (h.payload (h.idx p)).toNat

/-- What a program calls, and a write of the byte `v` to byte `k` of what `p` points to. -/
inductive Op where
  | malloc (bytes : Nat)
  | free (p : Nat)
  | realloc (p newSize : Nat)
  | write (p k : Nat) (v : UInt8)
deriving DecidableEq, Repr

/-- What `free` and `realloc` may be called with. -/
def Pointer (u : Use) (p : Nat) : Prop := p = 0 ∨ p = u.heap.base ∨ p ∈ u.live

instance (u : Use) (p : Nat) : Decidable (Pointer u p) :=
  inferInstanceAs (Decidable (p = 0 ∨ p = u.heap.base ∨ p ∈ u.live))

/-- One step of a program. -/
def step (u : Use) : Op → Option Use
  | .malloc bytes => do
    let (p, h) ← malloc u.heap bytes
    some ⟨h, u.given p ++ u.live⟩
  | .free p => if Pointer u p then some ⟨free u.heap p, u.live.erase p⟩ else none
  | .realloc p newSize =>
    if Pointer u p then do
      let (q, h) ← realloc u.heap p newSize
      some ⟨h, if q = 0 ∧ newSize ≠ 0 then u.live else u.given q ++ u.live.erase p⟩
    else none
  | .write p k v =>
    if p ∈ u.live ∧ k < room u.heap p then some ⟨setByte u.heap (p + k) v, u.live⟩ else none

end UserHeap

end BadApple
