/-
  The buffer cache (kernel/buffer_cache.h, `GlobalIndex` and `BufferCache`).

  1. **Data** — 997 block lists, the bucket of a block being its number modulo 997; a second list, of
     buckets, threaded through one `GlobalIndex` per bucket and read from `globalIndexFirst`; a count of
     misses.  A `GlobalIndex` lives as long as its bucket does, so `promote` on a pointer to one never
     fails and pointers to them are bucket numbers.
  2. **One call** — `readBlock` composes the pieces of `read_block` in the source's order; `none` is a
     failed assertion.
  3. **Many threads** — `CacheSystem.step` runs the same pieces one at a time: one locked list operation,
     one atomic increment, or one stretch of work on data only this thread can reach.
-/
import BadApple.Cache.BlockList
import BadApple.Lib.Sums
import BadApple.Word

namespace BadApple

open Function (update)

/-! ## The device -/

/-- `memcpy(dst, src, n)`. -/
def memcpy (n : Nat) (src dst : Buffer) : Buffer := fun i => if i < n then src i else dst i

/-- The disk: its block size and what each block holds. -/
structure Ide where
  blockSize : Nat
  data : Nat → Buffer

/-- `Ide::read_block`. -/
def Ide.readBlock (ide : Ide) (blockNumber : Nat) (buffer : Buffer) : Buffer :=
  memcpy ide.blockSize (ide.data blockNumber) buffer

/-- A small device for runs on fixed inputs: block `b` is the byte `b`. -/
def Ide.bytes : Ide := ⟨1, fun b _ => UInt8.ofNat b⟩

/-- A buffer holds the bytes of a block. -/
def Ide.Agrees (ide : Ide) (blockNumber : Nat) (buffer : Buffer) : Prop :=
  ∀ i, i < ide.blockSize → buffer i = ide.data blockNumber i

theorem Ide.readBlock_agrees (ide : Ide) (b : Nat) (buffer : Buffer) :
    ide.Agrees b (ide.readBlock b buffer) := by
  intro i hi
  unfold Ide.readBlock memcpy
  rw [if_pos hi]

theorem Ide.Agrees.memcpy {ide : Ide} {b : Nat} {src : Buffer} (h : ide.Agrees b src)
    (dst : Buffer) : ide.Agrees b (memcpy ide.blockSize src dst) := by
  intro i hi
  unfold BadApple.memcpy
  rw [if_pos hi]
  exact h i hi

/-! ## The cache -/

/-- `GlobalIndex`; its `index` is the number it is found under. -/
structure GlobalIndex where
  next : Option Nat
  prev : Option Nat
deriving DecidableEq, Repr

/-- `BufferCache`, its locks apart. -/
structure BufferCache where
  ide : Ide
  blocks : Blocks
  nextBlock : Nat
  indices : Nat → BlockList
  globalIndex : Nat → GlobalIndex
  globalIndexFirst : Option Nat
  globalIndexLast : Option Nat
  count : Nat

namespace BufferCache

/-- `size`. -/
def size : Nat := 997

theorem size_eq : size = 997 := rfl

/-- The constructor. -/
def make (ide : Ide) : BufferCache where
  ide := ide
  blocks := fun _ => none
  nextBlock := 0
  indices := fun _ => BlockList.empty
  globalIndex := fun _ => ⟨none, none⟩
  globalIndexFirst := none
  globalIndexLast := none
  count := 0

/-- `list->extract(block_number)` on the list of the block. -/
def extract (c : BufferCache) (b : Nat) : Option (BufferCache × Option Nat) :=
  match (c.indices (b % size)).extract c.blocks b c.nextBlock with
  | none => none
  | some (h, l, r) => some ({ c with blocks := h, indices := update c.indices (b % size) l }, r)

/-- `indices[i]->remove()`; its answer is not used. -/
def remove (c : BufferCache) (i : Nat) : Option BufferCache :=
  match (c.indices i).remove c.blocks with
  | none => none
  | some (h, l, _) => some { c with blocks := h, indices := update c.indices i l }

/-- `list->add(block)`. -/
def add (c : BufferCache) (i r : Nat) : Option BufferCache :=
  match (c.indices i).add c.blocks r with
  | none => none
  | some (h, l) => some { c with blocks := h, indices := update c.indices i l }

/-- Make a block and read the device into its buffer. -/
def load (c : BufferCache) (b : Nat) : BufferCache × Nat :=
  let block : Block := ⟨b, c.ide.readBlock b fun _ => 0, none, none⟩
  ({ c with blocks := update c.blocks c.nextBlock (some block), nextBlock := c.nextBlock + 1 },
    c.nextBlock)

/-- `count.add_fetch(1)`. -/
def addFetch (c : BufferCache) : BufferCache := { c with count := u32 (c.count + 1) }

/-- `g->next = v` and `g->prev = v`. -/
def setNext (c : BufferCache) (g : Nat) (v : Option Nat) : BufferCache :=
  { c with globalIndex := update c.globalIndex g { c.globalIndex g with next := v } }

def setPrev (c : BufferCache) (g : Nat) (v : Option Nat) : BufferCache :=
  { c with globalIndex := update c.globalIndex g { c.globalIndex g with prev := v } }

/-- The global half of an eviction: take the last bucket off the list and report it.  `none` is one of
    the three assertions. -/
def popOldest (c : BufferCache) : Option (BufferCache × Nat) :=
  match c.globalIndexLast with
  | none => none
  | some oldest =>
      match (c.globalIndex oldest).prev with
      | none => none
      | some p =>
          let c' := { c with globalIndexLast := some p }.setNext p none
          match c'.globalIndexFirst with
          | none => none
          | some _ => some (c', oldest)

/-- The eviction. -/
def evict (c : BufferCache) : Option BufferCache :=
  match c.popOldest with
  | none => none
  | some (c', oldest) =>
      match c'.remove oldest with
      | none => none
      | some c'' => some { c'' with count := size }

/-- The branch of `read_block` for a block that is not in memory. -/
def miss (c : BufferCache) (b : Nat) : Option (BufferCache × Nat) :=
  let (c', r) := c.load b
  let c' := c'.addFetch
  if c'.count ≥ size then c'.evict.map fun c'' => (c'', r) else some (c', r)

/-- The first `if` of the last section of `read_block`: a bucket with another one before it is taken
    out. -/
def unhook (c : BufferCache) (g : Nat) : BufferCache :=
  match (c.globalIndex g).prev with
  | none => c
  | some p =>
      let c := c.setNext p (c.globalIndex g).next
      match (c.globalIndex g).next with
      | none => c
      | some n => c.setPrev n (c.globalIndex g).prev

/-- The rest of that section: the bucket goes in front. -/
def pushFront (c : BufferCache) (g : Nat) : BufferCache :=
  let c := c.setNext g c.globalIndexFirst
  let c := c.setPrev g none
  let c := match c.globalIndexFirst with
    | none => c
    | some f => c.setPrev f (some g)
  let c := { c with globalIndexFirst := some g }
  match c.globalIndexLast with
  | none => { c with globalIndexLast := some g }
  | some _ => c

/-- The last section of `read_block`: moving a bucket to the front of the global list. -/
def touch (c : BufferCache) (g : Nat) : BufferCache := (c.unhook g).pushFront g

/-- The part of `read_block` common to both branches: copy the block out, put it back, touch its
    bucket. -/
def deliver (c : BufferCache) (b r : Nat) (buffer : Buffer) : Option (BufferCache × Buffer) :=
  match c.blocks r with
  | none => none
  | some block =>
      let buffer := memcpy c.ide.blockSize block.buffer buffer
      match c.add (b % size) r with
      | none => none
      | some c => some (c.touch (b % size), buffer)

/-- **`read_block(block_number, buffer)`.** -/
def readBlock (c : BufferCache) (b : Nat) (buffer : Buffer) : Option (BufferCache × Buffer) :=
  match c.extract b with
  | none => none
  | some (c, some r) => c.deliver b r buffer
  | some (c, none) =>
      match c.miss b with
      | none => none
      | some (c, r) => c.deliver b r buffer

/-- The blocks of bucket `i`, by reference, in list order. -/
def refsOf (c : BufferCache) (i : Nat) : List Nat :=
  Chains.walk c.blocks.nextOf c.nextBlock (c.indices i).first

/-- The number of blocks held in all lists. -/
def total (c : BufferCache) : Nat := Sums.sumTo (fun i => (c.refsOf i).length) size

end BufferCache

/-! ## Several threads -/

/-- Where a thread is in `read_block`; `r` is the block it holds, `oldest` the bucket it evicts from. -/
inductive Phase where
  | start
  | missed
  | loaded (r : Nat)
  | evicting (r : Nat)
  | dropping (r oldest : Nat)
  | dropped (r : Nat)
  | found (r : Nat)
  | copied (r : Nat)
  | added
  | returned
deriving DecidableEq, Repr

/-- A call of `read_block`: its arguments and its phase. -/
structure ReadCall where
  block : Nat
  buffer : Buffer
  phase : Phase

/-- The cache, the holder of `global_index_lock`, and the call each thread is in. -/
structure CacheSystem where
  cache : BufferCache
  lock : Option Nat
  calls : Nat → Option ReadCall

/-- A thread calls `read_block`, or takes its next step in it. -/
inductive CacheAction where
  | call (t b : Nat) (buffer : Buffer)
  | advance (t : Nat)

namespace CacheSystem

/-- No thread is reading yet. -/
def make (ide : Ide) : CacheSystem := ⟨BufferCache.make ide, none, fun _ => none⟩

/-- Thread `t` goes on with `call` over the cache `c`. -/
def goOn (s : CacheSystem) (t : Nat) (c : BufferCache) (call : ReadCall) (phase : Phase) : CacheSystem :=
  { s with cache := c, calls := update s.calls t (some { call with phase := phase }) }

/-- The next step of thread `t`; `none` when it has to wait for the lock, has returned, or an assertion
    fails. -/
def advance (s : CacheSystem) (t : Nat) (call : ReadCall) : Option CacheSystem :=
  match call.phase with
  | .start =>
      match s.cache.extract call.block with
      | none => none
      | some (c, none) => some (s.goOn t c call .missed)
      | some (c, some r) => some (s.goOn t c call (.found r))
  | .missed =>
      let (c, r) := s.cache.load call.block
      some (s.goOn t c call (.loaded r))
  | .loaded r =>
      let c := s.cache.addFetch
      some (s.goOn t c call (if c.count ≥ BufferCache.size then .evicting r else .found r))
  | .evicting r =>
      match s.lock with
      | some _ => none
      | none =>
          match s.cache.popOldest with
          | none => none
          | some (c, oldest) => some { s.goOn t c call (.dropping r oldest) with lock := some t }
  | .dropping r oldest =>
      match s.cache.remove oldest with
      | none => none
      | some c => some (s.goOn t c call (.dropped r))
  | .dropped r =>
      some { s.goOn t { s.cache with count := BufferCache.size } call (.found r) with lock := none }
  | .found r =>
      match s.cache.blocks r with
      | none => none
      | some block =>
          let buffer := memcpy s.cache.ide.blockSize block.buffer call.buffer
          some (s.goOn t s.cache { call with buffer := buffer } (.copied r))
  | .copied r =>
      match s.cache.add (call.block % BufferCache.size) r with
      | none => none
      | some c => some (s.goOn t c call .added)
  | .added =>
      match s.lock with
      | some _ => none
      | none => some (s.goOn t (s.cache.touch (call.block % BufferCache.size)) call .returned)
  | .returned => none

/-- One step of the system. -/
def step (s : CacheSystem) : CacheAction → Option CacheSystem
  | .call t b buffer =>
      match s.calls t with
      | none => some { s with calls := update s.calls t (some ⟨b, buffer, .start⟩) }
      | some call =>
          if call.phase = .returned then
            some { s with calls := update s.calls t (some ⟨b, buffer, .start⟩) }
          else none
  | .advance t =>
      match s.calls t with
      | none => none
      | some call => s.advance t call

end CacheSystem

end BadApple
