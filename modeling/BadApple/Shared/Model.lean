/-
  Shared pointers: control blocks, handles, and what happens when handles are dropped (kernel/shared.h).

  1. **Data** — an `Intermediate` is the control block of one object; its `deleted` flag is set by
     `delete ptr`.  Objects hold handles as members; all other handles (locals, globals) are `roots`.  A
     handle is strong or weak and names a control block; null handles are left out, nothing happens to
     them.  Counts are numbers: there is no room for `2 ^ 32` handles in a 32-bit address space.
  2. **Dropping** — `drop_strong` and `drop_weak` do their counting under the block's lock and the rest
     after unlocking: the object's destructor, `ptr->obj = nullptr`, `delete ptr`.  Each thread has a
     stack of `Frame`s, what its activations still have to do; destroying an object pushes the drops of
     its members.  One locked section, or one access after it, is one step.
  3. **Handles in use** — copying, weakening and promoting read a handle that some thread can reach.
     Assigning is a copy, the drop of the old handle, and a store of the new one, in that order.
-/
import Mathlib.Logic.Function.Basic

namespace BadApple

open Function (update)

namespace Shared

/-- `Intermediate`; `obj` says whether the pointer to the object is non-null. -/
structure Intermediate where
  obj : Bool
  strongCount : Nat
  weakCount : Nat
  deleted : Bool
deriving DecidableEq, Repr

/-- No control block yet. -/
def Intermediate.none : Intermediate := ⟨false, 0, 0, false⟩

/-- `Intermediate(T* obj)`. -/
def Intermediate.make : Intermediate := ⟨true, 1, 0, false⟩

/-- A `StrongPtr` or a `WeakPtr`, by its control block. -/
inductive Handle where
  | strong (i : Nat)
  | weak (i : Nat)
deriving DecidableEq, Repr

/-- What an activation still has to do: the locked section of `drop_strong` or `drop_weak`; after it, in
    `drop_strong`, `delete ptr->obj`, then `ptr->obj = nullptr`, then `delete ptr` if `deletePtr`; in
    `drop_weak`, `delete ptr`. -/
inductive Frame where
  | drop (h : Handle)
  | destroy (i : Nat) (deletePtr : Bool)
  | clear (i : Nat) (deletePtr : Bool)
  | freeStrong (i : Nat)
  | freeWeak (i : Nat)
deriving DecidableEq, Repr

/-- The control block of a handle. -/
def Handle.block : Handle → Nat
  | .strong i | .weak i => i

/-- The control block a frame is about to use. -/
def Frame.block : Frame → Nat
  | .drop h => h.block
  | .destroy i _ | .clear i _ | .freeStrong i | .freeWeak i => i

/-- All control blocks, the members of their objects, the other handles, and the threads' stacks. -/
structure Heap where
  blocks : Nat → Intermediate
  next : Nat
  members : Nat → List Handle
  roots : Handle → Nat
  pending : Nat → List Frame

/-- No objects yet. -/
def Heap.empty : Heap where
  blocks := fun _ => .none
  next := 0
  members := fun _ => []
  roots := fun _ => 0
  pending := fun _ => []

/-- What the program can do next: make an object, copy a handle, make a weak handle from a strong one,
    promote a weak one, store a handle as the `k`-th member of object `j`, start dropping a root or the
    `k`-th member of object `j` in thread `t`, or go on with what is on top of the stack of `t`. -/
inductive Action where
  | make
  | copy (h : Handle)
  | weaken (i : Nat)
  | promote (i : Nat)
  | store (h : Handle) (j k : Nat)
  | dropRoot (t : Nat) (h : Handle)
  | dropMember (t j k : Nat)
  | advance (t : Nat)
deriving DecidableEq, Repr

namespace Heap

/-- A handle some thread can reach: a root, or a member of an object that is held. -/
def reaches (s : Heap) (h : Handle) : Bool :=
  decide (0 < s.roots h) ||
    (List.range s.next).any fun j => decide (0 < (s.blocks j).strongCount) && (s.members j).contains h

/-- Change a control block. -/
def setBlock (s : Heap) (i : Nat) (b : Intermediate) : Heap :=
  { s with blocks := update s.blocks i b }

/-- One root more, one root less. -/
def addRoot (s : Heap) (h : Handle) : Heap := { s with roots := update s.roots h (s.roots h + 1) }
def subRoot (s : Heap) (h : Handle) : Heap := { s with roots := update s.roots h (s.roots h - 1) }

/-- Replace the stack of `t`. -/
def setStack (s : Heap) (t : Nat) (fs : List Frame) : Heap :=
  { s with pending := update s.pending t fs }

/-- `new T`, wrapped in a `StrongPtr`. -/
def make (s : Heap) : Heap :=
  { s.setBlock s.next .make with next := s.next + 1 }.addRoot (.strong s.next)

/-- `add_strong`. -/
def addStrong (s : Heap) (i : Nat) : Heap :=
  let b := s.blocks i
  if b.obj then s.setBlock i { b with strongCount := b.strongCount + 1 } else s

/-- `add_weak`; `none` is its assertion. -/
def addWeak (s : Heap) (i : Nat) : Option Heap :=
  let b := s.blocks i
  if b.weakCount > 0 ∨ b.strongCount > 0 then
    some (s.setBlock i { b with weakCount := b.weakCount + 1 })
  else none

/-- `promote_weak`, and the root it makes when it succeeds. -/
def promote (s : Heap) (i : Nat) : Option Heap :=
  let b := s.blocks i
  if b.weakCount > 0 then
    if b.strongCount > 0 then
      some ((s.setBlock i { b with strongCount := b.strongCount + 1 }).addRoot (.strong i))
    else some s
  else none

/-- The locked section of `drop_strong`; `none` is one of its assertions. -/
def dropStrong (s : Heap) (t i : Nat) (rest : List Frame) : Option Heap :=
  let b := s.blocks i
  if b.strongCount > 0 ∧ b.obj then
    let b' := { b with strongCount := b.strongCount - 1 }
    let after := if b'.strongCount = 0 then Frame.destroy i (decide (b'.weakCount = 0)) :: rest else rest
    some ((s.setBlock i b').setStack t after)
  else none

/-- The locked section of `drop_weak`; `none` is its assertion. -/
def dropWeak (s : Heap) (t i : Nat) (rest : List Frame) : Option Heap :=
  let b := s.blocks i
  if b.weakCount > 0 then
    let b' := { b with weakCount := b.weakCount - 1 }
    let after := if b'.weakCount = 0 ∧ b'.strongCount = 0 then Frame.freeWeak i :: rest else rest
    some ((s.setBlock i b').setStack t after)
  else none

/-- `delete ptr->obj`: the destructor drops the members.  `none` is the assertion before it. -/
def destroy (s : Heap) (t i : Nat) (deletePtr : Bool) (rest : List Frame) : Option Heap :=
  if (s.blocks i).obj then
    some ({ s with members := update s.members i [] }.setStack t
      ((s.members i).map Frame.drop ++ Frame.clear i deletePtr :: rest))
  else none

/-- `ptr->obj = nullptr`. -/
def clear (s : Heap) (t i : Nat) (deletePtr : Bool) (rest : List Frame) : Heap :=
  (s.setBlock i { s.blocks i with obj := false }).setStack t
    (if deletePtr then Frame.freeStrong i :: rest else rest)

/-- `delete ptr`. -/
def free (s : Heap) (t i : Nat) (rest : List Frame) : Heap :=
  (s.setBlock i { s.blocks i with deleted := true }).setStack t rest

/-- The next step of thread `t`. -/
def advance (s : Heap) (t : Nat) : Option Heap :=
  match s.pending t with
  | [] => none
  | .drop (.strong i) :: rest => s.dropStrong t i rest
  | .drop (.weak i) :: rest => s.dropWeak t i rest
  | .destroy i deletePtr :: rest => s.destroy t i deletePtr rest
  | .clear i deletePtr :: rest => some (s.clear t i deletePtr rest)
  | .freeStrong i :: rest => some (s.free t i rest)
  | .freeWeak i :: rest => some (s.free t i rest)

/-- One step, with `n` threads; `none` when it is not enabled or an assertion fails. -/
def step (n : Nat) (s : Heap) : Action → Option Heap
  | .make => some s.make
  | .copy (.strong i) =>
      if s.reaches (.strong i) then some ((s.addStrong i).addRoot (.strong i)) else none
  | .copy (.weak i) =>
      if s.reaches (.weak i) then (s.addWeak i).map fun s => s.addRoot (.weak i) else none
  | .weaken i =>
      if s.reaches (.strong i) then (s.addWeak i).map fun s => s.addRoot (.weak i) else none
  | .promote i => if s.reaches (.weak i) then s.promote i else none
  | .store h j k =>
      if 0 < s.roots h ∧ 0 < (s.blocks j).strongCount then
        some { s.subRoot h with
          members := update s.members j ((s.members j).take k ++ h :: (s.members j).drop k) }
      else none
  | .dropRoot t h =>
      if t < n ∧ 0 < s.roots h then
        some ((s.subRoot h).setStack t (.drop h :: s.pending t))
      else none
  | .dropMember t j k =>
      match (s.members j)[k]? with
      | none => none
      | some h =>
          if t < n ∧ 0 < (s.blocks j).strongCount then
            some ({ s with members := update s.members j ((s.members j).eraseIdx k) }.setStack t
              (.drop h :: s.pending t))
          else none
  | .advance t => if t < n then s.advance t else none

end Heap

end Shared

end BadApple
