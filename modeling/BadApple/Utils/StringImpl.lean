/-
  Lazy strings (kernel/utils.h).

  1. **Trees** — a `StringImpl` is a literal, or remembers what it is made of; `at` goes down the tree with
     shifted indices, and has no result where an assertion fails.  Lengths are 32-bit words.
  2. **Operations** — those of `String`.  They may shorten the tree, and the constructor of a slice checks
     its bounds.  Memory does not run out.
  3. **Expressions** — what a string is built from, the string that is built (`eval`), and the list that it
     stands for (`meaning`).
-/
import BadApple.Word

namespace BadApple.Utils

/-! ## Trees -/

/-- `StringImpl`, by its subclasses.  A buffer lies in memory. -/
inductive StringImpl where
  | empty
  | simple (buffer : List UInt8) (h : buffer.length < 4294967296)
  | concat (lhs rhs : StringImpl)
  | replace (base : StringImpl) (c c' : UInt8)
  | slice (base : StringImpl) (start stop : Nat)
deriving DecidableEq, Repr

namespace StringImpl

/-- `StringImpl::length`. -/
def length : StringImpl → Nat
  | .empty => 0
  | .simple buffer _ => buffer.length
  | .concat lhs rhs => u32 (lhs.length + rhs.length)
  | .replace base _ _ => base.length
  | .slice _ start stop => u32 (stop + 4294967296 - start + 1)

theorem length_lt : ∀ s : StringImpl, s.length < 4294967296
  | .empty => Nat.zero_lt_succ _
  | .simple _ h => h
  | .concat _ _ => u32_lt _
  | .replace base _ _ => base.length_lt
  | .slice _ _ _ => u32_lt _

/-- `at(index)`; no result where an assertion fails. -/
def charAt : StringImpl → Nat → Option UInt8
  | .empty, _ => none
  | .simple buffer _, index => buffer[index]?
  | .concat lhs rhs, index =>
    if index < (concat lhs rhs).length then
      if index < lhs.length then lhs.charAt index else rhs.charAt (index - lhs.length)
    else none
  | .replace base c c', index =>
    if index < base.length then (base.charAt index).map fun ch => if ch = c then c' else ch else none
  | .slice base start stop, index =>
    if index < (slice base start stop).length then base.charAt (u32 (index + start)) else none

/-- The loop of `toC`, up to `n`. -/
def fill (s : StringImpl) : (n : Nat) → Option (List UInt8)
  | 0 => some []
  | n + 1 => do
    let data ← s.fill n
    let ch ← s.charAt n
    return data ++ [ch]

/-- `toC`; the constructor of the buffer asserts that its size is not 0. -/
def toC (s : StringImpl) : Option (List UInt8) :=
  if u32 (s.length + 1) = 0 then none else (s.fill s.length).map fun data => data ++ [0]

end StringImpl

/-! ## Operations -/

/-- What can go wrong: an assertion in a constructor, or in `at`. -/
inductive Failure where
  | constructor
  | index
deriving DecidableEq, Repr

namespace StringImpl

/-- `operator+`. -/
def add (lhs rhs : StringImpl) : StringImpl :=
  if lhs.length = 0 then rhs else if rhs.length = 0 then lhs else .concat lhs rhs

/-- `String::replace`. -/
def replaced (s : StringImpl) (c c' : UInt8) : StringImpl := if c = c' then s else .replace s c c'

/-- The constructor of `Slice`. -/
def newSlice (base : StringImpl) (start stop : Nat) : Except Failure StringImpl :=
  if (slice base start stop).length ≤ base.length ∧ start ≤ base.length ∧ stop ≤ base.length then
    .ok (.slice base start stop)
  else .error .constructor

/-- `String::slice`. -/
def sliced (s : StringImpl) (start stop : Nat) : Except Failure StringImpl :=
  if start = 0 ∧ stop = u32 (s.length + 4294967295) then .ok s
  else if start > stop then .ok (.simple [] (Nat.zero_lt_succ _))
  else newSlice s start stop

/-- The loop of `drop_while` from index `i` on, `n` indices being left. -/
def dropLoop (s : StringImpl) (work : UInt8 → Bool) : (n i : Nat) → Except Failure StringImpl
  | 0, _ => .ok .empty
  | n + 1, i =>
    match s.charAt i with
    | none => .error .index
    | some ch => if work ch then s.dropLoop work n (i + 1) else s.sliced i (u32 (s.length + 4294967295))

/-- `String::drop_while`. -/
def dropWhile (s : StringImpl) (work : UInt8 → Bool) : Except Failure StringImpl := s.dropLoop work s.length 0

/-- The loop of `keep_while` from index `i` on, `n` indices being left. -/
def keepLoop (s : StringImpl) (work : UInt8 → Bool) : (n i : Nat) → Except Failure StringImpl
  | 0, _ => .ok s
  | n + 1, i =>
    match s.charAt i with
    | none => .error .index
    | some ch => if work ch then s.keepLoop work n (i + 1) else if i = 0 then .ok .empty else s.sliced 0 (i - 1)

/-- `String::keep_while`. -/
def keepWhile (s : StringImpl) (work : UInt8 → Bool) : Except Failure StringImpl := s.keepLoop work s.length 0

/-- `String::starts_with`. -/
def startsWith (s : StringImpl) (c : UInt8) : Option Bool :=
  if 0 < s.length then (s.charAt 0).map fun ch => ch == c else some false

end StringImpl

/-! ## Expressions -/

/-- How a string is built.  The bounds of a slice are 32-bit words. -/
inductive Expr where
  | none
  | lit (cs : List UInt8) (h : cs.length < 4294967296)
  | add (lhs rhs : Expr)
  | replace (base : Expr) (c c' : UInt8)
  | slice (base : Expr) (start stop : UInt32)
  | dropWhile (base : Expr) (work : UInt8 → Bool)
  | keepWhile (base : Expr) (work : UInt8 → Bool)

namespace Expr

/-- The string that is built. -/
def eval : Expr → Except Failure StringImpl
  | .none => .ok .empty
  | .lit cs h => .ok (.simple cs h)
  | .add lhs rhs => do
    let s ← lhs.eval
    let t ← rhs.eval
    return s.add t
  | .replace base c c' => do
    let s ← base.eval
    return s.replaced c c'
  | .slice base start stop => do
    let s ← base.eval
    s.sliced start.toNat stop.toNat
  | .dropWhile base work => do
    let s ← base.eval
    s.dropWhile work
  | .keepWhile base work => do
    let s ← base.eval
    s.keepWhile work

/-- The list of characters that is meant. -/
def meaning : Expr → List UInt8
  | .none => []
  | .lit cs _ => cs
  | .add lhs rhs => lhs.meaning ++ rhs.meaning
  | .replace base c c' => base.meaning.map fun ch => if ch = c then c' else ch
  | .slice base start stop =>
    if start > stop then [] else (base.meaning.drop start.toNat).take (stop.toNat - start.toNat + 1)
  | .dropWhile base work => base.meaning.dropWhile work
  | .keepWhile base work => base.meaning.takeWhile work

/-- All strings that are built on the way, the last one first. -/
def parts : Expr → List Expr
  | .none => [.none]
  | .lit cs h => [.lit cs h]
  | .add lhs rhs => .add lhs rhs :: (lhs.parts ++ rhs.parts)
  | .replace base c c' => .replace base c c' :: base.parts
  | .slice base start stop => .slice base start stop :: base.parts
  | .dropWhile base work => .dropWhile base work :: base.parts
  | .keepWhile base work => .keepWhile base work :: base.parts

end Expr

end BadApple.Utils
