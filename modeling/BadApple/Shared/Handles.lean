/-
  Shared pointers used by one thread after another: every handle is counted (kernel/shared.h).

  1. **Program** — the handles of a program are variables, strong and weak ones, each with its pointer to a
     control block; a variable that has been destroyed is `none`.  The destructors of the objects hold no
     handles, so `delete ptr->obj` does nothing to other objects; what is deleted is counted.
  2. **Operations** — those of `StrongPtr` and `WeakPtr`, in terms of `add_strong`, `drop_strong`,
     `add_weak`, `drop_weak` and `promote_weak`.  `none` is a failed assertion, or the use of a deleted
     control block.
  3. **Invariant** — `Holds s S W`: block `i` is as it has to be with `S i` strong and `W i` weak handles.
     Each function changes one of the two by one; the operations put these together.
  4. **The result** — `handles_counted`.
-/
import BadApple.Shared.Model
import BadApple.Lib.Runs

namespace BadApple

open Function (update)

namespace Shared

/-! ## The program -/

/-- A handle: destroyed, or with its pointer, which may be null. -/
abbrev Variable := Option (Option Nat)

/-- Control blocks, how often `delete` ran on the object of each and on the block itself, and the handles. -/
structure Program where
  blocks : Nat → Intermediate
  next : Nat
  objDeletes : Nat → Nat
  ptrDeletes : Nat → Nat
  strong : List Variable
  weak : List Variable

/-- A raw pointer to assign: null, to a new object, or to the object the handle already has. -/
inductive Raw where
  | null
  | fresh
  | own
deriving DecidableEq, Repr

/-- What a program does with handles.  Variables are numbered; a new one takes the next number. -/
inductive Op where
  | null
  | wrap
  | copy (y : Nat)
  | assign (x y : Nat)
  | assignRaw (x : Nat) (rhs : Raw)
  | destroy (x : Nat)
  | weaken (y : Nat)
  | copyWeak (y : Nat)
  | assignWeak (x y : Nat)
  | destroyWeak (x : Nat)
  | promote (y : Nat)
deriving DecidableEq, Repr

namespace Program

/-- No handles yet. -/
def empty : Program := ⟨fun _ => .none, 0, fun _ => 0, fun _ => 0, [], []⟩

/-- Change a control block. -/
def setBlock (s : Program) (i : Nat) (b : Intermediate) : Program :=
  { s with blocks := update s.blocks i b }

/-- `new Intermediate{p}`: the block is `s.next`. -/
def make (s : Program) : Program := { s.setBlock s.next .make with next := s.next + 1 }

/-- `delete ptr->obj; ptr->obj = nullptr`. -/
def deleteObj (s : Program) (i : Nat) : Program :=
  { s.setBlock i { s.blocks i with obj := false } with
    objDeletes := update s.objDeletes i (s.objDeletes i + 1) }

/-- `delete ptr`. -/
def deletePtr (s : Program) (i : Nat) : Program :=
  { s.setBlock i { s.blocks i with deleted := true } with
    ptrDeletes := update s.ptrDeletes i (s.ptrDeletes i + 1) }

/-- `add_strong`. -/
def addStrong (s : Program) : Option Nat → Option Program
  | none => some s
  | some i =>
    let b := s.blocks i
    if b.deleted then none
    else if b.obj then some (s.setBlock i { b with strongCount := b.strongCount + 1 })
    else some s

/-- `drop_strong`. -/
def dropStrong (s : Program) : Option Nat → Option Program
  | none => some s
  | some i =>
    let b := s.blocks i
    if b.deleted then none
    else if b.strongCount > 0 ∧ b.obj then
      let s := s.setBlock i { b with strongCount := b.strongCount - 1 }
      if b.strongCount - 1 = 0 then
        if b.weakCount = 0 then some ((s.deleteObj i).deletePtr i) else some (s.deleteObj i)
      else some s
    else none

/-- `add_weak`. -/
def addWeak (s : Program) : Option Nat → Option Program
  | none => some s
  | some i =>
    let b := s.blocks i
    if b.deleted then none
    else if b.weakCount > 0 ∨ b.strongCount > 0 then
      some (s.setBlock i { b with weakCount := b.weakCount + 1 })
    else none

/-- `drop_weak`. -/
def dropWeak (s : Program) : Option Nat → Option Program
  | none => some s
  | some i =>
    let b := s.blocks i
    if b.deleted then none
    else if b.weakCount > 0 then
      let s := s.setBlock i { b with weakCount := b.weakCount - 1 }
      if b.weakCount - 1 = 0 ∧ b.strongCount = 0 then some (s.deletePtr i) else some s
    else none

/-- `promote_weak`: the pointer it returns. -/
def promoteWeak (s : Program) : Option Nat → Option (Option Nat × Program)
  | none => some (none, s)
  | some i =>
    let b := s.blocks i
    if b.deleted then none
    else if b.weakCount > 0 then
      if b.strongCount > 0 then
        some (some i, s.setBlock i { b with strongCount := b.strongCount + 1 })
      else some (none, s)
    else none

/-- The pointer in a handle that is alive. -/
def strongPtr (s : Program) (x : Nat) : Option (Option Nat) := (s.strong[x]?).join
def weakPtr (s : Program) (x : Nat) : Option (Option Nat) := (s.weak[x]?).join

/-- A new handle. -/
def pushStrong (s : Program) (p : Option Nat) : Program := { s with strong := s.strong ++ [some p] }
def pushWeak (s : Program) (p : Option Nat) : Program := { s with weak := s.weak ++ [some p] }

/-- A handle changed or destroyed. -/
def setStrong (s : Program) (x : Nat) (v : Variable) : Program := { s with strong := s.strong.set x v }
def setWeak (s : Program) (x : Nat) (v : Variable) : Program := { s with weak := s.weak.set x v }

/-- One operation. -/
def step (s : Program) : Op → Option Program
  | .null => some (s.pushStrong none)
  | .wrap => some (s.make.pushStrong (some s.next))
  | .copy y => do
    let p ← s.strongPtr y
    let s ← s.addStrong p
    some (s.pushStrong p)
  | .assign x y => do
    let p ← s.strongPtr x
    let q ← s.strongPtr y
    if p ≠ q then do
      let s ← s.addStrong q
      let s ← s.dropStrong p
      some (s.setStrong x (some q))
    else some s
  | .assignRaw x .null => do
    let p ← s.strongPtr x
    let s ← s.dropStrong p
    some (s.setStrong x (some none))
  | .assignRaw x .own => do
    let p ← s.strongPtr x
    -- `rhs` is read through `operator->`, which asserts that both pointers are non-null
    match p with
    | none => none
    | some i => if (s.blocks i).deleted = false ∧ (s.blocks i).obj then some s else none
  | .assignRaw x .fresh => do
    let p ← s.strongPtr x
    let s ← s.dropStrong p
    some (s.make.setStrong x (some (some s.next)))
  | .destroy x => do
    let p ← s.strongPtr x
    let s ← s.dropStrong p
    some (s.setStrong x none)
  | .weaken y => do
    let p ← s.strongPtr y
    let s ← s.addWeak p
    some (s.pushWeak p)
  | .copyWeak y => do
    let p ← s.weakPtr y
    let s ← s.addWeak p
    some (s.pushWeak p)
  | .assignWeak x y => do
    let p ← s.weakPtr x
    let q ← s.weakPtr y
    if q = p then some s
    else do
      let s ← s.addWeak q
      let s ← s.dropWeak p
      some (s.setWeak x (some q))
  | .destroyWeak x => do
    let p ← s.weakPtr x
    let s ← s.dropWeak p
    some (s.setWeak x none)
  | .promote y => do
    let p ← s.weakPtr y
    let (r, s) ← s.promoteWeak p
    some (s.pushStrong r)

/-- The operation uses handles that are alive, and `operator->` on a pointer that is not null. -/
def Legal (s : Program) : Op → Prop
  | .null | .wrap => True
  | .copy y | .weaken y | .destroy y => ∃ p, s.strongPtr y = some p
  | .assign x y => (∃ p, s.strongPtr x = some p) ∧ ∃ q, s.strongPtr y = some q
  | .assignRaw x .own => ∃ i, s.strongPtr x = some (some i)
  | .assignRaw x _ => ∃ p, s.strongPtr x = some p
  | .copyWeak y | .destroyWeak y | .promote y => ∃ p, s.weakPtr y = some p
  | .assignWeak x y => (∃ p, s.weakPtr x = some p) ∧ ∃ q, s.weakPtr y = some q

end Program

/-- The programs reached by any sequence of operations. -/
def Programs : Program → Prop :=
  Runs.Reached (fun s => s = Program.empty) fun s op s' => s.Legal op ∧ s.step op = some s'

/-! ## Counting handles -/

/-- The live handles on block `i`. -/
def held : List Variable → Nat → Nat
  | [], _ => 0
  | v :: vs, i => (if v = some (some i) then 1 else 0) + held vs i

/-- One handle on the block that `p` points to. -/
def ones (p : Option Nat) (i : Nat) : Nat := if p = some i then 1 else 0

variable {s s' s₁ s₂ : Program} {S W S₁ W₁ S₂ W₂ : Nat → Nat} {vs : List Variable} {p q : Option Nat}
  {i x y : Nat} {b : Intermediate}

theorem held_push (vs : List Variable) (p : Option Nat) (i : Nat) :
    held (vs ++ [some p]) i = held vs i + ones p i := by
  induction vs with
  | nil =>
    rw [List.nil_append, held, held, held]
    unfold ones
    simp only [Option.some.injEq, Nat.add_zero, Nat.zero_add]
  | cons v vs ih =>
    rw [List.cons_append, held, held, ih, Nat.add_assoc]

/-- What a variable counts for. -/
def Variable.ones : Variable → Nat → Nat
  | none, _ => 0
  | some p, i => Shared.ones p i

theorem held_cons (v : Variable) (vs : List Variable) (i : Nat) :
    held (v :: vs) i = v.ones i + held vs i := by
  rw [held]
  cases v with
  | none => rfl
  | some p =>
    show _ = (if p = some i then 1 else 0) + held vs i
    simp only [Option.some.injEq]

/-- **A variable is set**: what it was is no longer counted, what it is now is. -/
theorem held_set : ∀ {vs : List Variable} {x : Nat} {v : Variable}, vs[x]? = some v →
    ∀ (v' : Variable) (i : Nat), held (vs.set x v') i + v.ones i = held vs i + v'.ones i := by
  intro vs
  induction vs with
  | nil =>
    intro x v hx
    simp at hx
  | cons u vs ih =>
    intro x v hx v' i
    cases x with
    | zero =>
      obtain rfl : u = v := Option.some.inj hx
      rw [List.set_cons_zero, held_cons, held_cons]
      omega
    | succ x =>
      have h := ih (x := x) hx v' i
      rw [List.set_cons_succ, held_cons, held_cons]
      omega

/-- A handle that is alive is counted. -/
theorem held_pos : ∀ {vs : List Variable} {x i : Nat}, vs[x]? = some (some (some i)) → 0 < held vs i := by
  intro vs
  induction vs with
  | nil =>
    intro x i hx
    simp at hx
  | cons v vs ih =>
    intro x i hx
    rw [held_cons]
    cases x with
    | zero =>
      obtain rfl : v = some (some i) := Option.some.inj hx
      have hone : Variable.ones (some (some i)) i = 1 := if_pos rfl
      omega
    | succ x =>
      have h := ih (x := x) hx
      omega

/-! ## The invariant -/

/-- A control block with `S` strong and `W` weak handles; `od` and `pd` say how often its object and the
    block itself have been deleted. -/
structure Counted (b : Intermediate) (S W od pd : Nat) : Prop where
  strong_eq : b.strongCount = S
  weak_eq : b.weakCount = W
  obj_iff : b.obj = true ↔ 0 < S
  deleted_iff : b.deleted = true ↔ S = 0 ∧ W = 0
  objDeletes : od = if S = 0 then 1 else 0
  ptrDeletes : pd = if S = 0 ∧ W = 0 then 1 else 0

/-- All blocks, with `S` and `W` handles. -/
structure Holds (s : Program) (S W : Nat → Nat) : Prop where
  block : ∀ i, i < s.next → Counted (s.blocks i) (S i) (W i) (s.objDeletes i) (s.ptrDeletes i)
  new : ∀ i, s.next ≤ i → S i = 0 ∧ W i = 0 ∧ s.objDeletes i = 0 ∧ s.ptrDeletes i = 0

/-- What a function on control blocks does: it leaves the handles alone, deletes nothing that was deleted
    again, and the blocks are right for other numbers of handles. -/
structure Effect (s s' : Program) (S W : Nat → Nat) : Prop where
  holds : Holds s' S W
  strong_eq : s'.strong = s.strong
  weak_eq : s'.weak = s.weak
  next_le : s.next ≤ s'.next
  objDeletes_le : ∀ i, s.objDeletes i ≤ s'.objDeletes i
  ptrDeletes_le : ∀ i, s.ptrDeletes i ≤ s'.ptrDeletes i

theorem Holds.effect (h : Holds s S W) : Effect s s S W :=
  ⟨h, rfl, rfl, Nat.le_refl _, fun _ => Nat.le_refl _, fun _ => Nat.le_refl _⟩

theorem Effect.trans (h₁ : Effect s s₁ S₁ W₁) (h₂ : Effect s₁ s₂ S₂ W₂) : Effect s s₂ S₂ W₂ :=
  ⟨h₂.holds, h₂.strong_eq.trans h₁.strong_eq, h₂.weak_eq.trans h₁.weak_eq,
    Nat.le_trans h₁.next_le h₂.next_le,
    fun i => Nat.le_trans (h₁.objDeletes_le i) (h₂.objDeletes_le i),
    fun i => Nat.le_trans (h₁.ptrDeletes_le i) (h₂.ptrDeletes_le i)⟩

theorem Holds.congr (h : Holds s S W) (hS : ∀ i, S i = S₁ i) (hW : ∀ i, W i = W₁ i) : Holds s S₁ W₁ := by
  obtain rfl : S = S₁ := funext hS
  obtain rfl : W = W₁ := funext hW
  exact h

/-- A block with a handle is there. -/
theorem Holds.lt_next (h : Holds s S W) (hpos : 0 < S i ∨ 0 < W i) : i < s.next := by
  by_contra hge
  have := h.new i (by omega)
  omega

/-- **One block changes.** -/
theorem Holds.update_block (h : Holds s S W) (hi : i < s.next)
    (hb : Counted (s'.blocks i) (S₁ i) (W₁ i) (s'.objDeletes i) (s'.ptrDeletes i))
    (hnext : s'.next = s.next) (hstrong : s'.strong = s.strong) (hweak : s'.weak = s.weak)
    (hle : s.objDeletes i ≤ s'.objDeletes i ∧ s.ptrDeletes i ≤ s'.ptrDeletes i)
    (hother : ∀ j, j ≠ i → s'.blocks j = s.blocks j ∧ s'.objDeletes j = s.objDeletes j ∧
      s'.ptrDeletes j = s.ptrDeletes j ∧ S₁ j = S j ∧ W₁ j = W j) : Effect s s' S₁ W₁ := by
  refine ⟨⟨fun j hj => ?_, fun j hj => ?_⟩, hstrong, hweak, Nat.le_of_eq hnext.symm, fun j => ?_, fun j => ?_⟩
  · by_cases hji : j = i
    · subst hji
      exact hb
    · obtain ⟨h1, h2, h3, h4, h5⟩ := hother j hji
      rw [h1, h2, h3, h4, h5]
      exact h.block j (hnext ▸ hj)
  · have hji : j ≠ i := by omega
    obtain ⟨-, h2, h3, h4, h5⟩ := hother j hji
    rw [h2, h3, h4, h5]
    exact h.new j (hnext ▸ hj)
  · by_cases hji : j = i
    · subst hji
      exact hle.1
    · exact Nat.le_of_eq (hother j hji).2.1.symm
  · by_cases hji : j = i
    · subst hji
      exact hle.2
    · exact Nat.le_of_eq (hother j hji).2.2.1.symm

theorem ones_self (i : Nat) : ones (some i) i = 1 := if_pos rfl

theorem ones_of_ne {i j : Nat} (h : j ≠ i) : ones (some i) j = 0 := by
  unfold ones
  rw [if_neg]
  intro heq
  exact h (Option.some.inj heq).symm

theorem ones_none (i : Nat) : ones none i = 0 := rfl

/-! ## The functions on control blocks -/

/-- **`add_strong`**, from a handle that is alive. -/
theorem Holds.addStrong (h : Holds s S W) (hp : ∀ i, p = some i → 0 < S i) :
    ∃ s', s.addStrong p = some s' ∧ Effect s s' (fun i => S i + ones p i) W := by
  cases p with
  | none => exact ⟨s, rfl, (h.congr (fun i => by rw [ones_none]; rfl) fun _ => rfl).effect⟩
  | some i =>
    have hpos := hp i rfl
    have hi := h.lt_next (Or.inl hpos)
    have hb := h.block i hi
    have hdel : ¬ (s.blocks i).deleted = true := by
      rw [hb.deleted_iff]
      omega
    unfold Program.addStrong
    simp only
    rw [if_neg hdel, if_pos (hb.obj_iff.2 hpos)]
    refine ⟨_, rfl, h.update_block hi ?_ rfl rfl rfl ⟨Nat.le_refl _, Nat.le_refl _⟩ fun j hj => ?_⟩
    · simp only [Program.setBlock, Function.update_self, ones_self]
      refine ⟨by rw [hb.strong_eq], hb.weak_eq, ?_, ?_, ?_, ?_⟩
      · rw [hb.obj_iff]
        omega
      · rw [hb.deleted_iff]
        omega
      · rw [hb.objDeletes, if_neg (by omega), if_neg (by omega)]
      · rw [hb.ptrDeletes, if_neg (by omega), if_neg (by omega)]
    · simp only [Program.setBlock, Function.update_of_ne hj, ones_of_ne hj]
      exact ⟨trivial, trivial, trivial, rfl, trivial⟩

/-- **`drop_strong`** of one handle. -/
theorem Holds.dropStrong (h : Holds s (fun i => S i + ones p i) W) :
    ∃ s', s.dropStrong p = some s' ∧ Effect s s' S W := by
  cases p with
  | none => exact ⟨s, rfl, (h.congr (fun i => by rw [ones_none]; rfl) fun _ => rfl).effect⟩
  | some i =>
    have hi : i < s.next := h.lt_next (i := i) (Or.inl (by rw [ones_self]; omega))
    have hb := h.block i hi
    rw [ones_self] at hb
    have hstrong := hb.strong_eq
    have hdel : ¬ (s.blocks i).deleted = true := by
      rw [hb.deleted_iff]
      omega
    have hobj : (s.blocks i).obj = true := hb.obj_iff.2 (by omega)
    have hod := hb.objDeletes
    have hpd := hb.ptrDeletes
    rw [if_neg (by omega)] at hod hpd
    have hother : ∀ j, j ≠ i → S j = S j + ones (some i) j := by
      intro j hj
      rw [ones_of_ne hj]
      rfl
    unfold Program.dropStrong
    simp only
    rw [if_neg hdel, if_pos ⟨by omega, hobj⟩]
    by_cases hlast : (s.blocks i).strongCount - 1 = 0
    · rw [if_pos hlast]
      have hS : S i = 0 := by omega
      by_cases hweak : (s.blocks i).weakCount = 0
      · -- the object and the block are deleted
        rw [if_pos hweak]
        refine ⟨_, rfl, h.update_block hi ?_ rfl rfl rfl ?_ fun j hj => ?_⟩
        · simp only [Program.deletePtr, Program.deleteObj, Program.setBlock, Function.update_self]
          have hW : W i = 0 := by rw [← hb.weak_eq]; exact hweak
          refine ⟨by rw [hS]; exact hlast, hb.weak_eq, ?_, ?_, ?_, ?_⟩
          · simp [hS]
          · simp [hS, hW]
          · rw [hod, if_pos hS]
          · rw [hpd, if_pos ⟨hS, hW⟩]
        · simp only [Program.deletePtr, Program.deleteObj, Program.setBlock, Function.update_self]
          omega
        · simp only [Program.deletePtr, Program.deleteObj, Program.setBlock, Function.update_of_ne hj]
          exact ⟨trivial, trivial, trivial, hother j hj, trivial⟩
      · -- the object is deleted
        rw [if_neg hweak]
        refine ⟨_, rfl, h.update_block hi ?_ rfl rfl rfl ?_ fun j hj => ?_⟩
        · simp only [Program.deleteObj, Program.setBlock, Function.update_self]
          have hW : W i ≠ 0 := by rw [← hb.weak_eq]; exact hweak
          refine ⟨by rw [hS]; exact hlast, hb.weak_eq, ?_, ?_, ?_, ?_⟩
          · simp [hS]
          · rw [hb.deleted_iff]
            omega
          · rw [hod, if_pos hS]
          · rw [hpd, if_neg (by omega)]
        · simp only [Program.deleteObj, Program.setBlock, Function.update_self]
          omega
        · simp only [Program.deleteObj, Program.setBlock, Function.update_of_ne hj]
          exact ⟨trivial, trivial, trivial, hother j hj, trivial⟩
    · rw [if_neg hlast]
      refine ⟨_, rfl, h.update_block hi ?_ rfl rfl rfl ⟨Nat.le_refl _, Nat.le_refl _⟩ fun j hj => ?_⟩
      · simp only [Program.setBlock, Function.update_self]
        refine ⟨show (s.blocks i).strongCount - 1 = S i by omega, hb.weak_eq, ?_, ?_, ?_, ?_⟩
        · rw [hb.obj_iff]
          omega
        · rw [hb.deleted_iff]
          omega
        · rw [hod, if_neg (by omega)]
        · rw [hpd, if_neg (by omega)]
      · simp only [Program.setBlock, Function.update_of_ne hj]
        exact ⟨trivial, trivial, trivial, hother j hj, trivial⟩

/-- **`add_weak`**, from a handle of either kind. -/
theorem Holds.addWeak (h : Holds s S W) (hp : ∀ i, p = some i → 0 < S i ∨ 0 < W i) :
    ∃ s', s.addWeak p = some s' ∧ Effect s s' S (fun i => W i + ones p i) := by
  cases p with
  | none => exact ⟨s, rfl, (h.congr (fun _ => rfl) fun i => by rw [ones_none]; rfl).effect⟩
  | some i =>
    have hpos := hp i rfl
    have hi := h.lt_next hpos
    have hb := h.block i hi
    have hstrong := hb.strong_eq
    have hweak := hb.weak_eq
    have hdel : ¬ (s.blocks i).deleted = true := by
      rw [hb.deleted_iff]
      omega
    unfold Program.addWeak
    simp only
    rw [if_neg hdel, if_pos (by omega)]
    refine ⟨_, rfl, h.update_block hi ?_ rfl rfl rfl ⟨Nat.le_refl _, Nat.le_refl _⟩ fun j hj => ?_⟩
    · simp only [Program.setBlock, Function.update_self, ones_self]
      refine ⟨hstrong, by rw [hweak], hb.obj_iff, ?_, hb.objDeletes, ?_⟩
      · rw [hb.deleted_iff]
        omega
      · rw [hb.ptrDeletes, if_neg (by omega), if_neg (by omega)]
    · simp only [Program.setBlock, Function.update_of_ne hj, ones_of_ne hj]
      exact ⟨trivial, trivial, trivial, trivial, rfl⟩

/-- **`drop_weak`** of one handle. -/
theorem Holds.dropWeak (h : Holds s S (fun i => W i + ones p i)) :
    ∃ s', s.dropWeak p = some s' ∧ Effect s s' S W := by
  cases p with
  | none => exact ⟨s, rfl, (h.congr (fun _ => rfl) fun i => by rw [ones_none]; rfl).effect⟩
  | some i =>
    have hi : i < s.next := h.lt_next (i := i) (Or.inr (by rw [ones_self]; omega))
    have hb := h.block i hi
    rw [ones_self] at hb
    have hstrong := hb.strong_eq
    have hweak := hb.weak_eq
    have hdel : ¬ (s.blocks i).deleted = true := by
      rw [hb.deleted_iff]
      omega
    have hpd := hb.ptrDeletes
    rw [if_neg (by omega)] at hpd
    have hother : ∀ j, j ≠ i → W j = W j + ones (some i) j := by
      intro j hj
      rw [ones_of_ne hj]
      rfl
    unfold Program.dropWeak
    simp only
    rw [if_neg hdel, if_pos (show (s.blocks i).weakCount > 0 by omega)]
    by_cases hlast : (s.blocks i).weakCount - 1 = 0 ∧ (s.blocks i).strongCount = 0
    · rw [if_pos hlast]
      refine ⟨_, rfl, h.update_block hi ?_ rfl rfl rfl ?_ fun j hj => ?_⟩
      · simp only [Program.deletePtr, Program.setBlock, Function.update_self]
        have hW : W i = 0 := by omega
        have hS : S i = 0 := by omega
        refine ⟨hstrong, show (s.blocks i).weakCount - 1 = W i by omega, hb.obj_iff, ?_, hb.objDeletes, ?_⟩
        · simp [hS, hW]
        · rw [hpd, if_pos ⟨hS, hW⟩]
      · simp only [Program.deletePtr, Program.setBlock, Function.update_self]
        omega
      · simp only [Program.deletePtr, Program.setBlock, Function.update_of_ne hj]
        exact ⟨trivial, trivial, trivial, trivial, hother j hj⟩
    · rw [if_neg hlast]
      refine ⟨_, rfl, h.update_block hi ?_ rfl rfl rfl ⟨Nat.le_refl _, Nat.le_refl _⟩ fun j hj => ?_⟩
      · simp only [Program.setBlock, Function.update_self]
        refine ⟨hstrong, show (s.blocks i).weakCount - 1 = W i by omega, hb.obj_iff, ?_, hb.objDeletes, ?_⟩
        · rw [hb.deleted_iff]
          omega
        · rw [hpd, if_neg (by omega)]
      · simp only [Program.setBlock, Function.update_of_ne hj]
        exact ⟨trivial, trivial, trivial, trivial, hother j hj⟩

/-- **`promote_weak`**: the pointer comes back exactly if a strong handle is left. -/
theorem Holds.promoteWeak (h : Holds s S W) (hp : ∀ i, p = some i → 0 < W i) :
    ∃ r s', s.promoteWeak p = some (r, s') ∧ Effect s s' (fun i => S i + ones r i) W ∧
      (r ≠ none ↔ ∃ i, p = some i ∧ 0 < S i) ∧ (r ≠ none → r = p) := by
  cases p with
  | none =>
    refine ⟨none, s, rfl, (h.congr (fun i => by rw [ones_none]; rfl) fun _ => rfl).effect, ?_, by simp⟩
    simp
  | some i =>
    have hpos := hp i rfl
    have hi := h.lt_next (Or.inr hpos)
    have hb := h.block i hi
    have hstrong := hb.strong_eq
    have hweak := hb.weak_eq
    have hdel : ¬ (s.blocks i).deleted = true := by
      rw [hb.deleted_iff]
      omega
    unfold Program.promoteWeak
    simp only
    rw [if_neg hdel, if_pos (show (s.blocks i).weakCount > 0 by omega)]
    by_cases hS : (s.blocks i).strongCount > 0
    · rw [if_pos hS]
      refine ⟨some i, _, rfl, ?_, ⟨fun _ => ⟨i, rfl, by omega⟩, by simp⟩, fun _ => rfl⟩
      refine h.update_block hi ?_ rfl rfl rfl ⟨Nat.le_refl _, Nat.le_refl _⟩ fun j hj => ?_
      · simp only [Program.setBlock, Function.update_self, ones_self]
        refine ⟨by rw [hstrong], hweak, ?_, ?_, ?_, ?_⟩
        · rw [hb.obj_iff]
          omega
        · rw [hb.deleted_iff]
          omega
        · rw [hb.objDeletes, if_neg (by omega), if_neg (by omega)]
        · rw [hb.ptrDeletes, if_neg (by omega), if_neg (by omega)]
      · simp only [Program.setBlock, Function.update_of_ne hj, ones_of_ne hj]
        exact ⟨trivial, trivial, trivial, rfl, trivial⟩
    · rw [if_neg hS]
      refine ⟨none, s, rfl, (h.congr (fun i => by rw [ones_none]; rfl) fun _ => rfl).effect, ?_, by simp⟩
      constructor
      · intro hne
        simp at hne
      · rintro ⟨j, heq, hj⟩
        obtain rfl := Option.some.inj heq
        omega

/-- **`new Intermediate`**: a block with one strong handle. -/
theorem Holds.make (h : Holds s S W) :
    Effect s s.make (fun i => S i + ones (some s.next) i) W := by
  obtain ⟨hS, hW, hod, hpd⟩ := h.new s.next (Nat.le_refl _)
  refine ⟨⟨fun i hi => ?_, fun i hi => ?_⟩, rfl, rfl, Nat.le_succ _, fun _ => Nat.le_refl _,
    fun _ => Nat.le_refl _⟩
  · simp only [Program.make, Program.setBlock]
    by_cases hin : i = s.next
    · subst hin
      rw [Function.update_self, ones_self, hS, hW, hod, hpd]
      exact ⟨rfl, rfl, by decide, by decide, rfl, rfl⟩
    · have hi' : i < s.next + 1 := hi
      rw [Function.update_of_ne hin, ones_of_ne hin]
      exact h.block i (by omega)
  · have hi' : s.next + 1 ≤ i := hi
    rw [ones_of_ne (by omega)]
    exact h.new i (by omega)

/-! ## The operations -/

/-- **The invariant of a program**: its blocks have the handles that are alive. -/
def HandlesOk (s : Program) : Prop := Holds s (held s.strong) (held s.weak)

theorem handlesOk_empty : HandlesOk Program.empty :=
  ⟨fun i hi => absurd hi (Nat.not_lt_zero i), fun _ _ => ⟨rfl, rfl, rfl, rfl⟩⟩

/-- What one operation does: it keeps the invariant and deletes nothing again. -/
structure Stepped (s s' : Program) : Prop where
  ok : HandlesOk s'
  next_le : s.next ≤ s'.next
  objDeletes_le : ∀ i, s.objDeletes i ≤ s'.objDeletes i
  ptrDeletes_le : ∀ i, s.ptrDeletes i ≤ s'.ptrDeletes i

theorem HandlesOk.stepped (h : HandlesOk s) : Stepped s s :=
  ⟨h, Nat.le_refl _, fun _ => Nat.le_refl _, fun _ => Nat.le_refl _⟩

theorem Program.strongPtr_eq (h : s.strongPtr x = some p) : s.strong[x]? = some (some p) :=
  Option.join_eq_some_iff.1 h

theorem Program.weakPtr_eq (h : s.weakPtr x = some p) : s.weak[x]? = some (some p) :=
  Option.join_eq_some_iff.1 h

/-- The handle with the pointer `p` has been taken from the count already. -/
theorem held_without (hx : vs[x]? = some (some p)) (i : Nat) :
    held vs i = held (vs.set x none) i + ones p i := by
  have h := held_set hx none i
  simp only [Variable.ones] at h
  omega

theorem held_with (hx : vs[x]? = some (some p)) (q : Option Nat) (i : Nat) :
    held (vs.set x (some q)) i = held (vs.set x none) i + ones q i := by
  have h1 := held_set hx none i
  have h2 := held_set hx (some q) i
  simp only [Variable.ones] at h1 h2
  omega

/-- A new strong handle. -/
theorem Effect.pushStrong (h : Effect s s' (fun i => held s.strong i + ones p i) (held s.weak)) :
    Stepped s (s'.pushStrong p) := by
  refine ⟨?_, h.next_le, h.objDeletes_le, h.ptrDeletes_le⟩
  refine Holds.congr ⟨h.holds.block, h.holds.new⟩ (fun i => ?_) fun i => ?_
  · show _ = held (s'.strong ++ [some p]) i
    rw [held_push, h.strong_eq]
  · show _ = held s'.weak i
    rw [h.weak_eq]

/-- A new weak handle. -/
theorem Effect.pushWeak (h : Effect s s' (held s.strong) (fun i => held s.weak i + ones p i)) :
    Stepped s (s'.pushWeak p) := by
  refine ⟨?_, h.next_le, h.objDeletes_le, h.ptrDeletes_le⟩
  refine Holds.congr ⟨h.holds.block, h.holds.new⟩ (fun i => ?_) fun i => ?_
  · show _ = held s'.strong i
    rw [h.strong_eq]
  · show _ = held (s'.weak ++ [some p]) i
    rw [held_push, h.weak_eq]

/-- A strong handle changed. -/
theorem Effect.setStrong {v : Variable} (h : Effect s s' (held (s.strong.set x v)) (held s.weak)) :
    Stepped s (s'.setStrong x v) := by
  refine ⟨?_, h.next_le, h.objDeletes_le, h.ptrDeletes_le⟩
  refine Holds.congr ⟨h.holds.block, h.holds.new⟩ (fun i => ?_) fun i => ?_
  · show _ = held (s'.strong.set x v) i
    rw [h.strong_eq]
  · show _ = held s'.weak i
    rw [h.weak_eq]

/-- A weak handle changed. -/
theorem Effect.setWeak {v : Variable} (h : Effect s s' (held s.strong) (held (s.weak.set x v))) :
    Stepped s (s'.setWeak x v) := by
  refine ⟨?_, h.next_le, h.objDeletes_le, h.ptrDeletes_le⟩
  refine Holds.congr ⟨h.holds.block, h.holds.new⟩ (fun i => ?_) fun i => ?_
  · show _ = held s'.strong i
    rw [h.strong_eq]
  · show _ = held (s'.weak.set x v) i
    rw [h.weak_eq]

/-- A strong handle's pointer is dropped, and the handle is out of the count. -/
theorem HandlesOk.dropStrong (h : HandlesOk s) (hx : s.strong[x]? = some (some p)) :
    ∃ s', s.dropStrong p = some s' ∧ Effect s s' (held (s.strong.set x none)) (held s.weak) :=
  Holds.dropStrong (Holds.congr h (held_without hx) fun _ => rfl)

theorem HandlesOk.dropWeak (h : HandlesOk s) (hx : s.weak[x]? = some (some p)) :
    ∃ s', s.dropWeak p = some s' ∧ Effect s s' (held s.strong) (held (s.weak.set x none)) :=
  Holds.dropWeak (Holds.congr h (fun _ => rfl) (held_without hx))

/-- The handles of a promotion. -/
theorem HandlesOk.promote (h : HandlesOk s) (hy : s.weakPtr y = some p) :
    ∃ (r : Option Nat) (s' : Program), s.step (.promote y) = some (s'.pushStrong r) ∧
      Stepped s (s'.pushStrong r) ∧
      (s'.pushStrong r).strong = s.strong ++ [some r] ∧
      (r ≠ none ↔ ∃ i, p = some i ∧ 0 < held s.strong i) ∧ (r ≠ none → r = p) := by
  have hpos : ∀ i, p = some i → 0 < held s.weak i := by
    rintro i rfl
    exact held_pos (Program.weakPtr_eq hy)
  obtain ⟨r, s', hr, heff, hiff, hsame⟩ := Holds.promoteWeak h hpos
  refine ⟨r, s', ?_, heff.pushStrong, ?_, hiff, hsame⟩
  · simp only [Program.step, hy, Option.bind_eq_bind, Option.bind_some, hr]
  · show s'.strong ++ [some r] = _
    rw [heff.strong_eq]

/-- **Every legal operation succeeds and keeps the invariant.** -/
theorem HandlesOk.step (h : HandlesOk s) : ∀ {op : Op}, s.Legal op →
    ∃ s', s.step op = some s' ∧ Stepped s s' := by
  have hstrong : ∀ {x p}, s.strongPtr x = some p → ∀ i, p = some i → 0 < held s.strong i := by
    rintro x p hx i rfl
    exact held_pos (Program.strongPtr_eq hx)
  have hweak : ∀ {x p}, s.weakPtr x = some p → ∀ i, p = some i → 0 < held s.weak i := by
    rintro x p hx i rfl
    exact held_pos (Program.weakPtr_eq hx)
  intro op hl
  cases op with
  | null =>
    refine ⟨_, rfl, Effect.pushStrong (Holds.effect (Holds.congr h (fun i => ?_) fun _ => rfl))⟩
    rw [ones_none]
    rfl
  | wrap => exact ⟨_, rfl, (Holds.make h).pushStrong⟩
  | copy y =>
    obtain ⟨p, hy⟩ := hl
    obtain ⟨s', hadd, heff⟩ := Holds.addStrong h (hstrong hy)
    refine ⟨_, ?_, heff.pushStrong⟩
    simp only [Program.step, hy, Option.bind_eq_bind, Option.bind_some, hadd]
  | assign x y =>
    obtain ⟨⟨p, hx⟩, q, hy⟩ := hl
    by_cases hpq : p ≠ q
    · -- the pointer of `y` is added before that of `x` is dropped
      obtain ⟨s₁, hadd, h₁⟩ := Holds.addStrong h (hstrong hy)
      have hx' := Program.strongPtr_eq hx
      have hcount : Holds s₁ (fun i => held (s.strong.set x (some q)) i + ones p i) (held s.weak) := by
        refine h₁.holds.congr (fun i => ?_) fun _ => rfl
        rw [held_with hx', held_without hx']
        omega
      obtain ⟨s₂, hdrop, h₂⟩ := hcount.dropStrong
      refine ⟨_, ?_, (h₁.trans h₂).setStrong⟩
      simp only [Program.step, hx, hy, Option.bind_eq_bind, Option.bind_some, if_pos hpq, hadd, hdrop]
    · refine ⟨s, ?_, h.stepped⟩
      simp only [Program.step, hx, hy, Option.bind_eq_bind, Option.bind_some, if_neg hpq]
  | assignRaw x rhs =>
    cases rhs with
    | null =>
      obtain ⟨p, hx⟩ := hl
      have hx' := Program.strongPtr_eq hx
      obtain ⟨s', hdrop, heff⟩ := h.dropStrong hx'
      have heff' : Effect s s' (held (s.strong.set x (some none))) (held s.weak) := by
        refine ⟨heff.holds.congr (fun i => ?_) fun _ => rfl, heff.strong_eq, heff.weak_eq, heff.next_le,
          heff.objDeletes_le, heff.ptrDeletes_le⟩
        rw [held_with hx', ones_none]
        rfl
      refine ⟨_, ?_, heff'.setStrong⟩
      simp only [Program.step, hx, Option.bind_eq_bind, Option.bind_some, hdrop]
    | fresh =>
      obtain ⟨p, hx⟩ := hl
      have hx' := Program.strongPtr_eq hx
      obtain ⟨s', hdrop, heff⟩ := h.dropStrong hx'
      have hmake := heff.trans heff.holds.make
      have heff' : Effect s s'.make (held (s.strong.set x (some (some s'.next)))) (held s.weak) := by
        refine ⟨hmake.holds.congr (fun i => ?_) fun _ => rfl, hmake.strong_eq, hmake.weak_eq,
          hmake.next_le, hmake.objDeletes_le, hmake.ptrDeletes_le⟩
        rw [held_with hx']
      refine ⟨_, ?_, heff'.setStrong⟩
      simp only [Program.step, hx, Option.bind_eq_bind, Option.bind_some, hdrop]
    | own =>
      obtain ⟨i, hx⟩ := hl
      have hpos := hstrong hx i rfl
      have hb := h.block i (Holds.lt_next h (Or.inl hpos))
      have hdel : (s.blocks i).deleted = false := by
        rw [Bool.eq_false_iff, ne_eq, hb.deleted_iff]
        omega
      refine ⟨s, ?_, h.stepped⟩
      simp only [Program.step, hx, Option.bind_eq_bind, Option.bind_some,
        if_pos (show _ ∧ _ from ⟨hdel, hb.obj_iff.2 hpos⟩)]
  | destroy x =>
    obtain ⟨p, hx⟩ := hl
    obtain ⟨s', hdrop, heff⟩ := h.dropStrong (Program.strongPtr_eq hx)
    refine ⟨_, ?_, heff.setStrong⟩
    simp only [Program.step, hx, Option.bind_eq_bind, Option.bind_some, hdrop]
  | weaken y =>
    obtain ⟨p, hy⟩ := hl
    obtain ⟨s', hadd, heff⟩ := Holds.addWeak h fun i hi => Or.inl (hstrong hy i hi)
    refine ⟨_, ?_, heff.pushWeak⟩
    simp only [Program.step, hy, Option.bind_eq_bind, Option.bind_some, hadd]
  | copyWeak y =>
    obtain ⟨p, hy⟩ := hl
    obtain ⟨s', hadd, heff⟩ := Holds.addWeak h fun i hi => Or.inr (hweak hy i hi)
    refine ⟨_, ?_, heff.pushWeak⟩
    simp only [Program.step, hy, Option.bind_eq_bind, Option.bind_some, hadd]
  | assignWeak x y =>
    obtain ⟨⟨p, hx⟩, q, hy⟩ := hl
    by_cases hpq : q = p
    · refine ⟨s, ?_, h.stepped⟩
      simp only [Program.step, hx, hy, Option.bind_eq_bind, Option.bind_some, if_pos hpq]
    · obtain ⟨s₁, hadd, h₁⟩ := Holds.addWeak h fun i hi => Or.inr (hweak hy i hi)
      have hx' := Program.weakPtr_eq hx
      have hcount : Holds s₁ (held s.strong) (fun i => held (s.weak.set x (some q)) i + ones p i) := by
        refine h₁.holds.congr (fun _ => rfl) fun i => ?_
        rw [held_with hx', held_without hx']
        omega
      obtain ⟨s₂, hdrop, h₂⟩ := hcount.dropWeak
      refine ⟨_, ?_, (h₁.trans h₂).setWeak⟩
      simp only [Program.step, hx, hy, Option.bind_eq_bind, Option.bind_some, if_neg hpq, hadd, hdrop]
  | destroyWeak x =>
    obtain ⟨p, hx⟩ := hl
    obtain ⟨s', hdrop, heff⟩ := h.dropWeak (Program.weakPtr_eq hx)
    refine ⟨_, ?_, heff.setWeak⟩
    simp only [Program.step, hx, Option.bind_eq_bind, Option.bind_some, hdrop]
  | promote y =>
    obtain ⟨p, hy⟩ := hl
    obtain ⟨r, s', hstep, hok, -⟩ := h.promote hy
    exact ⟨_, hstep, hok⟩

/-- One more operation. -/
theorem Programs.step (h : Programs s) (op : Op) (hl : s.Legal op) (hs : s.step op = some s') :
    Programs s' := Runs.Reached.next h ⟨hl, hs⟩

/-- **Every reached program** has the invariant. -/
theorem Programs.ok (h : Programs s) : HandlesOk s := by
  apply Runs.Reached.invariant (I := HandlesOk) ?_ ?_ h
  · rintro s rfl
    exact handlesOk_empty
  · rintro s op s' - hok ⟨hl, hstep⟩
    obtain ⟨s₁, hstep₁, hst⟩ := hok.step hl
    rw [hstep] at hstep₁
    obtain rfl := Option.some.inj hstep₁
    exact hst.ok

/-! ## The result -/

/-- The counts of every block are the numbers of handles on it; its object has been deleted once or not at
    all, and so has the block. -/
def HandlesCounted (s : Program) : Prop :=
  ∀ i, i < s.next →
    (s.blocks i).strongCount = held s.strong i ∧ (s.blocks i).weakCount = held s.weak i ∧
      s.objDeletes i = (if held s.strong i = 0 then 1 else 0) ∧
      s.ptrDeletes i = (if held s.strong i = 0 ∧ held s.weak i = 0 then 1 else 0)

/-- A step deletes exactly the objects whose last strong handle it takes away, and exactly the blocks whose
    last handle of either kind it takes away. -/
def DeletesLast (s s' : Program) : Prop :=
  ∀ i, i < s.next →
    s'.objDeletes i = s.objDeletes i + (if 0 < held s.strong i ∧ held s'.strong i = 0 then 1 else 0) ∧
      s'.ptrDeletes i = s.ptrDeletes i +
        if (0 < held s.strong i ∨ 0 < held s.weak i) ∧ held s'.strong i = 0 ∧ held s'.weak i = 0 then 1
        else 0

theorem HandlesOk.counted (h : HandlesOk s) : HandlesCounted s := fun i hi =>
  ⟨(h.block i hi).strong_eq, (h.block i hi).weak_eq, (h.block i hi).objDeletes, (h.block i hi).ptrDeletes⟩

theorem Stepped.deletesLast (h : HandlesOk s) (hst : Stepped s s') : DeletesLast s s' := by
  intro i hi
  obtain ⟨-, -, ho, hp⟩ := h.counted i hi
  obtain ⟨-, -, ho', hp'⟩ := hst.ok.counted i (Nat.lt_of_lt_of_le hi hst.next_le)
  have hle := hst.objDeletes_le i
  have hle' := hst.ptrDeletes_le i
  constructor
  · split at ho <;> split at ho' <;> split <;> omega
  · split at hp <;> split at hp' <;> split <;> omega

/-- **Handles are counted.**  After every sequence of operations: the counts are right, each object has
    been deleted exactly if it has no strong handle left, each block exactly if it has no handle at all,
    once; the next operation fails no assertion and uses no deleted block; it deletes what it takes the
    last handle from; and a promotion gives a non-null pointer exactly if a strong handle is left. -/
theorem handles_counted (s : Program) (h : Programs s) :
    HandlesCounted s ∧
      (∀ op, s.Legal op → ∃ s', s.step op = some s' ∧ DeletesLast s s') ∧
      ∀ y p s', s.weakPtr y = some p → s.step (.promote y) = some s' →
        ∃ r, s'.strong = s.strong ++ [some r] ∧ (r ≠ none ↔ ∃ i, p = some i ∧ 0 < held s.strong i) ∧
          (r ≠ none → r = p) := by
  have hok := h.ok
  refine ⟨hok.counted, fun op hl => ?_, fun y p s' hy hstep => ?_⟩
  · obtain ⟨s', hstep, hst⟩ := hok.step hl
    exact ⟨s', hstep, hst.deletesLast hok⟩
  · obtain ⟨r, s₁, hstep₁, -, hr, hiff, hsame⟩ := hok.promote hy
    rw [hstep] at hstep₁
    obtain rfl := Option.some.inj hstep₁
    exact ⟨r, hr, hiff, hsame⟩

/-- An object is made, a weak handle to it, and its only strong handle is destroyed. -/
theorem handles_counted_dropped : ∃ s, Programs s ∧ HandlesCounted s ∧ s.next = 1 ∧ s.objDeletes 0 = 1 ∧
    s.ptrDeletes 0 = 0 := by
  have h₀ : Programs Program.empty := Runs.Reached.start rfl
  have h₁ := h₀.step .wrap trivial rfl
  have h₂ := h₁.step (.weaken 0) ⟨some 0, rfl⟩ rfl
  have h₃ := h₂.step (.destroy 0) ⟨some 0, rfl⟩ rfl
  exact ⟨_, h₃, (handles_counted _ h₃).1, rfl, rfl, rfl⟩

end Shared

end BadApple
