/-
  Block lists: the buckets of the buffer cache (kernel/buffer_cache.h, `Block` and `BlockList`).

  1. **Data** — blocks live in a store indexed by references; a destroyed block, or one not yet made, is
     `none`.  A weak pointer is a reference like any other, which `promote` reads back as null once its
     block is gone.
  2. **Operations** — `remove`, `extract` and `add` as the source writes them, pointer by pointer.  They
     run under the list's lock, so each is one step.  `none` is a failed assertion of `operator->`, or a
     walk that does not end within its fuel.
  3. **Meaning** — `Holds h l refs`: the list reads `refs` in both directions.  On lists that hold
     something the operations are what their names say: drop the last element, take out the first one
     with a given block number, put one in front; and they touch no block of any other list.
-/
import BadApple.Lib.Chains
import Mathlib.Logic.Function.Basic

namespace BadApple

open Function (update)
open Chains

/-! ## Blocks -/

/-- The bytes of a buffer, by offset. -/
abbrev Buffer := Nat → UInt8

/-- `Block`. -/
structure Block where
  blockId : Nat
  buffer : Buffer
  next : Option Nat
  prev : Option Nat

/-- What a block says, its links apart. -/
def Block.data (b : Block) : Nat × Buffer := (b.blockId, b.buffer)

/-- All blocks, by reference. -/
abbrev Blocks := Nat → Option Block

namespace Blocks

/-- `r->next = v`. -/
def setNext (h : Blocks) (r : Nat) (v : Option Nat) : Blocks :=
  update h r ((h r).map fun b => { b with next := v })

/-- `r->prev = v`. -/
def setPrev (h : Blocks) (r : Nat) (v : Option Nat) : Blocks :=
  update h r ((h r).map fun b => { b with prev := v })

/-- `if (p != nullptr) p->next = v`, and the same for `prev`. -/
def setNextAt (h : Blocks) (p v : Option Nat) : Blocks :=
  match p with
  | none => h
  | some r => h.setNext r v

def setPrevAt (h : Blocks) (p v : Option Nat) : Blocks :=
  match p with
  | none => h
  | some r => h.setPrev r v

/-- The last strong pointer to `r` is gone. -/
def destroy (h : Blocks) (r : Nat) : Blocks := update h r none

/-- `WeakPtr::promote`: null when the block has been destroyed. -/
def promote (h : Blocks) (w : Option Nat) : Option Nat :=
  w.bind fun r => (h r).map fun _ => r

/-- The link functions of the store. -/
def nextOf (h : Blocks) (r : Nat) : Option Nat := (h r).bind Block.next
def prevOf (h : Blocks) (r : Nat) : Option Nat := (h r).bind Block.prev

/-- The data of a block. -/
def dataOf (h : Blocks) (r : Nat) : Option (Nat × Buffer) := (h r).map Block.data

variable {h : Blocks} {r x : Nat} {v : Option Nat}

theorem setNext_of_ne (hx : x ≠ r) : h.setNext r v x = h x := Function.update_of_ne hx _ _

theorem setPrev_of_ne (hx : x ≠ r) : h.setPrev r v x = h x := Function.update_of_ne hx _ _

theorem setNext_self : h.setNext r v r = (h r).map fun b => { b with next := v } :=
  Function.update_self _ _ _

theorem setPrev_self : h.setPrev r v r = (h r).map fun b => { b with prev := v } :=
  Function.update_self _ _ _

theorem destroy_of_ne (hx : x ≠ r) : h.destroy r x = h x := Function.update_of_ne hx _ _

/-- An assignment to `next` changes no `prev`, and the other way round. -/
@[simp] theorem prevOf_setNext : (h.setNext r v).prevOf x = h.prevOf x := by
  by_cases hx : x = r
  · subst hx
    unfold prevOf
    rw [setNext_self]
    cases h x <;> rfl
  · unfold prevOf
    rw [setNext_of_ne hx]

@[simp] theorem nextOf_setPrev : (h.setPrev r v).nextOf x = h.nextOf x := by
  by_cases hx : x = r
  · subst hx
    unfold nextOf
    rw [setPrev_self]
    cases h x <;> rfl
  · unfold nextOf
    rw [setPrev_of_ne hx]

theorem nextOf_destroy_of_ne (hx : x ≠ r) : (h.destroy r).nextOf x = h.nextOf x := by
  unfold nextOf
  rw [destroy_of_ne hx]

theorem prevOf_destroy_of_ne (hx : x ≠ r) : (h.destroy r).prevOf x = h.prevOf x := by
  unfold prevOf
  rw [destroy_of_ne hx]

theorem dataOf_destroy_of_ne (hx : x ≠ r) : (h.destroy r).dataOf x = h.dataOf x := by
  unfold dataOf
  rw [destroy_of_ne hx]

theorem nextOf_setNext_of_ne (hx : x ≠ r) : (h.setNext r v).nextOf x = h.nextOf x := by
  unfold nextOf
  rw [setNext_of_ne hx]

theorem prevOf_setPrev_of_ne (hx : x ≠ r) : (h.setPrev r v).prevOf x = h.prevOf x := by
  unfold prevOf
  rw [setPrev_of_ne hx]

theorem nextOf_setNext_self (hr : (h r).isSome) : (h.setNext r v).nextOf r = v := by
  unfold nextOf
  rw [setNext_self]
  obtain ⟨b, hb⟩ := Option.isSome_iff_exists.1 hr
  simp [hb]

theorem prevOf_setPrev_self (hr : (h r).isSome) : (h.setPrev r v).prevOf r = v := by
  unfold prevOf
  rw [setPrev_self]
  obtain ⟨b, hb⟩ := Option.isSome_iff_exists.1 hr
  simp [hb]

/-- Links are not data. -/
@[simp] theorem dataOf_setNext : (h.setNext r v).dataOf x = h.dataOf x := by
  by_cases hx : x = r
  · subst hx
    unfold dataOf
    rw [setNext_self]
    cases h x <;> rfl
  · unfold dataOf
    rw [setNext_of_ne hx]

@[simp] theorem dataOf_setPrev : (h.setPrev r v).dataOf x = h.dataOf x := by
  by_cases hx : x = r
  · subst hx
    unfold dataOf
    rw [setPrev_self]
    cases h x <;> rfl
  · unfold dataOf
    rw [setPrev_of_ne hx]

@[simp] theorem isSome_setNext : (h.setNext r v x).isSome = (h x).isSome := by
  by_cases hx : x = r
  · subst hx
    rw [setNext_self]
    cases h x <;> rfl
  · rw [setNext_of_ne hx]

@[simp] theorem isSome_setPrev : (h.setPrev r v x).isSome = (h x).isSome := by
  by_cases hx : x = r
  · subst hx
    rw [setPrev_self]
    cases h x <;> rfl
  · rw [setPrev_of_ne hx]

variable {p : Option Nat}

theorem setNextAt_of_ne (hx : p ≠ some x) : h.setNextAt p v x = h x := by
  cases p with
  | none => rfl
  | some r => exact setNext_of_ne fun hxr => hx (by rw [hxr])

theorem setPrevAt_of_ne (hx : p ≠ some x) : h.setPrevAt p v x = h x := by
  cases p with
  | none => rfl
  | some r => exact setPrev_of_ne fun hxr => hx (by rw [hxr])

theorem nextOf_setNextAt_of_ne (hx : p ≠ some x) : (h.setNextAt p v).nextOf x = h.nextOf x := by
  unfold nextOf
  rw [setNextAt_of_ne hx]

@[simp] theorem prevOf_setNextAt : (h.setNextAt p v).prevOf x = h.prevOf x := by
  cases p with
  | none => rfl
  | some r => exact prevOf_setNext

@[simp] theorem nextOf_setPrevAt : (h.setPrevAt p v).nextOf x = h.nextOf x := by
  cases p with
  | none => rfl
  | some r => exact nextOf_setPrev

@[simp] theorem dataOf_setNextAt : (h.setNextAt p v).dataOf x = h.dataOf x := by
  cases p with
  | none => rfl
  | some r => exact dataOf_setNext

@[simp] theorem dataOf_setPrevAt : (h.setPrevAt p v).dataOf x = h.dataOf x := by
  cases p with
  | none => rfl
  | some r => exact dataOf_setPrev

@[simp] theorem isSome_setNextAt : (h.setNextAt p v x).isSome = (h x).isSome := by
  cases p with
  | none => rfl
  | some r => exact isSome_setNext

@[simp] theorem isSome_setPrevAt : (h.setPrevAt p v x).isSome = (h x).isSome := by
  cases p with
  | none => rfl
  | some r => exact isSome_setPrev

/-- A way to read back links off a store, on which assignments act as they do on `prev`. -/
structure BackLinks (back : Blocks → Nat → Option Nat) : Prop where
  setNext : ∀ h r v x, back (setNext h r v) x = back h x
  setPrev_of_ne : ∀ h r v x, x ≠ r → back (setPrev h r v) x = back h x
  setPrev_self : ∀ h r v, (h r).isSome → (∀ y, v = some y → (h y).isSome) → back (setPrev h r v) r = v

theorem backLinks_prevOf : BackLinks prevOf where
  setNext _ _ _ _ := prevOf_setNext
  setPrev_of_ne _ _ _ _ hx := prevOf_setPrev_of_ne hx
  setPrev_self _ _ _ hr _ := prevOf_setPrev_self hr

variable {back : Blocks → Nat → Option Nat}

theorem BackLinks.setNextAt (hb : BackLinks back) : back (h.setNextAt p v) x = back h x := by
  cases p with
  | none => rfl
  | some r => exact hb.setNext h r v x

theorem BackLinks.setPrevAt_of_ne (hb : BackLinks back) (hx : p ≠ some x) :
    back (h.setPrevAt p v) x = back h x := by
  cases p with
  | none => rfl
  | some r => exact hb.setPrev_of_ne h r v x fun hxr => hx (by rw [hxr])

end Blocks

/-! ## Block lists -/

/-- `BlockList`, its lock and its global index apart. -/
structure BlockList where
  first : Option Nat
  last : Option Nat
deriving DecidableEq, Repr

namespace BlockList

/-- The empty list. -/
def empty : BlockList := ⟨none, none⟩

/-- `remove()`: drop the last block.  The assignments release the only two strong pointers to it. -/
def remove (h : Blocks) (l : BlockList) : Option (Blocks × BlockList × Bool) :=
  match l.last with
  | none => some (h, l, false)
  | some r =>
      match h r with
      | none => none
      | some b =>
          match h.promote b.prev with
          | none => some (h.destroy r, ⟨none, none⟩, true)
          | some p => some ((h.setNext p none).destroy r, ⟨l.first, some p⟩, true)

/-- Taking `curr` out of the list, once found. -/
def takeOut (h : Blocks) (l : BlockList) (prev : Option Nat) (curr : Nat) (b : Block) :
    Blocks × BlockList :=
  let first := if l.first = some curr then b.next else l.first
  let last := if l.last = some curr then none else l.last
  let h₁ := h.setNextAt prev b.next
  let h₂ := h₁.setPrevAt b.next prev
  let last := if b.next.isSome then last else prev
  ((h₂.setNext curr none).setPrev curr none, ⟨first, last⟩)

/-- The `while` of `extract`. -/
def extractLoop (h : Blocks) (l : BlockList) (blockId : Nat) :
    (fuel : Nat) → (prev curr : Option Nat) → Option (Blocks × BlockList × Option Nat)
  | _, _, none => some (h, l, none)
  | 0, _, some _ => none
  | fuel + 1, prev, some curr =>
      match h curr with
      | none => none
      | some b =>
          if b.blockId = blockId then
            let (h', l') := takeOut h l prev curr b
            some (h', l', some curr)
          else extractLoop h l blockId fuel (some curr) b.next

/-- `extract(block_id)`: take out the first block with that number. -/
def extract (h : Blocks) (l : BlockList) (blockId fuel : Nat) :
    Option (Blocks × BlockList × Option Nat) :=
  extractLoop h l blockId fuel none l.first

/-- `add(block)`: put `r` in front. -/
def add (h : Blocks) (l : BlockList) (r : Nat) : Option (Blocks × BlockList) :=
  match h r with
  | none => none
  | some _ =>
      let h' := h.setNext r l.first
      match l.first with
      | none => some (h', ⟨some r, some r⟩)
      | some f =>
          match h' f with
          | none => none
          | some _ => some (h'.setPrev f (some r), ⟨some r, l.last⟩)

/-! ## What a list holds -/

/-- `l` reads `refs`, all of them alive. -/
structure Holds (h : Blocks) (l : BlockList) (refs : List Nat) : Prop where
  chain : Chain h.nextOf h.prevOf l.first l.last refs
  alive : ∀ r ∈ refs, (h r).isSome

/-- The same, with the back links read in another way. -/
structure HoldsBy (back : Blocks → Nat → Option Nat) (h : Blocks) (l : BlockList) (refs : List Nat) : Prop where
  chain : Chain h.nextOf (back h) l.first l.last refs
  alive : ∀ r ∈ refs, (h r).isSome

/-- An edit that may change the links of `refs` and nothing else. -/
structure Edits (h h' : Blocks) (refs : List Nat) : Prop where
  outside : ∀ r, r ∉ refs → h' r = h r
  data : ∀ r, h'.dataOf r = h.dataOf r

variable {h h' : Blocks} {l : BlockList} {refs : List Nat} {back : Blocks → Nat → Option Nat}

theorem Holds.holdsBy (hl : Holds h l refs) : HoldsBy Blocks.prevOf h l refs := ⟨hl.chain, hl.alive⟩

theorem HoldsBy.holds (hl : HoldsBy Blocks.prevOf h l refs) : Holds h l refs := ⟨hl.chain, hl.alive⟩

theorem Holds.empty (h : Blocks) : Holds h BlockList.empty [] :=
  ⟨Chain.nil, fun r hr => by simp at hr⟩

/-- A list is unaffected by what happens to other blocks. -/
theorem Holds.congr (hl : Holds h l refs) (hsame : ∀ r ∈ refs, h' r = h r) : Holds h' l refs := by
  refine ⟨hl.chain.congr ?_ ?_, fun r hr => ?_⟩
  · intro y hy
    unfold Blocks.nextOf
    rw [hsame y hy]
  · intro y hy
    unfold Blocks.prevOf
    rw [hsame y hy]
  · rw [hsame r hr]
    exact hl.alive r hr

/-- **`remove` on an empty list** reports that there is nothing to drop. -/
theorem Holds.remove_nil (hl : Holds h l []) : l.remove h = some (h, l, false) := by
  have hlast : l.last = none := hl.chain.last_eq
  unfold remove
  rw [hlast]

/-- **`remove`** drops the last block. -/
theorem Holds.remove {r : Nat} (hl : Holds h l (refs ++ [r])) :
    ∃ h' l', l.remove h = some (h', l', true) ∧ Holds h' l' refs ∧ h' r = none ∧
      (∀ x, x ∉ refs ++ [r] → h' x = h x) ∧ ∀ x, x ≠ r → h'.dataOf x = h.dataOf x := by
  have hlast : l.last = some r := by
    rw [hl.chain.last_eq, List.getLast?_concat]
  obtain ⟨b, hb⟩ := Option.isSome_iff_exists.1 (hl.alive r (by simp))
  have hprev : b.prev = refs.getLast? := by
    have hp : h.prevOf r = refs.getLast? := (hl.chain.linked refs r [] rfl).2
    rwa [Blocks.prevOf, hb] at hp
  have hout : ∀ y ∈ refs, y ≠ r := by
    rintro y hy rfl
    exact (not_mem_sides hl.chain.nodup).1 hy
  unfold BlockList.remove
  rw [hlast]
  simp only [hb, hprev]
  cases hp : refs.getLast? with
  | none =>
    obtain rfl : refs = [] := List.getLast?_eq_none_iff.1 hp
    exact ⟨h.destroy r, ⟨none, none⟩, rfl, Holds.empty _, Function.update_self _ _ _,
      fun x hx => Blocks.destroy_of_ne (by simpa using hx),
      fun x hx => Blocks.dataOf_destroy_of_ne hx⟩
  | some p =>
    have hpmem : p ∈ refs := List.mem_of_getLast? hp
    have hpalive : (h p).isSome := hl.alive p (by simp [hpmem])
    have hpromote : h.promote (some p) = some p := by
      obtain ⟨bp, hbp⟩ := Option.isSome_iff_exists.1 hpalive
      simp [Blocks.promote, hbp]
    rw [hpromote]
    refine ⟨(h.setNext p none).destroy r, ⟨l.first, some p⟩, rfl, ⟨?_, fun y hy => ?_⟩,
      Function.update_self _ _ _, fun x hx => ?_, fun x hx => ?_⟩
    · have hfirst : l.first = (refs ++ []).head? := by
        rw [hl.chain.first_eq, List.append_nil,
          List.head?_append_of_ne_nil _ (List.ne_nil_of_mem hpmem)]
      have hlast' : some p = (refs ++ []).getLast? := by
        rw [List.append_nil, hp]
      rw [← List.append_nil refs]
      show Chain _ _ l.first (some p) _
      rw [hfirst, hlast']
      refine hl.chain.unlink ?_ (by simp) ?_ ?_
      · -- the last node left now ends the chain
        intro y hy
        obtain rfl : p = y := Option.some.inj (hp.symm.trans hy)
        rw [Blocks.nextOf_destroy_of_ne (hout p hpmem), Blocks.nextOf_setNext_self hpalive]
        rfl
      · intro y hy hne
        rw [List.append_nil] at hy
        have hyp : y ≠ p := fun hyp => hne (hyp ▸ hp)
        rw [Blocks.nextOf_destroy_of_ne (hout y hy), Blocks.nextOf_setNext_of_ne hyp]
      · intro y hy _
        rw [List.append_nil] at hy
        rw [Blocks.prevOf_destroy_of_ne (hout y hy), Blocks.prevOf_setNext]
    · rw [Blocks.destroy_of_ne (hout y hy), Blocks.isSome_setNext]
      exact hl.alive y (by simp [hy])
    · have hxr : x ≠ r := fun hxr => hx (by simp [hxr])
      have hxp : x ≠ p := fun hxp => hx (by simp [hxp, hpmem])
      rw [Blocks.destroy_of_ne hxr, Blocks.setNext_of_ne hxp]
    · rw [Blocks.dataOf_destroy_of_ne hx, Blocks.dataOf_setNext]

/-- Taking the found block out of the list: its neighbours are joined and its own links cleared. -/
theorem HoldsBy.takeOut (hback : Blocks.BackLinks back) {l₁ l₂ : List Nat} {r : Nat} {b : Block}
    (hl : HoldsBy back h l (l₁ ++ r :: l₂)) (hb : h r = some b) :
    HoldsBy back (BlockList.takeOut h l l₁.getLast? r b).1 (BlockList.takeOut h l l₁.getLast? r b).2 (l₁ ++ l₂) ∧
      (BlockList.takeOut h l l₁.getLast? r b).1 r = some { b with next := none, prev := none } ∧
      Edits h (BlockList.takeOut h l l₁.getLast? r b).1 (l₁ ++ r :: l₂) := by
  obtain ⟨hr1, hr2⟩ := not_mem_sides hl.chain.nodup
  have hnext : b.next = l₂.head? := by
    have hn : h.nextOf r = l₂.head? := hl.chain.linked.next_eq
    rwa [Blocks.nextOf, hb] at hn
  have hne : ∀ y ∈ l₁ ++ l₂, y ≠ r := by
    rintro y hy rfl
    rcases List.mem_append.1 hy with hy | hy
    · exact hr1 hy
    · exact hr2 hy
  have hlast1 : l₁.getLast? ≠ some r := fun hl => hr1 (List.mem_of_getLast? hl)
  have hhead2 : l₂.head? ≠ some r := fun hl => hr2 (List.mem_of_mem_head? hl)
  have hsub : ∀ y ∈ l₁ ++ l₂, y ∈ l₁ ++ r :: l₂ := by
    intro y hy
    simp only [List.mem_append, List.mem_cons] at hy ⊢
    tauto
  refine ⟨⟨?_, fun y hy => ?_⟩, ?_, fun x hx => ?_, fun x => ?_⟩
  · have hfirst : (BlockList.takeOut h l l₁.getLast? r b).2.first = (l₁ ++ l₂).head? := by
      simp only [BlockList.takeOut, hnext, hl.chain.first_eq]
      cases l₁ with
      | nil => simp
      | cons z l₁ =>
        have hzr : z ≠ r := hne z (by simp)
        simp [hzr]
    have hlast : (BlockList.takeOut h l l₁.getLast? r b).2.last = (l₁ ++ l₂).getLast? := by
      simp only [BlockList.takeOut, hnext, hl.chain.last_eq]
      cases l₂ with
      | nil => simp
      | cons z l₂ =>
        have hend : (l₁ ++ r :: z :: l₂).getLast? = (l₁ ++ z :: l₂).getLast? := by
          simp [List.getLast?_append, List.getLast?_cons]
        have hner : (l₁ ++ z :: l₂).getLast? ≠ some r :=
          fun he => hne r (List.mem_of_getLast? he) rfl
        rw [hend, if_neg hner]
        simp
    rw [hfirst, hlast]
    refine hl.chain.unlink ?_ ?_ ?_ ?_
    · intro y hy
      have hyr : y ≠ r := fun hyr => hlast1 (hyr ▸ hy)
      have hyalive : (h y).isSome := hl.alive y (by simp [List.mem_of_getLast? hy])
      simp only [BlockList.takeOut, Blocks.nextOf_setPrev, Blocks.nextOf_setNext_of_ne hyr,
        Blocks.nextOf_setPrevAt, hy, hnext]
      exact Blocks.nextOf_setNext_self hyalive
    · intro y hy
      have hyr : y ≠ r := fun hyr => hhead2 (hyr ▸ hy)
      have hyalive : (h y).isSome := hl.alive y (by simp [List.mem_of_mem_head? hy])
      simp only [BlockList.takeOut]
      rw [hback.setPrev_of_ne _ _ _ _ hyr, hback.setNext, hnext, hy]
      refine hback.setPrev_self _ _ _ (by simpa using hyalive) fun z hz => ?_
      rw [Blocks.isSome_setNextAt]
      exact hl.alive z (by simp [List.mem_of_getLast? hz])
    · intro y hy hl1
      have hyr := hne y hy
      simp only [BlockList.takeOut, Blocks.nextOf_setPrev, Blocks.nextOf_setNext_of_ne hyr,
        Blocks.nextOf_setPrevAt, Blocks.nextOf_setNextAt_of_ne hl1]
    · intro y hy hh2
      have hyr := hne y hy
      rw [← hnext] at hh2
      simp only [BlockList.takeOut]
      rw [hback.setPrev_of_ne _ _ _ _ hyr, hback.setNext, hback.setPrevAt_of_ne hh2, hback.setNextAt]
  · simp only [BlockList.takeOut, Blocks.isSome_setPrev, Blocks.isSome_setNext,
      Blocks.isSome_setPrevAt, Blocks.isSome_setNextAt]
    exact hl.alive y (hsub y hy)
  · simp only [BlockList.takeOut, Blocks.setPrev_self, Blocks.setNext_self]
    rw [Blocks.setPrevAt_of_ne (hnext ▸ hhead2), Blocks.setNextAt_of_ne hlast1, hb]
    rfl
  · have hxr : x ≠ r := fun hxr => hx (by simp [hxr])
    have hx1 : l₁.getLast? ≠ some x := fun hl => hx (by simp [List.mem_of_getLast? hl])
    have hx2 : l₂.head? ≠ some x := fun hl => hx (by simp [List.mem_of_mem_head? hl])
    simp only [BlockList.takeOut]
    rw [Blocks.setPrev_of_ne hxr, Blocks.setNext_of_ne hxr, Blocks.setPrevAt_of_ne (hnext ▸ hx2),
      Blocks.setNextAt_of_ne hx1]
  · simp only [BlockList.takeOut, Blocks.dataOf_setPrev, Blocks.dataOf_setNext,
      Blocks.dataOf_setPrevAt, Blocks.dataOf_setNextAt]

/-- The `while` of `extract` on the part of the list it has not looked at. -/
theorem HoldsBy.extractLoop (hl : HoldsBy back h l refs) (blockId : Nat) :
    ∀ (fuel : Nat) (l₁ l₂ : List Nat), refs = l₁ ++ l₂ → l₂.length ≤ fuel →
      (∀ x ∈ l₁, ∀ b, h x = some b → b.blockId ≠ blockId) →
      ((∀ x ∈ refs, ∀ b, h x = some b → b.blockId ≠ blockId) ∧
        BlockList.extractLoop h l blockId fuel l₁.getLast? l₂.head? = some (h, l, none)) ∨
      ∃ a r c b, refs = a ++ r :: c ∧ (∀ x ∈ a, ∀ b, h x = some b → b.blockId ≠ blockId) ∧ h r = some b ∧
        b.blockId = blockId ∧ BlockList.extractLoop h l blockId fuel l₁.getLast? l₂.head? =
          some ((BlockList.takeOut h l a.getLast? r b).1, (BlockList.takeOut h l a.getLast? r b).2, some r) := by
  intro fuel
  induction fuel with
  | zero =>
    intro l₁ l₂ he hlen hbefore
    obtain rfl : l₂ = [] := List.length_eq_zero_iff.1 (Nat.le_zero.1 hlen)
    refine Or.inl ⟨?_, rfl⟩
    rwa [he, List.append_nil]
  | succ fuel ih =>
    intro l₁ l₂ he hlen hbefore
    cases l₂ with
    | nil =>
      refine Or.inl ⟨?_, rfl⟩
      rwa [he, List.append_nil]
    | cons r l₂ =>
      obtain ⟨b, hb⟩ := Option.isSome_iff_exists.1 (hl.alive r (by simp [he]))
      simp only [List.head?_cons, BlockList.extractLoop, hb]
      by_cases hid : b.blockId = blockId
      · exact Or.inr ⟨l₁, r, l₂, b, he, hbefore, hb, hid, by rw [if_pos hid]⟩
      · have hnext : b.next = l₂.head? := by
          have hn : h.nextOf r = l₂.head? := (he ▸ hl.chain.linked).next_eq
          rwa [Blocks.nextOf, hb] at hn
        rw [if_neg hid, hnext]
        have hrest := ih (l₁ ++ [r]) l₂ (by simp [he]) (by simpa using hlen) ?_
        · rwa [List.getLast?_concat] at hrest
        · intro x hx bx hbx
          rcases List.mem_append.1 hx with hx | hx
          · exact hbefore x hx bx hbx
          · obtain rfl : x = r := by simpa using hx
            obtain rfl : b = bx := Option.some.inj (hb.symm.trans hbx)
            exact hid

/-- **`extract`** finds nothing when no block of the list has the number, and otherwise takes out the first
    block that has it. -/
theorem HoldsBy.extract (hback : Blocks.BackLinks back) (hl : HoldsBy back h l refs) (blockId : Nat) {fuel : Nat}
    (hlen : refs.length ≤ fuel) :
    ((∀ x ∈ refs, ∀ b, h x = some b → b.blockId ≠ blockId) ∧
      l.extract h blockId fuel = some (h, l, none)) ∨
    ∃ h' l' a r c b, refs = a ++ r :: c ∧ (∀ x ∈ a, ∀ b, h x = some b → b.blockId ≠ blockId) ∧ h r = some b ∧
      b.blockId = blockId ∧ l.extract h blockId fuel = some (h', l', some r) ∧ HoldsBy back h' l' (a ++ c) ∧
      h' r = some { b with next := none, prev := none } ∧ Edits h h' refs := by
  unfold BlockList.extract
  have hloop := hl.extractLoop blockId fuel [] refs rfl hlen (by simp)
  rw [← hl.chain.first_eq] at hloop
  rcases hloop with hnone | ⟨a, r, c, b, hrefs, hbefore, hb, hid, he⟩
  · exact Or.inl hnone
  · subst hrefs
    obtain ⟨h1, h2, h3⟩ := hl.takeOut hback hb
    exact Or.inr ⟨_, _, a, r, c, b, rfl, hbefore, hb, hid, he, h1, h2, h3⟩

/-- What `add` assigns, whether or not the list is empty. -/
theorem HoldsBy.add_eq {r : Nat} {b : Block} (hl : HoldsBy back h l refs) (hb : h r = some b) :
    l.add h r = some ((h.setNext r l.first).setPrevAt l.first (some r),
      ⟨some r, some (l.last.getD r)⟩) := by
  unfold BlockList.add
  simp only [hb]
  cases hf : l.first with
  | none =>
    have hlast : l.last = none := by
      rw [hl.chain.last_eq, List.head?_eq_none_iff.1 (hl.chain.first_eq.symm.trans hf)]
      rfl
    rw [hlast]
    rfl
  | some f =>
    have hfmem : f ∈ refs := List.mem_of_mem_head? (hl.chain.first_eq.symm.trans hf)
    have halive : ((h.setNext r (some f)) f).isSome := by
      rw [Blocks.isSome_setNext]
      exact hl.alive f hfmem
    obtain ⟨bf, hbf⟩ := Option.isSome_iff_exists.1 halive
    obtain ⟨z, hz⟩ : ∃ z, l.last = some z := by
      rw [hl.chain.last_eq]
      exact ⟨_, List.getLast?_eq_some_getLast (List.ne_nil_of_mem hfmem)⟩
    simp only [hbf, hz]
    rfl

/-- **`add`** puts a block that is in no list in front. -/
theorem HoldsBy.add (hback : Blocks.BackLinks back) {r : Nat} {b : Block} (hl : HoldsBy back h l refs)
    (hr : r ∉ refs) (hb : h r = some b) (hprev : back h r = none) :
    ∃ h' l', l.add h r = some (h', l') ∧ HoldsBy back h' l' (r :: refs) ∧ Edits h h' (r :: refs) := by
  have halive : (h r).isSome := by
    rw [hb]
    rfl
  have hfr : l.first ≠ some r :=
    fun hf => hr (List.mem_of_mem_head? (hl.chain.first_eq.symm.trans hf))
  have hne : ∀ y ∈ refs, y ≠ r := by
    rintro y hy rfl
    exact hr hy
  refine ⟨_, _, hl.add_eq hb, ⟨hl.chain.push hr ?_ ?_ ?_ ?_ ?_, fun y hy => ?_⟩, fun x hx => ?_,
    fun x => ?_⟩
  · rw [Blocks.nextOf_setPrevAt, Blocks.nextOf_setNext_self halive]
  · rw [hback.setPrevAt_of_ne hfr, hback.setNext, hprev]
  · intro y hy
    rw [Blocks.nextOf_setPrevAt, Blocks.nextOf_setNext_of_ne (hne y hy)]
  · intro y hf
    have hy : y ∈ refs := List.mem_of_mem_head? (hl.chain.first_eq.symm.trans hf)
    rw [hf]
    refine hback.setPrev_self _ _ _ (by rw [Blocks.isSome_setNext]; exact hl.alive y hy) fun z hz => ?_
    obtain rfl := Option.some.inj hz
    rw [Blocks.isSome_setNext]
    exact halive
  · intro y hy hf
    rw [hback.setPrevAt_of_ne hf, hback.setNext]
  · rw [Blocks.isSome_setPrevAt, Blocks.isSome_setNext]
    rcases List.mem_cons.1 hy with rfl | hy
    · exact halive
    · exact hl.alive y hy
  · have hxr : x ≠ r := fun hxr => hx (by simp [hxr])
    have hfx : l.first ≠ some x := fun hf =>
      hx (List.mem_cons_of_mem r (List.mem_of_mem_head? (hl.chain.first_eq.symm.trans hf)))
    rw [Blocks.setPrevAt_of_ne hfx, Blocks.setNext_of_ne hxr]
  · rw [Blocks.dataOf_setPrevAt, Blocks.dataOf_setNext]

/-- **`extract`** from a list that is read by `prev`. -/
theorem Holds.extract (hl : Holds h l refs) (blockId : Nat) {fuel : Nat}
    (hlen : refs.length ≤ fuel) :
    ((∀ x ∈ refs, ∀ b, h x = some b → b.blockId ≠ blockId) ∧
      l.extract h blockId fuel = some (h, l, none)) ∨
    ∃ h' l' a r c b, refs = a ++ r :: c ∧ h r = some b ∧ b.blockId = blockId ∧
      l.extract h blockId fuel = some (h', l', some r) ∧ Holds h' l' (a ++ c) ∧
      h' r = some { b with next := none, prev := none } ∧ Edits h h' refs := by
  rcases hl.holdsBy.extract Blocks.backLinks_prevOf blockId hlen with
    hnone | ⟨h', l', a, r, c, b, hrefs, _, hb, hid, he, hnew, hrest⟩
  · exact Or.inl hnone
  · exact Or.inr ⟨h', l', a, r, c, b, hrefs, hb, hid, he, hnew.holds, hrest⟩

/-- **`add`** to a list that is read by `prev`. -/
theorem Holds.add {r : Nat} {b : Block} (hl : Holds h l refs) (hr : r ∉ refs) (hb : h r = some b)
    (hprev : b.prev = none) :
    ∃ h' l', l.add h r = some (h', l') ∧ Holds h' l' (r :: refs) ∧ Edits h h' (r :: refs) := by
  have hnone : h.prevOf r = none := by
    rw [Blocks.prevOf, hb]
    exact hprev
  obtain ⟨h', l', he, hnew, hedits⟩ := hl.holdsBy.add Blocks.backLinks_prevOf hr hb hnone
  exact ⟨h', l', he, hnew.holds, hedits⟩

end BlockList

end BadApple
