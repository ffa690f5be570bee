/-
  The whole array: how blocks fill it, and how a hole opens and closes during a call.

  1. **Specification** — `LaidOut h bs l`: the blocks `bs` fill the array and have their tags in place,
     the sentinels are taken, `l` is the avail list and has every available block once, and no two
     neighbours are both available.
  2. **Holes** — `Hole h c₁ c₂ i n l`: the same between calls of `remove`, `makeTaken` and `makeAvail`,
     with nothing known of the `n` ints at `i`.  Opening a block makes a hole, opening a neighbour makes
     it wider, `makeTaken` and `makeAvail` at its left end make it narrower, and an empty hole closes.
  3. `malloc`, `free` and `heapInit` are then sequences of such steps.
-/
import Mathlib.Data.List.Perm.Subperm
import BadApple.Heap.Shape
import BadApple.Lib.Rows

namespace BadApple

open Chains
open Rows

namespace Gheith

/-! ## Specification -/

/-- No two neighbours are both available. -/
def Apart (bs : List Block) : Prop := List.IsChain (fun b c => ¬ (0 < b.tag ∧ 0 < c.tag)) bs

/-- **What the array looks like between calls**, `bs` being its blocks and `l` the avail list. -/
structure LaidOut (h : Heap) (bs : List Block) (l : List Int) : Prop where
  shape : Shape h bs l
  row : Row Block.start Block.stop 0 bs h.len
  first : ⟨0, -2⟩ ∈ bs
  last : ⟨h.len - 2, -2⟩ ∈ bs
  listed : ∀ b ∈ bs, 0 < b.tag → b.start ∈ l
  apart : Apart bs

/-- The array with a hole of `n` ints at `i` between the blocks `c₁` and `c₂`. -/
structure Hole (h : Heap) (c₁ c₂ : List Block) (i n : Int) (l : List Int) : Prop where
  shape : Shape h (c₁ ++ c₂) l
  left : Row Block.start Block.stop 0 c₁ i
  right : Row Block.start Block.stop (i + n) c₂ h.len
  room : 0 ≤ n
  listed : ∀ b ∈ c₁ ++ c₂, 0 < b.tag → b.start ∈ l
  apartLeft : Apart c₁
  apartRight : Apart c₂

/-- The last block of `c₁` and the first of `c₂` are not both available. -/
def Junction (c₁ c₂ : List Block) : Prop :=
  ∀ b ∈ c₁.getLast?, ∀ c ∈ c₂.head?, ¬ (0 < b.tag ∧ 0 < c.tag)

variable {h h' : Heap} {bs c₁ c₂ : List Block} {l l₁ l₂ : List Int} {i j m n : Int} {b c x : Block}

theorem apart_append : Apart (c₁ ++ c₂) ↔ Apart c₁ ∧ Apart c₂ ∧ Junction c₁ c₂ :=
  List.isChain_append

theorem apart_concat (h : Apart c₁) (hj : Junction c₁ [b]) : Apart (c₁ ++ [b]) :=
  apart_append.2 ⟨h, List.isChain_singleton _, hj⟩

/-- A taken block may stand next to anything. -/
theorem junction_taken (hb : b.tag < 0) : Junction c₁ [b] := by
  rintro x - y hy ⟨-, hpos⟩
  obtain rfl : b = y := by simpa using hy
  omega

theorem Shape.pos (hS : Shape h bs l) : ∀ b ∈ bs, b.start < b.stop := by
  intro b hb
  have := hS.big b hb
  omega

theorem Shape.tag_ne (hS : Shape h bs l) (hb : b ∈ bs) : b.tag ≠ 0 := by
  intro hz
  have hbig := hS.big b hb
  unfold Block.stop at hbig
  rw [hz] at hbig
  simp only [Heap.abs, Int.lt_irrefl, if_false] at hbig
  omega

/-- Where a block starts determines it. -/
theorem Shape.eq_of_start (hS : Shape h bs l) (hb : b ∈ bs) (hc : c ∈ bs) (hs : b.start = c.start) :
    b = c := by
  by_contra hne
  have hbb := hS.big b hb
  have hbc := hS.big c hc
  have := hS.apart b hb c hc hne
  omega

/-- A block of a list cut at `b` is `b`, or stands on one of its sides. -/
theorem mem_middle : c ∈ c₁ ++ b :: c₂ ↔ c = b ∨ c ∈ c₁ ++ c₂ :=
  List.perm_middle.mem_iff.trans List.mem_cons

/-- Forgetting a block that is not on the list. -/
theorem Shape.forget (hS : Shape h (c₁ ++ x :: c₂) l) (hx : x.start ∉ l) : Shape h (c₁ ++ c₂) l := by
  refine hS.mono (fun b hb => mem_middle.2 (Or.inr hb)) fun b hb hbl => ?_
  rcases mem_middle.1 hb with rfl | hb
  · exact absurd hbl hx
  · exact hb

/-- Only the collection of blocks matters. -/
theorem Shape.reorder {bs' : List Block} (hS : Shape h bs l) (hmem : ∀ b, b ∈ bs' ↔ b ∈ bs) :
    Shape h bs' l :=
  hS.mono (fun b hb => (hmem b).1 hb) fun b hb _ => (hmem b).2 hb

/-! ## Opening -/

/-- Opening a taken block. -/
theorem LaidOut.openTaken (hL : LaidOut h (c₁ ++ b :: c₂) l) (hb : b.tag < 0) :
    Hole h c₁ c₂ b.start (Heap.abs b.tag) l := by
  obtain ⟨hrow1, hrow2⟩ := row_middle.1 hL.row
  obtain ⟨hap1, hap2, -⟩ := apart_append.1 hL.apart
  have hbig := hL.shape.big b (by simp)
  have hnot : b.start ∉ l := by
    intro hmem
    obtain ⟨-, k, hk, hin⟩ := hL.shape.avail _ hmem
    have heq := hL.shape.eq_of_start (b := b) (by simp) hin rfl
    rw [heq] at hb
    simp only at hb
    omega
  refine ⟨hL.shape.forget hnot, hrow1, hrow2, ?_, ?_, hap1, hap2.tail⟩
  · unfold Block.stop at hbig
    omega
  · exact fun c hc => hL.listed c (mem_middle.2 (Or.inr hc))

/-- Removing an available block from the list, and forgetting it. -/
theorem Shape.open (hS : Shape h (c₁ ++ b :: c₂) (l₁ ++ b.start :: l₂)) :
    Shape (h.remove b.start) (c₁ ++ c₂) (l₁ ++ l₂) := by
  apply hS.remove.forget
  intro hmem
  obtain ⟨h1, h2⟩ := not_mem_sides hS.chain.nodup
  rcases List.mem_append.1 hmem with hm | hm
  · exact h1 hm
  · exact h2 hm

/-- What is listed after one block has been removed. -/
theorem Shape.listed_open (hS : Shape h (c₁ ++ b :: c₂) (l₁ ++ b.start :: l₂))
    (hlisted : ∀ c ∈ c₁ ++ b :: c₂, 0 < c.tag → c.start ∈ l₁ ++ b.start :: l₂)
    (hb : b ∉ c₁ ++ c₂) : ∀ c ∈ c₁ ++ c₂, 0 < c.tag → c.start ∈ l₁ ++ l₂ := by
  intro c hc hpos
  have hin : c ∈ c₁ ++ b :: c₂ := mem_middle.2 (Or.inr hc)
  have hne : c.start ≠ b.start := by
    intro heq
    rw [hS.eq_of_start hin (by simp) heq] at hc
    exact hb hc
  have := hlisted c hin hpos
  rcases List.mem_append.1 this with hm | hm
  · simp [hm]
  · rcases List.mem_cons.1 hm with hm | hm
    · exact absurd hm hne
    · simp [hm]

/-- Opening an available block. -/
theorem LaidOut.openAvail (hL : LaidOut h (c₁ ++ b :: c₂) (l₁ ++ b.start :: l₂)) :
    Hole (h.remove b.start) c₁ c₂ b.start (Heap.abs b.tag) (l₁ ++ l₂) := by
  obtain ⟨hrow1, hrow2⟩ := row_middle.1 hL.row
  obtain ⟨hap1, hap2, -⟩ := apart_append.1 hL.apart
  have hbig := hL.shape.big b (by simp)
  refine ⟨hL.shape.open, hrow1, ?_, ?_, ?_, hap1, hap2.tail⟩
  · rw [(remove_frame h b.start).2.1]
    exact hrow2
  · unfold Block.stop at hbig
    omega
  · exact hL.shape.listed_open hL.listed (hL.row.not_mem hL.shape.pos)

/-! ## Making a hole wider -/

/-- Opening the available block to the left of a hole. -/
theorem Hole.takeLeft (hH : Hole h (c₁ ++ [b]) c₂ i n (l₁ ++ b.start :: l₂)) :
    Hole (h.remove b.start) c₁ c₂ b.start (Heap.abs b.tag + n) (l₁ ++ l₂) := by
  have hshape : Shape h (c₁ ++ b :: c₂) (l₁ ++ b.start :: l₂) := by
    simpa only [List.append_assoc, List.singleton_append] using hH.shape
  have hlisted : ∀ c ∈ c₁ ++ b :: c₂, 0 < c.tag → c.start ∈ l₁ ++ b.start :: l₂ := by
    simpa only [List.append_assoc, List.singleton_append] using hH.listed
  obtain ⟨hrow1, hstop⟩ := row_middle.1 hH.left
  have hsize : b.start + Heap.abs b.tag = i := hstop
  have hstop : b.stop = i := hstop
  have hbig := hshape.big b (by simp)
  have hroom := hH.room
  have hnot : b ∉ c₁ ++ c₂ := by
    intro hmem
    rcases List.mem_append.1 hmem with hm | hm
    · refine hH.left.not_mem (fun x hx => hshape.pos x ?_) (by simp [hm])
      rcases List.mem_append.1 hx with hx | hx
      · simp [hx]
      · simp [List.mem_singleton.1 hx]
    · have := (hH.right.bounds fun x hx => hshape.pos x (by simp [hx])).2 b hm
      omega
  unfold Block.stop at hbig
  refine ⟨hshape.open, hrow1, ?_, by omega, hshape.listed_open hlisted hnot,
    (apart_append.1 hH.apartLeft).1, hH.apartRight⟩
  rw [(remove_frame h b.start).2.1, ← Int.add_assoc, hsize]
  exact hH.right

/-- Opening the available block to the right of a hole. -/
theorem Hole.takeRight (hH : Hole h c₁ (b :: c₂) i n (l₁ ++ b.start :: l₂)) :
    Hole (h.remove b.start) c₁ c₂ i (n + Heap.abs b.tag) (l₁ ++ l₂) := by
  obtain ⟨hstart, hrow⟩ := hH.right
  have hbig := hH.shape.big b (by simp)
  have hroom := hH.room
  have hnot : b ∉ c₁ ++ c₂ := by
    intro hmem
    rcases List.mem_append.1 hmem with hm | hm
    · have := (hH.left.bounds fun x hx => hH.shape.pos x (by simp [hx])).2 b hm
      omega
    · have := (hrow.bounds fun x hx => hH.shape.pos x (by simp [hx])).2 b hm
      omega
  unfold Block.stop at hbig hrow
  refine ⟨hH.shape.open, hH.left, ?_, by omega, hH.shape.listed_open hH.listed hnot,
    hH.apartLeft, hH.apartRight.tail⟩
  rw [(remove_frame h b.start).2.1, ← Int.add_assoc, ← hstart]
  exact hrow

/-! ## Making a hole narrower, and closing it -/

/-- The blocks around a hole leave room for a block in it. -/
theorem Hole.room_for (hH : Hole h c₁ c₂ i n l) (hm : m ≤ n) : Room (c₁ ++ c₂) i m := by
  intro b hb
  rcases List.mem_append.1 hb with hb | hb
  · exact Or.inl ((hH.left.bounds fun x hx => hH.shape.pos x (by simp [hx])).2 b hb).2
  · have := ((hH.right.bounds fun x hx => hH.shape.pos x (by simp [hx])).2 b hb).1
    exact Or.inr (by omega)

/-- Adding a block to the left part. -/
theorem mem_push (b c : Block) : c ∈ (c₁ ++ [b]) ++ c₂ ↔ c ∈ b :: (c₁ ++ c₂) := by
  rw [List.append_assoc, List.singleton_append, mem_middle, List.mem_cons]

/-- **`makeTaken` at the left end of a hole.** -/
theorem Hole.pushTaken (hH : Hole h c₁ c₂ i n l) (hm : 2 ≤ m) (hmn : m ≤ n) :
    Hole (h.makeTaken i m) (c₁ ++ [⟨i, -m⟩]) c₂ (i + m) (n - m) l := by
  have hstop : (Block.mk i (-m)).stop = i + m := by
    show i + Heap.abs (-m) = i + m
    rw [abs_neg_of_pos (by omega)]
  refine ⟨(hH.shape.makeTaken hm (hH.room_for hmn)).reorder (mem_push _), ?_, ?_, by omega,
    fun c hc hpos => ?_, apart_concat hH.apartLeft (junction_taken (by simp only; omega)),
    hH.apartRight⟩
  · exact row_middle.2 ⟨hH.left, hstop⟩
  · rw [show i + m + (n - m) = i + n by omega]
    exact hH.right
  · rcases List.mem_cons.1 ((mem_push _ c).1 hc) with rfl | hc
    · simp only at hpos
      omega
    · exact hH.listed c hc hpos

/-- **`makeAvail` at the left end of a hole.** -/
theorem Hole.pushAvail (hH : Hole h c₁ c₂ i n l) (hi : 0 < i) (hm : 4 ≤ m) (hmn : m ≤ n)
    (hj : Junction c₁ [⟨i, m⟩]) :
    Hole (h.makeAvail i m) (c₁ ++ [⟨i, m⟩]) c₂ (i + m) (n - m) (i :: l) := by
  refine ⟨(hH.shape.makeAvail hi hm (hH.room_for hmn)).reorder (mem_push _), ?_, ?_, by omega,
    fun c hc hpos => ?_, apart_concat hH.apartLeft hj, hH.apartRight⟩
  · exact row_middle.2 ⟨hH.left, stop_avail hm⟩
  · rw [show i + m + (n - m) = i + n by omega, (makeAvail_frame h i m).2.1]
    exact hH.right
  · rcases List.mem_cons.1 ((mem_push _ c).1 hc) with rfl | hc
    · simp
    · exact List.mem_cons_of_mem _ (hH.listed c hc hpos)

/-- An empty hole closes. -/
theorem Hole.close (hH : Hole h c₁ c₂ i n l) (hn : n = 0) (hj : Junction c₁ c₂)
    (hfirst : ⟨0, -2⟩ ∈ c₁ ++ c₂) (hlast : ⟨h.len - 2, -2⟩ ∈ c₁ ++ c₂) :
    LaidOut h (c₁ ++ c₂) l := by
  refine ⟨hH.shape, ?_, hfirst, hlast, hH.listed, apart_append.2 ⟨hH.apartLeft, hH.apartRight, hj⟩⟩
  have hright := hH.right
  rw [hn, Int.add_zero] at hright
  exact row_append.2 ⟨i, hH.left, hright⟩

end Gheith

end BadApple
