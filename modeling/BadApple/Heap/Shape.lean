/-
  What `remove`, `makeTaken` and `makeAvail` do to the blocks and to the avail list.

  1. **Blocks** — a `Block` is where it starts and its signed size, its tag.
  2. **The picture** — `Shape h bs l`: the blocks `bs` lie apart and have their tag in header and footer,
     and `l`, some of the available ones, is the avail list.  It does not ask for the blocks to fill the
     array, nor for all available blocks to be on the list, since in the middle of `malloc` and `free`
     neither holds.
  3. **Operations** — `remove` takes a block off the list, `makeTaken` and `makeAvail` add a block where
     there was none; forgetting a block that is not on the list is no operation at all.
-/
import BadApple.Heap.Model
import BadApple.Lib.Chains

namespace BadApple

open Function (update)
open Chains

namespace Gheith

/-! ## Blocks -/

/-- A block: its first index and its signed size, negative when it is taken. -/
structure Block where
  start : Int
  tag : Int
deriving DecidableEq, Repr

/-- One past the last index. -/
def Block.stop (b : Block) : Int := b.start + Heap.abs b.tag

theorem abs_of_pos {x : Int} (hx : 0 < x) : Heap.abs x = x := by
  unfold Heap.abs
  rw [if_neg (by omega)]

theorem abs_neg_of_pos {x : Int} (hx : 0 < x) : Heap.abs (-x) = x := by
  unfold Heap.abs
  rw [if_pos (by omega)]
  omega

/-- The index in a link, `0` being none. -/
def link (v : Int) : Option Int := if v = 0 then none else some v

theorem link_of_ne {v : Int} (hv : v ≠ 0) : link v = some v := if_neg hv

@[simp] theorem link_zero : link 0 = none := rfl

theorem link_eq_some {v i : Int} : link v = some i ↔ v = i ∧ v ≠ 0 := by
  unfold link
  by_cases hv : v = 0
  · rw [if_pos hv]
    simp [hv]
  · rw [if_neg hv]
    simp [hv]

theorem link_eq_none {v : Int} : link v = none ↔ v = 0 := by
  unfold link
  by_cases hv : v = 0
  · simp [hv]
  · simp [hv]

/-- The links of block `i`. -/
def Heap.nextOf (h : Heap) (i : Int) : Option Int := link (h.next i)
def Heap.prevOf (h : Heap) (i : Int) : Option Int := link (h.prev i)

/-- The blocks `bs` lie apart, with their tags in place, and `l` is the avail list. -/
structure Shape (h : Heap) (bs : List Block) (l : List Int) : Prop where
  tagged : ∀ b ∈ bs, h.array b.start = b.tag ∧ h.array (b.stop - 1) = b.tag
  big : ∀ b ∈ bs, b.start + 2 ≤ b.stop
  apart : ∀ b ∈ bs, ∀ c ∈ bs, b ≠ c → b.stop ≤ c.start ∨ c.stop ≤ b.start
  avail : ∀ i ∈ l, 0 < i ∧ ∃ n, 4 ≤ n ∧ Block.mk i n ∈ bs
  chain : Chain h.nextOf h.prevOf (link h.avail) l.getLast? l

variable {h h' : Heap} {bs bs' : List Block} {l l₁ l₂ : List Int} {i j k n : Int} {b c : Block}

/-- A block on the list ends after its links. -/
theorem stop_avail (hn : 4 ≤ n) : (Block.mk i n).stop = i + n := by
  show i + Heap.abs n = i + n
  rw [abs_of_pos (by omega)]

/-- The links of one block are not the tags of any. -/
theorem Shape.links_not_tags (hS : Shape h bs l) (hi : i ∈ l) (hb : b ∈ bs) :
    b.start ≠ i + 1 ∧ b.start ≠ i + 2 ∧ b.stop - 1 ≠ i + 1 ∧ b.stop - 1 ≠ i + 2 := by
  obtain ⟨-, n, hn, hmem⟩ := hS.avail i hi
  have hstop : (Block.mk i n).stop = i + n := stop_avail hn
  have hbig := hS.big b hb
  by_cases hbi : b = ⟨i, n⟩
  · subst hbi
    simp only at hstop ⊢
    omega
  · have happ := hS.apart b hb _ hmem hbi
    simp only at happ
    omega

/-- The next link of one block is not the previous link of one. -/
theorem Shape.next_ne_prev (hS : Shape h bs l) (hi : i ∈ l) (hj : j ∈ l) : i + 1 ≠ j + 2 := by
  obtain ⟨-, n, hn, hmem⟩ := hS.avail i hi
  obtain ⟨-, m, hm, hmem'⟩ := hS.avail j hj
  have hstop : (Block.mk i n).stop = i + n := stop_avail hn
  have hstop' : (Block.mk j m).stop = j + m := stop_avail hm
  by_cases hij : i = j
  · omega
  · have happ := hS.apart _ hmem _ hmem' (by simp [hij])
    simp only at happ
    omega

/-- Forgetting blocks that are not on the list. -/
theorem Shape.mono (hS : Shape h bs l) (hsub : ∀ b ∈ bs', b ∈ bs)
    (hkeep : ∀ b ∈ bs, b.start ∈ l → b ∈ bs') : Shape h bs' l := by
  refine ⟨fun b hb => hS.tagged b (hsub b hb), fun b hb => hS.big b (hsub b hb),
    fun b hb c hc => hS.apart b (hsub b hb) c (hsub c hc), fun i hi => ?_, hS.chain⟩
  obtain ⟨hpos, n, hn, hmem⟩ := hS.avail i hi
  exact ⟨hpos, n, hn, hkeep _ hmem hi⟩

/-! ## What no operation changes -/

/-- The same base, length and lock. -/
def Heap.SameFrame (h' h : Heap) : Prop :=
  h'.base = h.base ∧ h'.len = h.len ∧ h'.theLock = h.theLock

theorem Heap.SameFrame.trans {h₁ h₂ h₃ : Heap} (h12 : h₁.SameFrame h₂) (h23 : h₂.SameFrame h₃) :
    h₁.SameFrame h₃ :=
  ⟨h12.1.trans h23.1, h12.2.1.trans h23.2.1, h12.2.2.trans h23.2.2⟩

theorem remove_frame (h : Heap) (i : Int) : (h.remove i).SameFrame h := by
  unfold Heap.remove
  simp only
  split <;> split <;> exact ⟨rfl, rfl, rfl⟩

theorem makeTaken_frame (h : Heap) (i n : Int) : (h.makeTaken i n).SameFrame h := ⟨rfl, rfl, rfl⟩

theorem makeAvail_frame (h : Heap) (i n : Int) : (h.makeAvail i n).SameFrame h := by
  unfold Heap.makeAvail
  simp only
  split <;> exact ⟨rfl, rfl, rfl⟩

/-! ## `remove` -/

/-- What `remove` writes. -/
theorem remove_array (h : Heap) (i k : Int) :
    (h.remove i).array k =
      if k = h.next i + 2 ∧ h.next i ≠ 0 then h.prev i
      else if k = h.prev i + 1 ∧ h.prev i ≠ 0 then h.next i
      else h.array k := by
  -- the assignment to the previous block
  have hfirst : ((if h.prev i = 0 then { h with avail := h.next i }
      else h.setNext (h.prev i) (h.next i) : Heap)).array k =
      if k = h.prev i + 1 ∧ h.prev i ≠ 0 then h.next i else h.array k := by
    by_cases hp : h.prev i = 0
    · have hno : ¬ (k = h.prev i + 1 ∧ h.prev i ≠ 0) := fun hh => hh.2 hp
      rw [if_pos hp, if_neg hno]
    · rw [if_neg hp]
      show update h.array (h.prev i + 1) (h.next i) k = _
      by_cases hk : k = h.prev i + 1
      · have hyes : k = h.prev i + 1 ∧ h.prev i ≠ 0 := ⟨hk, hp⟩
        rw [if_pos hyes, hk, Function.update_self]
      · have hno : ¬ (k = h.prev i + 1 ∧ h.prev i ≠ 0) := fun hh => hk hh.1
        rw [if_neg hno, Function.update_of_ne hk]
  rw [← hfirst]
  unfold Heap.remove
  simp only
  by_cases hn : h.next i = 0
  · have hno : ¬ (k = h.next i + 2 ∧ h.next i ≠ 0) := fun hh => hh.2 hn
    rw [if_neg hno, if_neg (not_not.2 hn)]
  · rw [if_pos hn]
    show (update _ (h.next i + 2) (h.prev i) : Int → Int) k = _
    by_cases hk : k = h.next i + 2
    · have hyes : k = h.next i + 2 ∧ h.next i ≠ 0 := ⟨hk, hn⟩
      rw [if_pos hyes, hk, Function.update_self]
    · have hno : ¬ (k = h.next i + 2 ∧ h.next i ≠ 0) := fun hh => hk hh.1
      rw [if_neg hno, Function.update_of_ne hk]

theorem remove_avail (h : Heap) (i : Int) :
    (h.remove i).avail = if h.prev i = 0 then h.next i else h.avail := by
  unfold Heap.remove
  simp only
  by_cases hp : h.prev i = 0
  · rw [if_pos hp, if_pos hp]
    split <;> rfl
  · rw [if_neg hp, if_neg hp]
    split <;> rfl

/-- `remove` only writes links of listed blocks, so tags stay. -/
theorem Shape.remove_tags (hS : Shape h bs (l₁ ++ i :: l₂)) (hb : b ∈ bs) :
    (h.remove i).array b.start = h.array b.start ∧
      (h.remove i).array (b.stop - 1) = h.array (b.stop - 1) := by
  have hnext : h.next i ≠ 0 → h.next i ∈ l₁ ++ i :: l₂ := fun hne =>
    hS.chain.linked.next_mem (y := i) (by simp) (link_of_ne hne)
  have hprev : h.prev i ≠ 0 → h.prev i ∈ l₁ ++ i :: l₂ := fun hne =>
    hS.chain.linked.prev_mem (y := i) (by simp) (link_of_ne hne)
  rw [remove_array, remove_array]
  constructor
  · rw [if_neg, if_neg]
    · rintro ⟨heq, hne⟩
      exact (hS.links_not_tags (hprev hne) hb).1 heq
    · rintro ⟨heq, hne⟩
      exact (hS.links_not_tags (hnext hne) hb).2.1 heq
  · rw [if_neg, if_neg]
    · rintro ⟨heq, hne⟩
      exact (hS.links_not_tags (hprev hne) hb).2.2.1 heq
    · rintro ⟨heq, hne⟩
      exact (hS.links_not_tags (hnext hne) hb).2.2.2 heq

/-- **`remove` takes a block off the list**, wherever it stands. -/
theorem Shape.remove (hS : Shape h bs (l₁ ++ i :: l₂)) : Shape (h.remove i) bs (l₁ ++ l₂) := by
  have hlinked := hS.chain.linked
  have hnexti : link (h.next i) = l₂.head? := hlinked.next_eq
  have hprevi : link (h.prev i) = l₁.getLast? := hlinked.prev_eq
  have hsub : ∀ y ∈ l₁ ++ l₂, y ∈ l₁ ++ i :: l₂ := by
    intro y hy
    rcases List.mem_append.1 hy with hy | hy
    · simp [hy]
    · simp [hy]
  have hnextmem : h.next i ≠ 0 → h.next i ∈ l₁ ++ i :: l₂ := fun hne =>
    hlinked.next_mem (y := i) (by simp) (link_of_ne hne)
  have hprevmem : h.prev i ≠ 0 → h.prev i ∈ l₁ ++ i :: l₂ := fun hne =>
    hlinked.prev_mem (y := i) (by simp) (link_of_ne hne)
  have hchain : Chain (h.remove i).nextOf (h.remove i).prevOf (l₁ ++ l₂).head? (l₁ ++ l₂).getLast?
      (l₁ ++ l₂) := by
    refine hS.chain.unlink (fun y hy => ?_) (fun y hy => ?_) (fun y hy hne => ?_) (fun y hy hne => ?_)
    · rw [← hprevi] at hy
      obtain ⟨rfl, hne⟩ := link_eq_some.1 hy
      show link ((h.remove i).array (h.prev i + 1)) = _
      rw [remove_array, if_neg, if_pos ⟨rfl, hne⟩, hnexti]
      rintro ⟨heq, hne'⟩
      exact hS.next_ne_prev (hprevmem hne) (hnextmem hne') heq
    · rw [← hnexti] at hy
      obtain ⟨rfl, hne⟩ := link_eq_some.1 hy
      show link ((h.remove i).array (h.next i + 2)) = _
      rw [remove_array, if_pos ⟨rfl, hne⟩, hprevi]
    · show link ((h.remove i).array (y + 1)) = link (h.array (y + 1))
      rw [remove_array, if_neg, if_neg]
      · rintro ⟨heq, hp⟩
        apply hne
        rw [← hprevi, link_of_ne hp]
        congr 1
        omega
      · rintro ⟨heq, hn⟩
        exact hS.next_ne_prev (hsub y hy) (hnextmem hn) heq
    · show link ((h.remove i).array (y + 2)) = link (h.array (y + 2))
      rw [remove_array, if_neg, if_neg]
      · rintro ⟨heq, hp⟩
        exact hS.next_ne_prev (hprevmem hp) (hsub y hy) heq.symm
      · rintro ⟨heq, hn⟩
        apply hne
        rw [← hnexti, link_of_ne hn]
        congr 1
        omega
  -- the head of the list is the block after the one removed, if that was the head
  have hhead : link (h.remove i).avail = (l₁ ++ l₂).head? := by
    rw [remove_avail]
    cases l₁ with
    | nil =>
      rw [if_pos (link_eq_none.1 hprevi), hnexti]
      rfl
    | cons y l₁ =>
      rw [if_neg, hS.chain.first_eq]
      · rfl
      · intro hz
        rw [hz, List.getLast?_cons] at hprevi
        simp at hprevi
  refine ⟨?_, hS.big, hS.apart, fun j hj => hS.avail j (hsub j hj), hhead ▸ hchain⟩
  intro b hb
  rw [(hS.remove_tags hb).1, (hS.remove_tags hb).2]
  exact hS.tagged b hb

/-! ## `makeTaken` and `makeAvail` -/

/-- What writing header and footer writes. -/
theorem setTags_array (h : Heap) (i v k : Int) :
    (h.setTags i v).array k = if k = i ∨ k = i + Heap.abs v - 1 then v else h.array k := by
  have hself : (h.set i v).array i = v := Function.update_self _ _ _
  have hfoot : (h.set i v).footerFromHeader i = i + Heap.abs v - 1 := by
    unfold Heap.footerFromHeader Heap.size
    rw [hself]
  unfold Heap.setTags
  simp only
  rw [hfoot]
  show update (update h.array i v) (i + Heap.abs v - 1) v k = _
  by_cases hk : k = i + Heap.abs v - 1
  · rw [if_pos (Or.inr hk), hk, Function.update_self]
  · rw [Function.update_of_ne hk]
    by_cases hi : k = i
    · rw [if_pos (Or.inl hi), hi, Function.update_self]
    · rw [if_neg (by omega), Function.update_of_ne hi]

/-- What `makeAvail` writes. -/
theorem makeAvail_array (h : Heap) (i : Int) (hn : 0 < n) (k : Int) :
    (h.makeAvail i n).array k =
      if k = h.avail + 2 ∧ h.avail ≠ 0 then i
      else if k = i + 2 then 0
      else if k = i + 1 then h.avail
      else if k = i ∨ k = i + n - 1 then n
      else h.array k := by
  have hbefore : (((h.setTags i n).setNext i h.avail).setPrev i 0).array k =
      if k = i + 2 then 0 else if k = i + 1 then h.avail
      else if k = i ∨ k = i + n - 1 then n else h.array k := by
    have htags := setTags_array h i n k
    rw [abs_of_pos hn] at htags
    rw [← htags]
    show update (update (h.setTags i n).array (i + 1) h.avail) (i + 2) 0 k = _
    by_cases h2 : k = i + 2
    · rw [if_pos h2, h2, Function.update_self]
    · rw [if_neg h2, Function.update_of_ne h2]
      by_cases h1 : k = i + 1
      · rw [if_pos h1, h1, Function.update_self]
      · rw [if_neg h1, Function.update_of_ne h1]
  rw [← hbefore]
  show (if h.avail ≠ 0 then (((h.setTags i n).setNext i h.avail).setPrev i 0).setPrev h.avail i
    else ((h.setTags i n).setNext i h.avail).setPrev i 0).array k = _
  by_cases ha : h.avail = 0
  · have hno : ¬ (k = h.avail + 2 ∧ h.avail ≠ 0) := fun hh => hh.2 ha
    rw [if_neg hno, if_neg (not_not.2 ha)]
  · rw [if_pos ha]
    show (update _ (h.avail + 2) i : Int → Int) k = _
    by_cases hk : k = h.avail + 2
    · have hyes : k = h.avail + 2 ∧ h.avail ≠ 0 := ⟨hk, ha⟩
      rw [if_pos hyes, hk, Function.update_self]
    · have hno : ¬ (k = h.avail + 2 ∧ h.avail ≠ 0) := fun hh => hk hh.1
      rw [if_neg hno, Function.update_of_ne hk]

/-- There is room for a new block of `n` ints at `i`. -/
def Room (bs : List Block) (i n : Int) : Prop := ∀ b ∈ bs, b.stop ≤ i ∨ i + n ≤ b.start

/-- The words between header and footer of the taken blocks are as they were. -/
def KeepsPayloads (bs : List Block) (h h' : Heap) : Prop :=
  ∀ b ∈ bs, b.tag < 0 → ∀ k, b.start < k → k < b.stop - 1 → h'.array k = h.array k

theorem KeepsPayloads.refl (bs : List Block) (h : Heap) : KeepsPayloads bs h h := fun _ _ _ _ _ _ => rfl

theorem KeepsPayloads.trans {h'' : Heap} (h₁ : KeepsPayloads bs h h') (h₂ : KeepsPayloads bs' h' h'')
    (hsub : ∀ b ∈ bs, b.tag < 0 → b ∈ bs') : KeepsPayloads bs h h'' := by
  intro b hb hneg k h1 h2
  rw [h₂ b (hsub b hb hneg) hneg k h1 h2, h₁ b hb hneg k h1 h2]

theorem KeepsPayloads.mono (h₁ : KeepsPayloads bs h h') (hsub : ∀ b ∈ bs', b.tag < 0 → b ∈ bs) :
    KeepsPayloads bs' h h' :=
  fun b hb hneg => h₁ b (hsub b hb hneg) hneg

/-- Links of listed blocks lie outside of the taken ones. -/
theorem Shape.links_not_taken (hS : Shape h bs l) (hi : i ∈ l) (hb : b ∈ bs) (hneg : b.tag < 0) :
    b.stop ≤ i ∨ i + 4 ≤ b.start := by
  obtain ⟨-, n, hn, hmem⟩ := hS.avail i hi
  have hstop : (Block.mk i n).stop = i + n := stop_avail hn
  have hne : b ≠ ⟨i, n⟩ := by
    rintro rfl
    simp only at hneg
    omega
  have happ := hS.apart b hb _ hmem hne
  simp only at happ
  omega

/-- Word `k` is a link of a block on the list. -/
def LinkWord (l : List Int) (k : Int) : Prop := ∃ j ∈ l, k = j + 1 ∨ k = j + 2

theorem LinkWord.mono (hk : LinkWord l₁ k) (hsub : l₁ ⊆ l₂) : LinkWord l₂ k := by
  obtain ⟨j, hj, hlink⟩ := hk
  exact ⟨j, hsub hj, hlink⟩

/-- No word of a taken block is a link. -/
theorem Shape.not_linkWord_taken (hS : Shape h bs l) (hb : b ∈ bs) (hneg : b.tag < 0) (h1 : b.start < k)
    (h2 : k < b.stop) : ¬ LinkWord l k := by
  rintro ⟨j, hj, hlink⟩
  have := hS.links_not_taken hj hb hneg
  omega

/-- **What `remove` writes are links** of listed blocks. -/
theorem Shape.remove_words (hS : Shape h bs (l₁ ++ i :: l₂)) (k : Int) :
    (h.remove i).array k = h.array k ∨ LinkWord (l₁ ++ i :: l₂) k := by
  rw [remove_array]
  split
  · rename_i hk
    refine Or.inr ⟨h.next i, ?_, Or.inr hk.1⟩
    exact hS.chain.linked.next_mem (y := i) (by simp) (link_of_ne hk.2)
  · split
    · rename_i hk
      refine Or.inr ⟨h.prev i, ?_, Or.inl hk.1⟩
      exact hS.chain.linked.prev_mem (y := i) (by simp) (link_of_ne hk.2)
    · exact Or.inl rfl

/-- `makeAvail` writes header, links and footer of the new block, and a link of the first block listed. -/
theorem Shape.makeAvail_words (hS : Shape h bs l) (hn : 0 < n) (k : Int) :
    (h.makeAvail i n).array k = h.array k ∨ LinkWord l k ∨ (i ≤ k ∧ k ≤ i + 2) ∨ k = i + n - 1 := by
  rw [makeAvail_array h i hn]
  split
  · rename_i hk
    have hfirst := hS.chain.first_eq
    rw [link_of_ne hk.2] at hfirst
    exact Or.inr (Or.inl ⟨h.avail, List.mem_of_mem_head? hfirst.symm, Or.inr hk.1⟩)
  · split
    · omega
    · split
      · omega
      · split
        · omega
        · exact Or.inl rfl

/-- **`remove` writes no payload**: only links of listed blocks. -/
theorem Shape.remove_payloads (hS : Shape h bs (l₁ ++ i :: l₂)) : KeepsPayloads bs h (h.remove i) := by
  intro b hb hneg k h1 h2
  exact (hS.remove_words k).resolve_right (hS.not_linkWord_taken hb hneg h1 (by omega))

/-- Nor does `makeTaken`, in the room for a new block. -/
theorem makeTaken_payloads (hn : 2 ≤ n) (hroom : Room bs i n) : KeepsPayloads bs h (h.makeTaken i n) := by
  intro b hb _ k h1 h2
  have hout := hroom b hb
  have htags := setTags_array h i (-n) k
  rw [abs_neg_of_pos (by omega), if_neg (by omega)] at htags
  exact htags

/-- Nor `makeAvail`: the link that it writes elsewhere is that of the first block listed. -/
theorem Shape.makeAvail_payloads (hS : Shape h bs l) (hn : 4 ≤ n) (hroom : Room bs i n) :
    KeepsPayloads bs h (h.makeAvail i n) := by
  intro b hb hneg k h1 h2
  have hout := hroom b hb
  rcases hS.makeAvail_words (i := i) (n := n) (by omega) k with hsame | hlink | hnew | hnew
  · exact hsame
  · exact absurd hlink (hS.not_linkWord_taken hb hneg h1 (by omega))
  · omega
  · omega

/-- Links of listed blocks lie outside of the room for a new one. -/
theorem Shape.links_outside (hS : Shape h bs l) (hroom : Room bs i n) (hj : j ∈ l) :
    j + 3 < i ∨ i + n ≤ j := by
  obtain ⟨-, m, hm, hmem⟩ := hS.avail j hj
  have hstop : (Block.mk j m).stop = j + m := stop_avail hm
  rcases hroom _ hmem with h1 | h1
  · omega
  · exact Or.inr h1

/-- A new block lies apart from the others. -/
theorem Shape.apart_cons (hS : Shape h bs l) (hroom : Room bs i n) (hb : b.start = i)
    (hstop : b.stop = i + n) :
    ∀ x ∈ b :: bs, ∀ y ∈ b :: bs, x ≠ y → x.stop ≤ y.start ∨ y.stop ≤ x.start := by
  intro x hx y hy hne
  rcases List.mem_cons.1 hx with hxb | hx'
  · rcases List.mem_cons.1 hy with hyb | hy'
    · exact absurd (hxb.trans hyb.symm) hne
    · have := hroom y hy'
      rw [hxb, hstop, hb]
      omega
  · rcases List.mem_cons.1 hy with hyb | hy'
    · have := hroom x hx'
      rw [hyb, hstop, hb]
      omega
    · exact hS.apart x hx' y hy' hne

/-- **`makeTaken` adds a taken block** where there is room for it. -/
theorem Shape.makeTaken (hS : Shape h bs l) (hn : 2 ≤ n) (hroom : Room bs i n) :
    Shape (h.makeTaken i n) (⟨i, -n⟩ :: bs) l := by
  have hstop : (Block.mk i (-n)).stop = i + n := by
    show i + Heap.abs (-n) = i + n
    rw [abs_neg_of_pos (by omega)]
  have harray : ∀ k, (h.makeTaken i n).array k =
      if k = i ∨ k = i + n - 1 then -n else h.array k := by
    intro k
    have htags := setTags_array h i (-n) k
    rw [abs_neg_of_pos (by omega)] at htags
    exact htags
  refine ⟨fun b hb => ?_, fun b hb => ?_, hS.apart_cons hroom rfl hstop, fun j hj => ?_, ?_⟩
  · rcases List.mem_cons.1 hb with rfl | hb
    · rw [hstop, harray, harray, if_pos (Or.inl rfl), if_pos (Or.inr rfl)]
      exact ⟨rfl, rfl⟩
    · have hbig := hS.big b hb
      have hout := hroom b hb
      rw [harray, harray, if_neg (by omega), if_neg (by omega)]
      exact hS.tagged b hb
  · rcases List.mem_cons.1 hb with rfl | hb
    · rw [hstop]
      show i + 2 ≤ i + n
      omega
    · exact hS.big b hb
  · obtain ⟨hpos, m, hm, hmem⟩ := hS.avail j hj
    exact ⟨hpos, m, hm, List.mem_cons_of_mem _ hmem⟩
  · have hlink : ∀ j ∈ l, ∀ d, d = 1 ∨ d = 2 →
        link ((h.makeTaken i n).array (j + d)) = link (h.array (j + d)) := by
      intro j hj d hd
      have hout := hS.links_outside hroom hj
      rw [harray, if_neg (by omega)]
    exact hS.chain.congr (fun j hj => hlink j hj 1 (Or.inl rfl)) fun j hj => hlink j hj 2 (Or.inr rfl)

/-- **`makeAvail` adds an available block**, and puts it at the front of the list. -/
theorem Shape.makeAvail (hS : Shape h bs l) (hi : 0 < i) (hn : 4 ≤ n) (hroom : Room bs i n) :
    Shape (h.makeAvail i n) (⟨i, n⟩ :: bs) (i :: l) := by
  have hstop : (Block.mk i n).stop = i + n := stop_avail hn
  have hhead : h.avail ≠ 0 → h.avail ∈ l := by
    intro hne
    have hfirst := hS.chain.first_eq
    rw [link_of_ne hne] at hfirst
    exact List.mem_of_mem_head? hfirst.symm
  have hheadout : h.avail ≠ 0 → h.avail + 3 < i ∨ i + n ≤ h.avail := fun hne =>
    hS.links_outside hroom (hhead hne)
  have harray := makeAvail_array h i (n := n) (by omega)
  have hnot : i ∉ l := by
    intro hmem
    have := hS.links_outside hroom hmem
    omega
  refine ⟨fun b hb => ?_, fun b hb => ?_, hS.apart_cons hroom rfl hstop, fun j hj => ?_, ?_⟩
  · rcases List.mem_cons.1 hb with rfl | hb
    · rw [hstop]
      simp only
      rw [harray, harray]
      have hno : ∀ k, k = i ∨ k = i + n - 1 → ¬ (k = h.avail + 2 ∧ h.avail ≠ 0) := by
        rintro k hk ⟨heq, hne⟩
        have := hheadout hne
        omega
      rw [if_neg (hno i (Or.inl rfl)), if_neg (by omega), if_neg (by omega), if_pos (Or.inl rfl),
        if_neg (hno _ (Or.inr rfl)), if_neg (by omega), if_neg (by omega), if_pos (Or.inr rfl)]
      exact ⟨rfl, rfl⟩
    · have hbig := hS.big b hb
      have hout := hroom b hb
      have hno : ∀ k, k = b.start ∨ k = b.stop - 1 → ¬ (k = h.avail + 2 ∧ h.avail ≠ 0) := by
        rintro k hk ⟨heq, hne⟩
        have := hS.links_not_tags (hhead hne) hb
        omega
      rw [harray, harray, if_neg (hno _ (Or.inl rfl)), if_neg (by omega), if_neg (by omega),
        if_neg (by omega), if_neg (hno _ (Or.inr rfl)), if_neg (by omega), if_neg (by omega),
        if_neg (by omega)]
      exact hS.tagged b hb
  · rcases List.mem_cons.1 hb with rfl | hb
    · rw [hstop]
      show i + 2 ≤ i + n
      omega
    · exact hS.big b hb
  · rcases List.mem_cons.1 hj with rfl | hj
    · exact ⟨hi, n, hn, by simp⟩
    · obtain ⟨hpos, m, hm, hmem⟩ := hS.avail j hj
      exact ⟨hpos, m, hm, List.mem_cons_of_mem _ hmem⟩
  · have hlast : (i :: l).getLast? = some (l.getLast?.getD i) := List.getLast?_cons
    have hfirst : link (h.makeAvail i n).avail = some i := by
      show link i = some i
      exact link_of_ne (by omega)
    rw [hlast, hfirst]
    refine hS.chain.push hnot ?_ ?_ (fun y hy => ?_) (fun y hy => ?_) fun y hy hne => ?_
    · show link ((h.makeAvail i n).array (i + 1)) = _
      rw [harray, if_neg, if_neg (by omega), if_pos rfl]
      rintro ⟨heq, hne⟩
      have := hheadout hne
      omega
    · show link ((h.makeAvail i n).array (i + 2)) = _
      rw [harray, if_neg, if_pos rfl]
      · rfl
      · rintro ⟨heq, hne⟩
        have := hheadout hne
        omega
    · show link ((h.makeAvail i n).array (y + 1)) = link (h.array (y + 1))
      have hout := hS.links_outside hroom hy
      rw [harray, if_neg, if_neg (by omega), if_neg (by omega), if_neg (by omega)]
      rintro ⟨heq, hne⟩
      exact hS.next_ne_prev hy (hhead hne) heq
    · obtain ⟨rfl, hne⟩ := link_eq_some.1 hy
      show link ((h.makeAvail i n).array (h.avail + 2)) = _
      rw [harray, if_pos ⟨rfl, hne⟩, link_of_ne (by omega)]
    · show link ((h.makeAvail i n).array (y + 2)) = link (h.array (y + 2))
      have hout := hS.links_outside hroom hy
      rw [harray, if_neg, if_neg (by omega), if_neg (by omega), if_neg (by omega)]
      rintro ⟨heq, hne'⟩
      apply hne
      rw [link_of_ne hne']
      congr 1
      omega

end Gheith

end BadApple
