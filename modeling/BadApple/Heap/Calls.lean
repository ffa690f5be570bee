/-
  `malloc` and `free` keep the array laid out.

  1. **Effect on blocks** — `Takes bs bs' b`: `bs'` has the taken block `b`, the other taken blocks are
     those of `bs`.  `malloc` takes a block, `free` goes the other way.
  2. `malloc` — the loop ends with a block of the avail list that is large enough, or with none; the
     block is opened and filled from the left.
  3. `free` — the block is opened, widened over each neighbour that is available, and filled.
-/
import BadApple.Heap.Layout
import BadApple.Lib.Best

namespace BadApple

open Chains
open Rows

namespace Gheith

/-- `b` is the taken block that `bs'` has and `bs` has not. -/
structure Takes (bs bs' : List Block) (b : Block) : Prop where
  taken : b.tag < 0
  fresh : b ∉ bs
  mem : b ∈ bs'
  other : ∀ c, c.tag < 0 → c ≠ b → (c ∈ bs' ↔ c ∈ bs)

variable {h h' : Heap} {bs bs' c₁ c₂ d₁ d₂ : List Block} {l l₁ l₂ : List Int} {i j k m n p ints : Int}
  {b c x y : Block}

/-! ## Tags -/

theorem Shape.isAvail_iff (hS : Shape h bs l) (hb : b ∈ bs) : h.isAvail b.start ↔ 0 < b.tag := by
  unfold Heap.isAvail
  rw [(hS.tagged b hb).1]

theorem Shape.isTaken_iff (hS : Shape h bs l) (hb : b ∈ bs) : h.isTaken b.start ↔ b.tag < 0 := by
  unfold Heap.isTaken
  rw [(hS.tagged b hb).1]

theorem Shape.size_eq (hS : Shape h bs l) (hb : b ∈ bs) : h.size b.start = Heap.abs b.tag := by
  unfold Heap.size
  rw [(hS.tagged b hb).1]

/-- From the index after a block back to the block. -/
theorem Shape.left_eq (hS : Shape h bs l) (hb : b ∈ bs) (hi : b.stop = i) : h.left i = b.start := by
  unfold Heap.left Heap.headerFromFooter Heap.size
  rw [← hi, (hS.tagged b hb).2]
  unfold Block.stop
  omega

/-- Addresses only depend on the base. -/
theorem addr_congr (hf : h'.SameFrame h) (i : Int) : h'.addr i = h.addr i := by
  unfold Heap.addr
  rw [hf.1]

/-! ## The loop of `malloc` -/

/-- The blocks that the loop chooses from: the first `countDown` ones of `l` that have `ints` ints. -/
def Heap.fitting (h : Heap) (ints : Int) (l : List Int) (countDown : Nat) : List Int :=
  (l.filter fun i => ints ≤ h.size i).take countDown

theorem fitting_cons_of_fits (hfit : ints ≤ h.size p) (countDown : Nat) :
    h.fitting ints (p :: l) (countDown + 1) = p :: h.fitting ints l countDown := by
  unfold Heap.fitting
  rw [List.filter_cons_of_pos (by simpa using hfit), List.take_succ_cons]

theorem fitting_cons_of_not_fits (hfit : ¬ ints ≤ h.size p) (countDown : Nat) :
    h.fitting ints (p :: l) countDown = h.fitting ints l countDown := by
  unfold Heap.fitting
  rw [List.filter_cons_of_neg (by simpa using hfit)]

theorem mem_of_mem_fitting {countDown : Nat} (hi : i ∈ h.fitting ints l countDown) :
    i ∈ l ∧ ints ≤ h.size i := by
  have hin := List.mem_filter.1 (List.mem_of_mem_take hi)
  exact ⟨hin.1, of_decide_eq_true hin.2⟩

/-- A listed block is available, and its size is its tag. -/
theorem Shape.listed_block (hS : Shape h bs l) (hi : i ∈ l) :
    0 < i ∧ h.isAvail i ∧ 4 ≤ h.size i ∧ ⟨i, h.size i⟩ ∈ bs := by
  obtain ⟨hpos, n, hn, hblock⟩ := hS.avail i hi
  have hsize : h.size i = n := (hS.size_eq hblock).trans (abs_of_pos (by simp only; omega))
  refine ⟨hpos, (hS.isAvail_iff hblock).2 (by simp only; omega), ?_, ?_⟩
  · rw [hsize]
    exact hn
  · rw [hsize]
    exact hblock

/-- **The loop keeps the best** of the blocks that it chooses from, wherever on the list it has got to. -/
theorem Shape.search_eq (hS : Shape h bs l) {ints : Int} : ∀ {fuel : Nat} {a rest : List Int} {p : Int}
    {countDown : Nat} {mx it : Int}, l = a ++ rest → link p = rest.head? → rest.length < fuel →
    0 < countDown →
    h.search ints fuel p countDown mx it =
      some ((h.fitting ints rest countDown).foldl (Best.keep h.size) (mx, it)) := by
  intro fuel
  induction fuel with
  | zero =>
    intro a rest p countDown mx it _ _ hlen
    omega
  | succ fuel ih =>
    intro a rest p countDown mx it hl hp hlen hcount
    cases rest with
    | nil =>
      have hp0 : p = 0 := link_eq_none.1 hp
      rw [Heap.search, if_pos hp0]
      simp [Heap.fitting]
    | cons q rest =>
      obtain ⟨rfl, hne⟩ := link_eq_some.1 hp
      obtain ⟨-, havail, -, -⟩ := hS.listed_block (show p ∈ l by simp [hl])
      have hnext : link (h.next p) = rest.head? := by
        have hlinked := hS.chain.linked
        rw [hl] at hlinked
        exact hlinked.next_eq
      have hrest : l = (a ++ [p]) ++ rest := by simp [hl]
      have hshort : rest.length < fuel := by simpa using hlen
      rw [Heap.search, if_neg hne, if_neg (not_not.2 havail)]
      by_cases hfit : ints ≤ h.size p
      · obtain ⟨left, rfl⟩ : ∃ left, countDown = left + 1 := ⟨countDown - 1, by omega⟩
        rw [if_pos hfit, fitting_cons_of_fits hfit, List.foldl_cons]
        show (if left = 0 then some (Best.keep h.size (mx, it) p) else
          h.search ints fuel (h.next p) left (Best.keep h.size (mx, it) p).1
            (Best.keep h.size (mx, it) p).2) = _
        by_cases hleft : left = 0
        · rw [if_pos hleft, hleft]
          simp [Heap.fitting]
        · rw [if_neg hleft]
          exact ih hrest hnext hshort (by omega)
      · rw [if_neg hfit, fitting_cons_of_not_fits hfit]
        exact ih hrest hnext hshort hcount

/-- The avail list is shorter than the array. -/
theorem LaidOut.length_lt (hL : LaidOut h bs l) : l.length < h.len.toNat := by
  have hsub : l ⊆ bs.map Block.start := by
    intro i hi
    obtain ⟨-, n, -, hmem⟩ := hL.shape.avail i hi
    exact List.mem_map.2 ⟨_, hmem, rfl⟩
  have hle := (List.subperm_of_subset hL.shape.chain.nodup hsub).length_le
  rw [List.length_map] at hle
  have hrow := hL.row.length_le hL.shape.big
  have hpos : 0 < bs.length := List.length_pos_of_mem hL.first
  omega

/-- What `malloc` finds for `ints` ints: size and index of a block, or the index 0. -/
def Heap.chosen (h : Heap) (ints : Int) (l : List Int) : Int × Int :=
  (h.fitting ints l countDownFrom).foldl (Best.keep h.size) (mxFrom, 0)

theorem LaidOut.search_chosen (hL : LaidOut h bs l) (ints : Int) :
    h.search ints h.len.toNat h.avail countDownFrom mxFrom 0 = some (h.chosen ints l) :=
  hL.shape.search_eq (List.nil_append l).symm hL.shape.chain.first_eq hL.length_lt (by decide)

/-- What is found is a listed block that is large enough. -/
theorem Shape.chosen_block (hS : Shape h bs l) (hit : (h.chosen ints l).2 ≠ 0) :
    (h.chosen ints l).2 ∈ l ∧ ⟨(h.chosen ints l).2, (h.chosen ints l).1⟩ ∈ bs ∧
      ints ≤ (h.chosen ints l).1 := by
  rcases Best.foldl_keep_cases h.size (h.fitting ints l countDownFrom) (mxFrom, 0) with hstart | ⟨i, hi, hres⟩
  · have hchosen : h.chosen ints l = (mxFrom, 0) := hstart
    rw [hchosen] at hit
    exact absurd rfl hit
  · have hchosen : h.chosen ints l = (h.size i, i) := hres
    obtain ⟨hmem, hfit⟩ := mem_of_mem_fitting hi
    rw [hchosen]
    exact ⟨hmem, (hS.listed_block hmem).2.2.2, hfit⟩

/-! ## `malloc` -/

/-- At least four ints. -/
theorem four_le_intsFor (bytes : Nat) : 4 ≤ Heap.intsFor bytes := by
  unfold Heap.intsFor
  simp only
  split <;> omega

/-- The size of the block that `malloc` takes out of one of `mx` ints. -/
def takenSize (ints mx : Int) : Int := if 4 ≤ mx - ints then ints else mx

/-- Taking the left part of an opened block, or all of it. -/
theorem Hole.take (hH : Hole h c₁ c₂ i mx l) (hi : 0 < i) (hints : 4 ≤ ints) (hfit : ints ≤ mx)
    (hright : ∀ y ∈ c₂.head?, ¬ 0 < y.tag)
    (hfirst : ⟨0, -2⟩ ∈ c₁ ++ c₂) (hlast : ⟨h.len - 2, -2⟩ ∈ c₁ ++ c₂) :
    ∃ bs' l', LaidOut (if 4 ≤ mx - ints then (h.makeTaken i ints).makeAvail (i + ints) (mx - ints)
        else h.makeTaken i mx) bs' l' ∧
      ∀ c, c.tag < 0 → (c ∈ bs' ↔ c = ⟨i, -takenSize ints mx⟩ ∨ c ∈ c₁ ++ c₂) := by
  unfold takenSize
  by_cases hextra : 4 ≤ mx - ints
  · rw [if_pos hextra, if_pos hextra]
    have hj : Junction (c₁ ++ [⟨i, -ints⟩]) [⟨i + ints, mx - ints⟩] := by
      rintro x hx y - ⟨hpos, -⟩
      obtain rfl : ⟨i, -ints⟩ = x := by simpa using hx
      simp only at hpos
      omega
    have hfull := (hH.pushTaken (by omega) hfit).pushAvail (by omega) hextra (Int.le_refl _) hj
    have hmem : ∀ c, c ∈ (c₁ ++ [⟨i, -ints⟩] ++ [⟨i + ints, mx - ints⟩]) ++ c₂ ↔
        c = ⟨i + ints, mx - ints⟩ ∨ c = ⟨i, -ints⟩ ∨ c ∈ c₁ ++ c₂ := by
      intro c
      rw [mem_push, List.mem_cons, mem_push, List.mem_cons]
    refine ⟨_, _, hfull.close (by omega) ?_ ((hmem _).2 (Or.inr (Or.inr hfirst)))
      ((hmem _).2 (Or.inr (Or.inr ?_))), ?_⟩
    · rintro x hx y hy ⟨-, hpos⟩
      exact hright y hy hpos
    · rw [((makeAvail_frame _ _ _).trans (makeTaken_frame _ _ _)).2.1]
      exact hlast
    · intro c hc
      rw [hmem]
      constructor
      · rintro (rfl | h)
        · simp only at hc
          omega
        · exact h
      · exact Or.inr
  · rw [if_neg hextra, if_neg hextra]
    have hfull := hH.pushTaken (by omega) (Int.le_refl mx)
    refine ⟨_, _, hfull.close (by omega) ?_ ((mem_push _ _).2 (List.mem_cons_of_mem _ hfirst))
      ((mem_push _ _).2 (List.mem_cons_of_mem _ hlast)), ?_⟩
    · rintro x hx y hy ⟨-, hpos⟩
      exact hright y hy hpos
    · intro c _
      rw [mem_push, List.mem_cons]

/-- Taking writes no payload of the blocks around. -/
theorem Hole.take_payloads (hH : Hole h c₁ c₂ i mx l) (hints : 4 ≤ ints) (hfit : ints ≤ mx) :
    KeepsPayloads (c₁ ++ c₂) h (if 4 ≤ mx - ints then (h.makeTaken i ints).makeAvail (i + ints) (mx - ints)
      else h.makeTaken i mx) := by
  by_cases hextra : 4 ≤ mx - ints
  · rw [if_pos hextra]
    have hpushed := hH.pushTaken (m := ints) (by omega) hfit
    refine (makeTaken_payloads (by omega) (hH.room_for hfit)).trans
      (hpushed.shape.makeAvail_payloads hextra (hpushed.room_for (Int.le_refl _))) ?_
    exact fun b hb _ => (mem_push _ b).2 (List.mem_cons_of_mem _ hb)
  · rw [if_neg hextra]
    exact makeTaken_payloads (by omega) (hH.room_for (Int.le_refl mx))

/-- **Taking a listed block**, or its left part: what is written is neither tag nor payload of another. -/
theorem LaidOut.takeBlock (hL : LaidOut h bs l) (hmem : i ∈ l) (hblock : ⟨i, mx⟩ ∈ bs) (hints : 4 ≤ ints)
    (hfit : ints ≤ mx) :
    ∃ h' bs' l', h' = (if 4 ≤ mx - ints then
        ((h.remove i).makeTaken i ints).makeAvail (i + ints) (mx - ints) else (h.remove i).makeTaken i mx) ∧
      h'.SameFrame h ∧ KeepsPayloads bs h h' ∧ LaidOut h' bs' l' ∧ Takes bs bs' ⟨i, -takenSize ints mx⟩ := by
  have hpos : 0 < i := (hL.shape.avail i hmem).1
  obtain ⟨l₁, l₂, rfl⟩ := List.append_of_mem hmem
  obtain ⟨c₁, c₂, rfl⟩ := List.append_of_mem hblock
  have hopen : Hole (h.remove i) c₁ c₂ i mx (l₁ ++ l₂) := by
    have hopened := hL.openAvail
    rwa [abs_of_pos (by simp only; omega)] at hopened
  -- a neighbour of an available block is not available
  have hright : ∀ y ∈ c₂.head?, ¬ 0 < y.tag := by
    intro y hy hy0
    have hjunction := (apart_append.1 (show Apart ((c₁ ++ [⟨i, mx⟩]) ++ c₂) by
      simpa only [List.append_assoc, List.singleton_append] using hL.apart)).2.2
    refine hjunction ⟨i, mx⟩ (by simp) y hy ⟨?_, hy0⟩
    simp only
    omega
  have hstays : ∀ b, b.tag < 0 → b ∈ c₁ ++ ⟨i, mx⟩ :: c₂ → b ∈ c₁ ++ c₂ := by
    intro b hb hin
    rcases mem_middle.1 hin with rfl | hin
    · simp only at hb
      omega
    · exact hin
  obtain ⟨bs', l', hL', hmem'⟩ := hopen.take hpos hints hfit hright
    (hstays _ (by simp) hL.first) (by
      rw [(remove_frame h i).2.1]
      exact hstays _ (by simp) hL.last)
  have hframe : (if 4 ≤ mx - ints then
      ((h.remove i).makeTaken i ints).makeAvail (i + ints) (mx - ints)
      else (h.remove i).makeTaken i mx).SameFrame h := by
    split
    · exact (makeAvail_frame _ _ _).trans ((makeTaken_frame _ _ _).trans (remove_frame h i))
    · exact (makeTaken_frame _ _ _).trans (remove_frame h i)
  have hkeeps := hL.shape.remove_payloads.trans (hopen.take_payloads hints hfit)
    fun b hb hneg => hstays b hneg hb
  have hneg : -takenSize ints mx < 0 := by
    unfold takenSize
    split <;> omega
  refine ⟨_, bs', l', rfl, hframe, hkeeps, hL', hneg, ?_, (hmem' _ hneg).2 (Or.inl rfl), ?_⟩
  · intro hin
    have heq := hL.shape.eq_of_start hin hblock rfl
    simp only [Block.mk.injEq] at heq
    omega
  · intro c hc hne
    rw [hmem' c hc]
    constructor
    · rintro (rfl | hin)
      · exact absurd rfl hne
      · exact mem_middle.2 (Or.inr hin)
    · exact fun hin => Or.inr (hstays c hc hin)

/-- **What `malloc` does**: nothing, its result being null or the array; or it takes a block, its result
    pointing behind the header. -/
theorem LaidOut.malloc (hL : LaidOut h bs l) (bytes : Nat) :
    ∃ q h', h.malloc bytes = some (q, h') ∧ h'.SameFrame h ∧ KeepsPayloads bs h h' ∧
      (h' = h ∧ (q = 0 ∨ bytes = 0 ∧ q = h.base) ∨
        ∃ i mx bs' l', ⟨i, mx⟩ ∈ bs ∧ 0 < i ∧ Heap.intsFor bytes ≤ mx ∧ q = h.addr (i + 1) ∧
          LaidOut h' bs' l' ∧ Takes bs bs' ⟨i, -takenSize (Heap.intsFor bytes) mx⟩) := by
  unfold Heap.malloc
  by_cases hz : bytes = 0
  · rw [if_pos hz]
    exact ⟨_, _, rfl, ⟨rfl, rfl, rfl⟩, .refl _ _, Or.inl ⟨rfl, Or.inr ⟨hz, rfl⟩⟩⟩
  rw [if_neg hz]
  obtain ⟨mx, it, hsearch, hfound⟩ : ∃ mx it,
      h.search (Heap.intsFor bytes) h.len.toNat h.avail countDownFrom mxFrom 0 = some (mx, it) ∧
        (it ≠ 0 → it ∈ l ∧ Block.mk it mx ∈ bs ∧ Heap.intsFor bytes ≤ mx) :=
    ⟨_, _, hL.search_chosen _, hL.shape.chosen_block⟩
  simp only [hsearch, Option.bind_eq_bind, Option.bind_some]
  by_cases hit : it = 0
  · rw [if_neg (not_not.2 hit)]
    exact ⟨_, _, rfl, ⟨rfl, rfl, rfl⟩, .refl _ _, Or.inl ⟨rfl, Or.inl rfl⟩⟩
  rw [if_pos hit]
  obtain ⟨hmem, hblock, hfit⟩ := hfound hit
  obtain ⟨h', bs', l', heq, hframe, hkeeps, hL', htakes⟩ :=
    hL.takeBlock hmem hblock (four_le_intsFor bytes) hfit
  rw [← heq]
  exact ⟨_, _, rfl, hframe, hkeeps, Or.inr ⟨it, mx, bs', l', hblock, (hL.shape.avail it hmem).1, hfit,
    addr_congr hframe _, hL', htakes⟩⟩

/-! ## `free` -/

/-- `remove` keeps the tag of the block it takes off the list. -/
theorem Shape.remove_size (hS : Shape h bs (l₁ ++ b.start :: l₂)) (hb : b ∈ bs) :
    (h.remove b.start).size b.start = Heap.abs b.tag := by
  unfold Heap.size
  rw [(hS.remove_tags hb).1, (hS.tagged b hb).1]

/-- All that is written are links of blocks on the list. -/
def OnlyLinks (l : List Int) (h h' : Heap) : Prop := ∀ k, h'.array k = h.array k ∨ LinkWord l k

/-- An available block around a hole has at least four ints. -/
theorem Hole.four_le (hH : Hole h c₁ c₂ i n l) (hb : b ∈ c₁ ++ c₂) (ha : 0 < b.tag) :
    b.start ∈ l ∧ 4 ≤ b.tag := by
  have hmem := hH.listed b hb ha
  obtain ⟨-, m, hm, hin⟩ := hH.shape.avail _ hmem
  have heq := hH.shape.eq_of_start hb hin rfl
  rw [heq]
  exact ⟨hmem, hm⟩

/-- Widening a hole over the block to its left, if that is available. -/
theorem Hole.coalesceLeft (hH : Hole h (c₁ ++ [x]) c₂ i n l) (hi : 0 < i) :
    ∃ h' c₁' i' n' l',
      (if h.isAvail x.start then
        (h.remove x.start, x.start, n + (h.remove x.start).size x.start) else (h, i, n)) = (h', i', n') ∧
      Hole h' c₁' c₂ i' n' l' ∧ h'.SameFrame h ∧ 0 < i' ∧
      (4 ≤ x.tag ∧ c₁' = c₁ ∧ i' = x.start ∧ n' = n + x.tag ∨
        ¬ 0 < x.tag ∧ c₁' = c₁ ++ [x] ∧ i' = i ∧ n' = n) ∧
      (∀ y ∈ c₁'.getLast?, ¬ 0 < y.tag) ∧ (∀ c, c.tag < 0 → (c ∈ c₁' ↔ c ∈ c₁ ++ [x])) ∧ l' ⊆ l ∧
      OnlyLinks l h h' ∧ KeepsPayloads ((c₁ ++ [x]) ++ c₂) h h' := by
  have hx : x ∈ (c₁ ++ [x]) ++ c₂ := by simp
  by_cases ha : 0 < x.tag
  · obtain ⟨hmem, hbig⟩ := hH.four_le hx ha
    have hpos := (hH.shape.avail _ hmem).1
    obtain ⟨l₁, l₂, rfl⟩ := List.append_of_mem hmem
    have hsize := hH.shape.remove_size hx
    have hopened := hH.takeLeft
    rw [abs_of_pos ha] at hsize hopened
    rw [Int.add_comm] at hopened
    rw [if_pos ((hH.shape.isAvail_iff hx).2 ha), hsize]
    refine ⟨_, _, _, _, _, rfl, hopened, remove_frame _ _, hpos, Or.inl ⟨hbig, rfl, rfl, rfl⟩,
      fun y hy hy0 => ?_, fun c hc => ?_, (List.Sublist.append_left (List.sublist_cons_self _ _) _).subset,
      hH.shape.remove_words, hH.shape.remove_payloads⟩
    · exact (apart_append.1 hH.apartLeft).2.2 y hy x (by simp) ⟨hy0, ha⟩
    · rw [List.mem_append, List.mem_singleton]
      refine (or_iff_left ?_).symm
      rintro rfl
      omega
  · rw [if_neg (fun hav => ha ((hH.shape.isAvail_iff hx).1 hav))]
    refine ⟨_, _, _, _, _, rfl, hH, ⟨rfl, rfl, rfl⟩, hi, Or.inr ⟨ha, rfl, rfl, rfl⟩, fun y hy => ?_,
      fun _ _ => Iff.rfl, fun _ hj => hj, fun _ => Or.inl rfl, .refl _ _⟩
    obtain rfl : x = y := by simpa using hy
    exact ha

/-- Widening a hole over the block to its right, if that is available. -/
theorem Hole.coalesceRight (hH : Hole h c₁ (y :: c₂) i n l) :
    ∃ h' c₂' n' l',
      (if h.isAvail y.start then
        (h.remove y.start, n + (h.remove y.start).size y.start) else (h, n)) = (h', n') ∧
      Hole h' c₁ c₂' i n' l' ∧ h'.SameFrame h ∧
      (4 ≤ y.tag ∧ c₂' = c₂ ∧ n' = n + y.tag ∨ ¬ 0 < y.tag ∧ c₂' = y :: c₂ ∧ n' = n) ∧
      (∀ z ∈ c₂'.head?, ¬ 0 < z.tag) ∧ (∀ c, c.tag < 0 → (c ∈ c₂' ↔ c ∈ y :: c₂)) ∧ l' ⊆ l ∧
      OnlyLinks l h h' ∧ KeepsPayloads (c₁ ++ y :: c₂) h h' := by
  have hy : y ∈ c₁ ++ y :: c₂ := by simp
  by_cases ha : 0 < y.tag
  · obtain ⟨hmem, hbig⟩ := hH.four_le hy ha
    obtain ⟨l₁, l₂, rfl⟩ := List.append_of_mem hmem
    have hsize := hH.shape.remove_size hy
    have hopened := hH.takeRight
    rw [abs_of_pos ha] at hsize hopened
    rw [if_pos ((hH.shape.isAvail_iff hy).2 ha), hsize]
    refine ⟨_, _, _, _, rfl, hopened, remove_frame _ _, Or.inl ⟨hbig, rfl, rfl⟩, fun z hz hz0 => ?_,
      fun c hc => ?_, (List.Sublist.append_left (List.sublist_cons_self _ _) _).subset,
      hH.shape.remove_words, hH.shape.remove_payloads⟩
    · exact (List.isChain_cons.1 hH.apartRight).1 z hz ⟨ha, hz0⟩
    · rw [List.mem_cons]
      refine (or_iff_right ?_).symm
      rintro rfl
      omega
  · rw [if_neg (fun hav => ha ((hH.shape.isAvail_iff hy).1 hav))]
    refine ⟨_, _, _, _, rfl, hH, ⟨rfl, rfl, rfl⟩, Or.inr ⟨ha, rfl, rfl⟩, fun z hz => ?_, fun _ _ => Iff.rfl,
      fun _ hj => hj, fun _ => Or.inl rfl, .refl _ _⟩
    obtain rfl : y = z := by simpa using hz
    exact ha

/-- A hole between blocks that are not available is filled by one that is. -/
theorem Hole.fill (hH : Hole h c₁ c₂ i n l) (hi : 0 < i) (hn : 4 ≤ n)
    (hleft : ∀ y ∈ c₁.getLast?, ¬ 0 < y.tag) (hright : ∀ y ∈ c₂.head?, ¬ 0 < y.tag)
    (hfirst : ⟨0, -2⟩ ∈ c₁ ++ c₂) (hlast : ⟨h.len - 2, -2⟩ ∈ c₁ ++ c₂) :
    LaidOut (h.makeAvail i n) ((c₁ ++ [⟨i, n⟩]) ++ c₂) (i :: l) := by
  have hfull := hH.pushAvail hi hn (Int.le_refl n) fun y hy _ _ hpos => hleft y hy hpos.1
  refine hfull.close (by omega) ?_ ((mem_push _ _).2 (List.mem_cons_of_mem _ hfirst))
    ((mem_push _ _).2 (List.mem_cons_of_mem _ ?_))
  · rintro x hx y hy ⟨-, hpos⟩
    exact hright y hy hpos
  · rw [(makeAvail_frame h i n).2.1]
    exact hlast

/-- A block that is no sentinel has neighbours. -/
theorem LaidOut.neighbours (hL : LaidOut h (c₁ ++ b :: c₂) l) (hb : 0 < b.start)
    (hbl : b.start ≠ h.len - 2) : ∃ d₁ x y d₂, c₁ = d₁ ++ [x] ∧ x.stop = b.start ∧
      c₂ = y :: d₂ ∧ y.start = b.stop := by
  obtain ⟨hrow1, hrow2⟩ := row_middle.1 hL.row
  have hlt := hL.shape.pos b (by simp)
  have hleft : ∃ d₁ x, c₁ = d₁ ++ [x] := by
    rcases List.eq_nil_or_concat c₁ with rfl | ⟨d₁, x, rfl⟩
    · have heq : (0 : Int) = b.start := hrow1
      omega
    · exact ⟨d₁, x, by simp⟩
  obtain ⟨d₁, x, rfl⟩ := hleft
  have hx : x.stop = b.start := (row_middle.1 hrow1).2
  cases c₂ with
  | nil =>
    -- the last sentinel would have to be the block itself
    have hend : b.stop = h.len := hrow2
    have hlast := hL.last
    rw [List.mem_append] at hlast
    rcases hlast with hin | hin
    · have hstop := ((hrow1.bounds fun z hz => hL.shape.pos z (List.mem_append_left _ hz)).2 _ hin).2
      have hval : (Block.mk (h.len - 2) (-2)).stop = h.len := by
        show h.len - 2 + Heap.abs (-2) = h.len
        rw [show Heap.abs (-2) = 2 from rfl]
        omega
      omega
    · obtain rfl : ⟨h.len - 2, -2⟩ = b := by simpa using hin
      exact absurd rfl hbl
  | cons y d₂ => exact ⟨d₁, x, y, d₂, rfl, hx, rfl, hrow2.1⟩

/-- A pointer and the index it stands for. -/
theorem idx_addr (h : Heap) (hi : 0 ≤ i) : h.idx (h.addr (i + 1)) = i := by
  unfold Heap.idx Heap.addr
  have hsub : h.base + 4 * (i + 1).toNat - h.base = 4 * (i + 1).toNat := by omega
  rw [hsub]
  omega

/-- **What `free` of block `b` makes of the blocks**: the available block `m` takes the place of `b` and of
    its available neighbours, and nothing is written but its own words and links. -/
structure Merges (h h' : Heap) (bs bs' : List Block) (l : List Int) (b m : Block) : Prop where
  mem : m ∈ bs'
  avail : 0 < m.tag
  start : ¬ h.isAvail (h.left b.start) ∧ m.start = b.start ∨
    h.isAvail (h.left b.start) ∧ m.start + 4 ≤ b.start
  stop : b.stop ≤ m.stop
  kept : ∀ c ∈ bs, 0 < c.tag → c ∈ bs' ∨ (c.start = m.start ∨ m.start + 4 ≤ c.start) ∧ c.stop ≤ m.stop
  words : ∀ k, h'.array k = h.array k ∨ LinkWord l k ∨ (m.start ≤ k ∧ k ≤ m.start + 2) ∨ k = m.stop - 1

/-- Two blocks around `b`, each absorbed if it is available, the block made of them, and its words. -/
theorem Shape.merges (hS : Shape h (c₁ ++ [x] ++ b :: y :: c₂) l) (hx : x.stop = b.start)
    (hy : y.start = b.stop) (hb : b.tag ≤ -4)
    (hleft : 4 ≤ x.tag ∧ d₁ = c₁ ∧ i = x.start ∧ m = Heap.abs b.tag + x.tag ∨
      ¬ 0 < x.tag ∧ d₁ = c₁ ++ [x] ∧ i = b.start ∧ m = Heap.abs b.tag)
    (hright : 4 ≤ y.tag ∧ d₂ = c₂ ∧ n = m + y.tag ∨ ¬ 0 < y.tag ∧ d₂ = y :: c₂ ∧ n = m)
    (hwords : ∀ k, h'.array k = h.array k ∨ LinkWord l k ∨ (i ≤ k ∧ k ≤ i + 2) ∨ k = i + n - 1) :
    Merges h h' (c₁ ++ [x] ++ b :: y :: c₂) ((d₁ ++ [⟨i, n⟩]) ++ d₂) l b ⟨i, n⟩ := by
  have hxmem : x ∈ c₁ ++ [x] ++ b :: y :: c₂ := by simp
  have hstop : b.stop = b.start + Heap.abs b.tag := rfl
  have habs : Heap.abs b.tag = -b.tag := if_pos (by omega)
  have hxstop : 0 < x.tag → x.stop = x.start + x.tag := by
    intro ha
    show x.start + Heap.abs x.tag = _
    rw [abs_of_pos ha]
  have hystop : 0 < y.tag → y.stop = y.start + y.tag := by
    intro ha
    show y.start + Heap.abs y.tag = _
    rw [abs_of_pos ha]
  have hmstop : (Block.mk i n).stop = i + n := stop_avail (by omega)
  refine ⟨(mem_push _ _).2 List.mem_cons_self, by simp only; omega, ?_, by omega, fun c hc ha => ?_, ?_⟩
  · rw [hS.left_eq hxmem hx, hS.isAvail_iff hxmem]
    simp only
    omega
  · -- the blocks further away stay, the neighbours stay or become part of the new one
    have hfar : c ∈ c₁ ∨ c ∈ c₂ → c ∈ (d₁ ++ [⟨i, n⟩]) ++ d₂ := by
      intro hfar
      rw [mem_push, List.mem_cons, List.mem_append]
      refine Or.inr (hfar.imp (fun hin => ?_) fun hin => ?_)
      · rcases hleft with ⟨-, rfl, -⟩ | ⟨-, rfl, -⟩
        · exact hin
        · exact List.mem_append_left _ hin
      · rcases hright with ⟨-, rfl, -⟩ | ⟨-, rfl, -⟩
        · exact hin
        · exact List.mem_cons_of_mem _ hin
    simp only [List.mem_append, List.mem_cons, List.not_mem_nil, or_false] at hc
    rcases hc with (hc | rfl) | rfl | rfl | hc
    · exact Or.inl (hfar (Or.inl hc))
    · refine Or.inr ⟨Or.inl ?_, ?_⟩
      · simp only
        omega
      · omega
    · omega
    · refine Or.inr ⟨Or.inr ?_, ?_⟩
      · simp only
        omega
      · omega
    · exact Or.inl (hfar (Or.inr hc))
  · rw [hmstop]
    exact hwords

/-- **What `free` does** to a taken block that is no sentinel. -/
theorem LaidOut.free (hL : LaidOut h bs l) (hb : b ∈ bs) (hneg : b.tag ≤ -4) (hpos : 0 < b.start)
    (hbl : b.start ≠ h.len - 2) :
    ∃ h' bs' l' m, h.free (h.addr (b.start + 1)) = some h' ∧ h'.SameFrame h ∧ LaidOut h' bs' l' ∧
      Takes bs' bs b ∧ KeepsPayloads bs' h h' ∧ Merges h h' bs bs' l b m := by
  obtain ⟨c₁, c₂, rfl⟩ := List.append_of_mem hb
  obtain ⟨d₁, x, y, d₂, rfl, hx, rfl, hy⟩ := hL.neighbours hpos hbl
  have hxmem : x ∈ d₁ ++ [x] ++ b :: y :: d₂ := by simp
  have hsize : h.size b.start = Heap.abs b.tag := hL.shape.size_eq hb
  have hleft : h.left b.start = x.start := hL.shape.left_eq hxmem hx
  have hright : h.right b.start = y.start := by
    unfold Heap.right
    rw [hsize, hy]
    rfl
  have habs : 4 ≤ Heap.abs b.tag := by
    unfold Heap.abs
    rw [if_pos (by omega)]
    omega
  have hstop : b.stop = b.start + Heap.abs b.tag := rfl
  have htaken : h.isTaken b.start := (hL.shape.isTaken_iff hb).2 (by omega)
  have hold : ∀ c, c.tag < 0 → c ≠ b → (c ∈ d₁ ++ [x] ++ b :: y :: d₂ ↔ c ∈ d₁ ++ [x] ++ y :: d₂) := by
    intro c _ hne
    rw [mem_middle]
    exact or_iff_right hne
  obtain ⟨h₁, e₁, i₁, n₁, l₁, hif₁, hH₁, hf₁, hpos₁, hcase₁, hlast₁, hmem₁, hsub₁, hlinks₁, hkeeps₁⟩ :=
    (hL.openTaken (by omega)).coalesceLeft hpos
  obtain ⟨h₂, e₂, n₂, l₂, hif₂, hH₂, hf₂, hcase₂, hhead₂, hmem₂, hsub₂, hlinks₂, hkeeps₂⟩ := hH₁.coalesceRight
  have hmem : ∀ c, c.tag < 0 → (c ∈ e₁ ++ e₂ ↔ c ∈ d₁ ++ [x] ++ y :: d₂) := by
    intro c hc
    rw [List.mem_append, hmem₁ c hc, hmem₂ c hc, ← List.mem_append]
  have hframe : h₂.SameFrame h := hf₂.trans hf₁
  have hstays : ∀ c, c.tag < 0 → c ≠ b → c ∈ d₁ ++ [x] ++ b :: y :: d₂ → c ∈ e₁ ++ e₂ :=
    fun c hc hne hin => (hmem c hc).2 ((hold c hc hne).1 hin)
  have hn : 4 ≤ n₂ := by omega
  have hfilled := hH₂.fill hpos₁ hn hlast₁ hhead₂
    (hstays _ (by simp) (by rintro rfl; simp at hpos) hL.first) (by
      rw [hframe.2.1]
      exact hstays _ (by simp) (by rintro rfl; exact hbl rfl) hL.last)
  -- the taken blocks are the same throughout, and those of the new row
  have hsame₁ : ∀ c, c ∈ d₁ ++ [x] ++ y :: d₂ → c.tag < 0 → c ∈ e₁ ++ y :: d₂ := by
    intro c hc hcneg
    rw [List.mem_append, hmem₁ c hcneg, ← List.mem_append]
    exact hc
  have hkeeps : KeepsPayloads (d₁ ++ [x] ++ y :: d₂) h (h₂.makeAvail i₁ n₂) :=
    (hkeeps₁.trans hkeeps₂ hsame₁).trans
      (hH₂.shape.makeAvail_payloads hn (hH₂.room_for (Int.le_refl _)))
      fun c hc hcneg => (hmem c hcneg).2 hc
  refine ⟨_, _, _, ⟨i₁, n₂⟩, ?_, (makeAvail_frame _ _ _).trans hframe, hfilled, ⟨by omega, ?_, hb, ?_⟩,
    hkeeps.mono fun c hc hcneg => ?_, ?_⟩
  · have haddr : h.base < h.addr (b.start + 1) := by
      unfold Heap.addr
      omega
    unfold Heap.free
    rw [if_neg (by omega), if_neg (by omega)]
    simp only [idx_addr h (Int.le_of_lt hpos), hleft, hright, hsize]
    rw [if_pos htaken, hif₁]
    simp only
    rw [hif₂]
  · -- the new block is available, so `b` would have to be on one of its sides
    intro hin
    rcases List.mem_cons.1 ((mem_push _ b).1 hin) with heq | hin
    · rw [heq] at hneg
      simp only at hneg
      omega
    · exact hL.row.not_mem hL.shape.pos ((hmem b (by omega)).1 hin)
  · intro c hc hne
    rw [hold c hc hne, ← hmem c hc, mem_push, List.mem_cons]
    refine (or_iff_right ?_).symm
    rintro rfl
    simp only at hc
    omega
  · rcases List.mem_cons.1 ((mem_push _ c).1 hc) with rfl | hc
    · simp only at hcneg
      omega
    · exact (hmem c hcneg).1 hc
  · refine hL.shape.merges hx hy hneg hcase₁ hcase₂ fun k => ?_
    rcases hH₂.shape.makeAvail_words (i := i₁) (n := n₂) (by omega) k with hsame | hlink | hnew
    · rw [hsame]
      rcases hlinks₂ k with hsame₂ | hlink
      · rw [hsame₂]
        exact (hlinks₁ k).imp_right Or.inl
      · exact Or.inr (Or.inl (hlink.mono hsub₁))
    · exact Or.inr (Or.inl ((hlink.mono hsub₂).mono hsub₁))
    · exact Or.inr (Or.inr hnew)

end Gheith

end BadApple
