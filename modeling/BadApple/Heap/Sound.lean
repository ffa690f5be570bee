/-
  The heap stays laid out over every sequence of calls.

  1. **The start** — `heapInit` lays out two sentinels and one available block, and takes the block of the
     heap's own lock out of it.  Nothing ever frees that block.
  2. **Invariant** — `UseInv`: the array is laid out, the taken blocks are the sentinels, that of the lock
     and those of the live results of `malloc`.  Each call keeps it, and so does a write into a block in
     use, which touches neither tags nor links.
  3. **The result** — `heap_laidOut`: in every state the array is laid out and no legal call panics; once
     every live block has been freed the heap is as `heapInit` left it.
-/
import BadApple.Heap.Calls
import BadApple.Lib.Runs

namespace BadApple

open Function (update)
open Chains
open Rows

namespace Gheith

variable {h h' : Heap} {u u' : Use} {bs bs' c₁ c₂ : List Block} {l : List Int} {i k n v : Int}
  {b c x y : Block} {p q : Nat}

/-- Base and lock do not matter. -/
theorem LaidOut.congr (hL : LaidOut h bs l) (ha : h'.array = h.array) (hv : h'.avail = h.avail)
    (hl : h'.len = h.len) : LaidOut h' bs l := by
  obtain ⟨base, array, len, avail, lock⟩ := h
  obtain ⟨base', array', len', avail', lock'⟩ := h'
  obtain rfl : array' = array := ha
  obtain rfl : avail' = avail := hv
  obtain rfl : len' = len := hl
  obtain ⟨⟨h1, h2, h3, h4, h5⟩, h6, h7, h8, h9, h10⟩ := hL
  exact ⟨⟨h1, h2, h3, h4, h5⟩, h6, h7, h8, h9, h10⟩

/-! ## `heapInit` -/

/-- Before anything is laid out all of the array is a hole. -/
theorem hole_initial (base : Nat) {len : Int} (hlen : 0 ≤ len) (mem : Int → Int) :
    Hole (Heap.initial base len mem) [] [] 0 len [] := by
  refine ⟨⟨by simp, by simp, by simp, by simp, Chain.nil⟩, rfl, ?_, hlen, by simp, List.isChain_nil,
    List.isChain_nil⟩
  show 0 + len = len
  omega

theorem initBlocks_frame (h : Heap) : h.initBlocks.SameFrame h :=
  (makeTaken_frame _ _ _).trans ((makeAvail_frame _ _ _).trans (makeTaken_frame _ _ _))

/-- The three blocks that `heapInit` makes. -/
theorem initBlocks_laidOut (base : Nat) {len : Int} (hlen : 8 ≤ len) (mem : Int → Int) :
    LaidOut (Heap.initial base len mem).initBlocks [⟨0, -2⟩, ⟨2, len - 4⟩, ⟨len - 2, -2⟩] [2] := by
  have hfirst : Hole ((Heap.initial base len mem).makeTaken 0 2) [⟨0, -2⟩] [] (0 + 2) (len - 2) [] :=
    (hole_initial base (by omega) mem).pushTaken (Int.le_refl 2) (by omega)
  have hmiddle : Hole (((Heap.initial base len mem).makeTaken 0 2).makeAvail 2 (len - 4))
      [⟨0, -2⟩, ⟨2, len - 4⟩] [] (2 + (len - 4)) (len - 2 - (len - 4)) [2] := by
    refine hfirst.pushAvail (by omega) (by omega) (by omega) ?_
    rintro x hx y - ⟨hpos, -⟩
    obtain rfl : ⟨0, -2⟩ = x := by simpa using hx
    simp at hpos
  rw [show (2 : Int) + (len - 4) = len - 2 by omega] at hmiddle
  have hlast := hmiddle.pushTaken (Int.le_refl 2) (by omega)
  have hlen' : (((Heap.initial base len mem).makeTaken 0 2).makeAvail 2 (len - 4)).len = len :=
    (makeAvail_frame _ _ _).2.1
  rw [Heap.initBlocks]
  refine hlast.close (by omega) (fun _ _ _ hnone => by simp at hnone) (by simp) ?_
  rw [(makeTaken_frame _ _ _).2.1, hlen']
  simp

/-- The size of the lock's block. -/
def lockInts (len : Int) : Int := takenSize 8 (len - 4)

/-- The heap without a live block: the sentinels, the lock, and what is left, if it is worth a block. -/
def restBlocks (len : Int) : List Block :=
  if len < 16 then [⟨0, -2⟩, ⟨2, -(len - 4)⟩, ⟨len - 2, -2⟩]
  else [⟨0, -2⟩, ⟨2, -8⟩, ⟨10, len - 12⟩, ⟨len - 2, -2⟩]

/-! ## Invariant -/

/-- Where the sentinels and the lock's block start. -/
def Own (len i : Int) : Prop := i = 0 ∨ i = 2 ∨ i = len - 2

/-- What holds between calls, `bs` being the blocks and `l` the avail list. -/
structure UseInv (u : Use) (bs : List Block) (l : List Int) : Prop where
  laidOut : LaidOut u.heap bs l
  long : 12 ≤ u.heap.len
  lock : u.heap.theLock = u.heap.addr 3
  lockBlock : ⟨2, -lockInts u.heap.len⟩ ∈ bs
  nodup : u.live.Nodup
  live_block : ∀ p ∈ u.live, ∃ b ∈ bs, b.tag ≤ -4 ∧ ¬ Own u.heap.len b.start ∧
    p = u.heap.addr (b.start + 1)
  block_live : ∀ b ∈ bs, b.tag < 0 →
    Own u.heap.len b.start ∨ u.heap.addr (b.start + 1) ∈ u.live

theorem lockInts_bounds {len : Int} (hlen : 12 ≤ len) : 8 ≤ lockInts len ∧ lockInts len ≤ len - 4 := by
  unfold lockInts takenSize
  split <;> omega

/-- Addresses determine indices. -/
theorem addr_inj {j : Int} (hi : 0 ≤ i) (hj : 0 ≤ j) (heq : h.addr (i + 1) = h.addr (j + 1)) : i = j := by
  unfold Heap.addr at heq
  omega

theorem base_lt_addr (h : Heap) (hi : 0 ≤ i) : h.base < h.addr (i + 1) := by
  unfold Heap.addr
  omega

/-- The heap that `heapInit` leaves. -/
theorem useInv_heapInit {base bytes : Nat} {mem : Int → Int} (hlen : 8 ≤ bytes / 4)
    (hinit : Heap.heapInit base bytes mem = some h) : ∃ bs l, UseInv ⟨h, []⟩ bs l := by
  have hlen' : (8 : Int) ≤ ((bytes / 4 : Nat) : Int) := by omega
  have hL := initBlocks_laidOut base hlen' mem
  obtain ⟨q, h₁, hmalloc, hf₁, -, hres⟩ := hL.malloc lockBytes
  unfold Heap.heapInit at hinit
  simp only [hmalloc, Option.bind_eq_bind, Option.bind_some] at hinit
  split at hinit
  · simp at hinit
  rename_i hq
  obtain rfl := Option.some.inj hinit
  rcases hres with ⟨-, hq' | ⟨hz, -⟩⟩ | ⟨i, mx, bs', l', hblock, hi, hfit, hq', hL', htakes⟩
  · exact absurd hq' hq
  · exact absurd hz (by decide)
  -- the one available block is the one that the lock is taken from
  have hints : Heap.intsFor lockBytes = 8 := by decide +kernel
  rw [hints] at hfit htakes
  obtain ⟨rfl, rfl⟩ : i = 2 ∧ mx = ((bytes / 4 : Nat) : Int) - 4 := by
    simp only [List.mem_cons, Block.mk.injEq, List.not_mem_nil, or_false] at hblock
    omega
  have hf : h₁.SameFrame (Heap.initial base (bytes / 4 : Nat) mem) := hf₁.trans (initBlocks_frame _)
  have hlen₁ : h₁.len = ((bytes / 4 : Nat) : Int) := hf.2.1
  have hlong : (12 : Int) ≤ ((bytes / 4 : Nat) : Int) := by omega
  have haddr : q = h₁.addr 3 := by
    rw [hq', ← addr_congr hf₁]
    rfl
  refine ⟨bs', l', hL'.congr rfl rfl rfl, ?_, haddr, ?_, List.nodup_nil, by simp, ?_⟩
  · show 12 ≤ h₁.len
    omega
  · show ⟨2, -lockInts h₁.len⟩ ∈ bs'
    rw [hlen₁]
    exact htakes.mem
  · intro b hb hneg
    show Own h₁.len b.start ∨ _
    by_cases hnew : b = ⟨2, -takenSize 8 (((bytes / 4 : Nat) : Int) - 4)⟩
    · rw [hnew]
      exact Or.inl (Or.inr (Or.inl rfl))
    · have hin := (htakes.other b hneg hnew).1 hb
      simp only [List.mem_cons, List.not_mem_nil, or_false] at hin
      rw [hlen₁]
      rcases hin with rfl | rfl | rfl
      · exact Or.inl (Or.inl rfl)
      · exact Or.inl (Or.inr (Or.inl rfl))
      · exact Or.inl (Or.inr (Or.inr rfl))

/-! ## Calls -/

/-- Blocks start at indices of the array. -/
theorem LaidOut.start_nonneg (hL : LaidOut h bs l) (hb : b ∈ bs) : 0 ≤ b.start :=
  ((hL.row.bounds hL.shape.pos).2 b hb).1

/-- `malloc`. -/
theorem UseInv.malloc (hI : UseInv u bs l) {bytes : Nat} (hs : u.step (.malloc bytes) = some u') :
    ∃ bs' l', UseInv u' bs' l' := by
  obtain ⟨hL, hlong, hlock, hlockb, hnodup, hlb, hbl⟩ := hI
  obtain ⟨q, h', hmalloc, hf, -, hres⟩ := hL.malloc bytes
  simp only [Use.step, hmalloc, Option.bind_eq_bind, Option.bind_some, Option.some.injEq] at hs
  obtain rfl := hs
  have hlen : h'.len = u.heap.len := hf.2.1
  rcases hres with ⟨rfl, hq⟩ | ⟨i, mx, bs', l', hblock, hi, hfit, rfl, hL', htakes⟩
  · have hgiven : u.given q = [] := by
      unfold Use.given
      rcases hq with hq | ⟨-, hq⟩
      · rw [if_pos (Or.inl hq)]
      · rw [if_pos (Or.inr hq)]
    rw [hgiven]
    exact ⟨bs, l, hL, hlong, hlock, hlockb, hnodup, hlb, hbl⟩
  have hints := four_le_intsFor bytes
  -- what is taken is not available, so nothing taken starts where the new block does
  have hother : ∀ b ∈ bs, b.tag < 0 → b.start ≠ i := by
    intro b hb hneg heq
    have hbi := hL.shape.eq_of_start hb hblock heq
    rw [hbi] at hneg
    simp only at hneg
    omega
  have hstays : ∀ b ∈ bs, b.tag < 0 → b ∈ bs' := by
    intro b hb hneg
    refine (htakes.other b hneg ?_).2 hb
    rintro rfl
    exact htakes.fresh hb
  have hlt := base_lt_addr u.heap (Int.le_of_lt hi)
  have hgiven : u.given (u.heap.addr (i + 1)) = [u.heap.addr (i + 1)] := by
    unfold Use.given
    rw [if_neg (by omega)]
  rw [hgiven]
  have hnew : u.heap.addr (i + 1) ∉ u.live := by
    intro hin
    obtain ⟨b, hb, hneg, -, heq⟩ := hlb _ hin
    exact hother b hb (by omega) (addr_inj (hL.start_nonneg hb) (Int.le_of_lt hi) heq.symm)
  have hlockneg : -lockInts u.heap.len < 0 := by
    have := lockInts_bounds hlong
    omega
  refine ⟨bs', l', hL', by rw [hlen]; exact hlong, ?_, ?_, List.nodup_cons.2 ⟨hnew, hnodup⟩, ?_, ?_⟩
  · show h'.theLock = h'.addr 3
    rw [hf.2.2, addr_congr hf]
    exact hlock
  · show ⟨2, -lockInts h'.len⟩ ∈ bs'
    rw [hlen]
    exact hstays _ hlockb hlockneg
  · intro p hp
    rcases List.mem_cons.1 hp with rfl | hp
    · refine ⟨_, htakes.mem, ?_, ?_, (addr_congr hf _).symm⟩
      · show -takenSize (Heap.intsFor bytes) mx ≤ -4
        unfold takenSize
        split <;> omega
      · rw [hlen]
        rintro (heq | heq | heq)
        · exact absurd heq (Int.ne_of_gt hi)
        · exact hother _ hlockb hlockneg heq.symm
        · exact hother _ hL.last (by simp) heq.symm
    · obtain ⟨b, hb, hneg, hown, heq⟩ := hlb p hp
      rw [← hlen] at hown
      exact ⟨b, hstays b hb (by omega), hneg, hown, heq.trans (addr_congr hf _).symm⟩
  · intro b hb hneg
    rw [hlen, addr_congr hf]
    by_cases hbn : b = ⟨i, -takenSize (Heap.intsFor bytes) mx⟩
    · rw [hbn]
      exact Or.inr List.mem_cons_self
    · rcases hbl b ((htakes.other b hneg hbn).1 hb) hneg with h1 | h1
      · exact Or.inl h1
      · exact Or.inr (List.mem_cons_of_mem _ h1)

/-- `free` of null and of the array. -/
theorem free_none (h : Heap) (hp : p = 0 ∨ p = h.base) : h.free p = some h := by
  unfold Heap.free
  by_cases hz : p = 0
  · rw [if_pos hz]
  · rw [if_neg hz, if_pos (hp.resolve_left hz)]

/-- `free` of a live result of `malloc`. -/
theorem UseInv.freeLive (hI : UseInv u bs l) (hp : p ∈ u.live) :
    ∃ h' bs' l' b m, u.heap.free p = some h' ∧ h'.SameFrame u.heap ∧
      UseInv ⟨h', u.live.erase p⟩ bs' l' ∧ b ∈ bs ∧ b.tag ≤ -4 ∧ p = u.heap.addr (b.start + 1) ∧
      Merges u.heap h' bs bs' l b m := by
  obtain ⟨hL, hlong, hlock, hlockb, hnodup, hlb, hbl⟩ := hI
  obtain ⟨b, hb, hneg, hown, rfl⟩ := hlb p hp
  have hnonneg := hL.start_nonneg hb
  have hpos : 0 < b.start := by
    have : b.start ≠ 0 := fun heq => hown (Or.inl heq)
    omega
  obtain ⟨h', bs', l', m, hfree, hf, hL', htakes, -, hmerges⟩ :=
    hL.free hb hneg hpos fun heq => hown (Or.inr (Or.inr heq))
  have hlen : h'.len = u.heap.len := hf.2.1
  have hstays : ∀ c ∈ bs, c.tag < 0 → c.start ≠ b.start → c ∈ bs' := by
    intro c hc hcneg hne
    refine (htakes.other c hcneg ?_).1 hc
    rintro rfl
    exact hne rfl
  have hlockneg : -lockInts u.heap.len < 0 := by
    have := lockInts_bounds hlong
    omega
  refine ⟨h', bs', l', b, m, hfree, hf,
    ⟨hL', by rw [hlen]; exact hlong, ?_, ?_, hnodup.erase _, ?_, ?_⟩, hb, hneg, rfl, hmerges⟩
  · show h'.theLock = h'.addr 3
    rw [hf.2.2, addr_congr hf]
    exact hlock
  · show ⟨2, -lockInts h'.len⟩ ∈ bs'
    rw [hlen]
    exact hstays _ hlockb hlockneg fun heq => hown (Or.inr (Or.inl heq.symm))
  · intro p' hp'
    obtain ⟨hne, hin⟩ := (hnodup.mem_erase_iff).1 hp'
    obtain ⟨c, hc, hcneg, hcown, heq⟩ := hlb p' hin
    rw [← hlen] at hcown
    refine ⟨c, hstays c hc (by omega) ?_, hcneg, hcown, heq.trans (addr_congr hf _).symm⟩
    intro hcb
    rw [hcb] at heq
    exact hne heq
  · intro c hc hcneg
    have hcb : c ≠ b := by
      rintro rfl
      exact htakes.fresh hc
    have hcin := (htakes.other c hcneg hcb).2 hc
    rw [hlen, addr_congr hf]
    rcases hbl c hcin hcneg with h1 | h1
    · exact Or.inl h1
    · refine Or.inr ((hnodup.mem_erase_iff).2 ⟨fun haddr => ?_, h1⟩)
      exact hcb (hL.shape.eq_of_start hcin hb (addr_inj (hL.start_nonneg hcin) hnonneg haddr))

/-- A word in a block, between header and footer, is neither a tag of any block nor a link of one that is
    available. -/
theorem Shape.write (hS : Shape h bs l) (hb : b ∈ bs) (hneg : b.tag < 0) (hk : 0 < k)
    (hkn : k < Heap.abs b.tag - 1) (v : Int) : Shape (h.set (b.start + k) v) bs l := by
  have hother : ∀ i, i ≠ b.start + k → (h.set (b.start + k) v).array i = h.array i := by
    intro i hi
    exact Function.update_of_ne hi _ _
  have hstop : b.stop = b.start + Heap.abs b.tag := rfl
  refine ⟨fun c hc => ?_, hS.big, hS.apart, hS.avail, ?_⟩
  · have hbig := hS.big c hc
    have hcells : c.start ≠ b.start + k ∧ c.stop - 1 ≠ b.start + k := by
      by_cases hcb : c = b
      · rw [hcb]
        omega
      · have := hS.apart c hc b hb hcb
        omega
    rw [hother _ hcells.1, hother _ hcells.2]
    exact hS.tagged c hc
  · have hlink : ∀ j ∈ l, ∀ d, d = 1 ∨ d = 2 →
        link ((h.set (b.start + k) v).array (j + d)) = link (h.array (j + d)) := by
      intro j hj d hd
      obtain ⟨-, n, hn, hmem⟩ := hS.avail j hj
      have hne : Block.mk j n ≠ b := by
        rintro rfl
        simp only at hneg
        omega
      have hstop' : (Block.mk j n).stop = j + n := stop_avail hn
      have happ := hS.apart _ hmem b hb hne
      simp only at happ
      rw [hother _ (by omega)]
    exact hS.chain.congr (fun j hj => hlink j hj 1 (Or.inl rfl)) fun j hj => hlink j hj 2 (Or.inr rfl)

/-- A write into a block in use. -/
theorem UseInv.write (hI : UseInv u bs l) (hp : p ∈ u.live ∨ p = u.heap.theLock) (hk : 0 < k)
    (hkn : k < u.heap.size (u.heap.idx p) - 1) (v : Int) :
    UseInv ⟨u.heap.set (u.heap.idx p + k) v, u.live⟩ bs l := by
  have hlockInts := lockInts_bounds hI.long
  obtain ⟨b, hb, hneg, rfl⟩ : ∃ b ∈ bs, b.tag < 0 ∧ p = u.heap.addr (b.start + 1) := by
    rcases hp with hp | rfl
    · obtain ⟨b, hb, hneg, -, heq⟩ := hI.live_block p hp
      exact ⟨b, hb, by omega, heq⟩
    · exact ⟨_, hI.lockBlock, by simp only; omega, hI.lock⟩
  rw [idx_addr _ (hI.laidOut.start_nonneg hb)] at hkn ⊢
  rw [hI.laidOut.shape.size_eq hb] at hkn
  obtain ⟨⟨hS, hrow, hfirst, hlast, hlisted, hapart⟩, hlong, hlock, hlockb, hnodup, hlb, hbl⟩ := hI
  exact ⟨⟨hS.write hb hneg hk hkn v, hrow, hfirst, hlast, hlisted, hapart⟩, hlong, hlock, hlockb,
    hnodup, hlb, hbl⟩

/-- A legal call of `free` frees a live result, or does nothing. -/
theorem Use.step_free (hs : u.step (.free p) = some u') :
    (p ∈ u.live ∧ ∃ h', u.heap.free p = some h' ∧ u' = ⟨h', u.live.erase p⟩) ∨ u' = u := by
  simp only [Use.step] at hs
  split at hs
  · rename_i hp
    by_cases hlive : p ∈ u.live
    · obtain ⟨h', hfree, hu'⟩ := Option.bind_eq_some_iff.1 hs
      exact Or.inl ⟨hlive, h', hfree, (Option.some.inj hu').symm⟩
    · have hnone : p = 0 ∨ p = u.heap.base := by
        rcases hp with hp | hp | hp
        · exact Or.inl hp
        · exact Or.inr hp
        · exact absurd hp hlive
      simp only [free_none _ hnone, Option.bind_eq_bind, Option.bind_some, Option.some.injEq,
        List.erase_of_not_mem hlive] at hs
      exact Or.inr hs.symm
  · simp at hs

/-- A legal write is into a block in use. -/
theorem Use.step_write (hs : u.step (.write p k v) = some u') :
    ((p ∈ u.live ∨ p = u.heap.theLock) ∧ 0 < k ∧ k < u.heap.size (u.heap.idx p) - 1) ∧
      u' = ⟨u.heap.set (u.heap.idx p + k) v, u.live⟩ := by
  simp only [Use.step] at hs
  split at hs
  · rename_i hp
    exact ⟨hp, (Option.some.inj hs).symm⟩
  · simp at hs

/-- **The step lemma.** -/
theorem UseInv.step (hI : UseInv u bs l) {a : Call} (hs : u.step a = some u') :
    ∃ bs' l', UseInv u' bs' l' := by
  cases a with
  | malloc bytes => exact hI.malloc hs
  | free p =>
    rcases Use.step_free hs with ⟨hlive, h', hfree, rfl⟩ | rfl
    · obtain ⟨h₁, bs', l', -, -, hfree', -, hI', -⟩ := hI.freeLive hlive
      obtain rfl : h' = h₁ := Option.some.inj (hfree.symm.trans hfree')
      exact ⟨bs', l', hI'⟩
    · exact ⟨bs, l, hI⟩
  | write p k v =>
    obtain ⟨hp, rfl⟩ := Use.step_write hs
    exact ⟨bs, l, hI.write hp.1 hp.2.1 hp.2.2 v⟩

/-! ## Runs -/

/-- The states of all sequences of calls on a heap of eight ints or more. -/
def HeapRuns : Use → Prop :=
  Runs.Reached
    (fun u => u.live = [] ∧ ∃ base bytes mem, 8 ≤ bytes / 4 ∧ Heap.heapInit base bytes mem = some u.heap)
    fun u a u' => u.step a = some u'

/-- The run lemma. -/
theorem heapRuns_inv (hr : HeapRuns u) : ∃ bs l, UseInv u bs l := by
  refine Runs.Reached.invariant (I := fun u => ∃ bs l, UseInv u bs l) ?_ ?_ hr
  · rintro ⟨h, live⟩ ⟨rfl, base, bytes, mem, hlen, hinit⟩
    exact useInv_heapInit hlen hinit
  · rintro u a u' - ⟨bs, l, hI⟩ hs
    exact hI.step hs

/-- The first block of a row that starts where a given one does. -/
theorem LaidOut.head_eq (hL : LaidOut h (c₁ ++ c₂) l) (hb : b ∈ c₁ ++ c₂)
    (hrow : Row Block.start Block.stop b.start c₂ h.len) (hlt : b.start < h.len) :
    ∃ r, c₂ = b :: r ∧ Row Block.start Block.stop b.stop r h.len := by
  cases c₂ with
  | nil =>
    have : b.start = h.len := hrow
    omega
  | cons x r =>
    obtain rfl := hL.shape.eq_of_start (b := x) (by simp) hb hrow.1
    exact ⟨r, rfl, hrow.2⟩

/-- Nothing comes after the last sentinel. -/
theorem LaidOut.tail_nil (hL : LaidOut h (c₁ ++ c₂) l)
    (hrow : Row Block.start Block.stop h.len c₂ h.len) : c₂ = [] := by
  cases c₂ with
  | nil => rfl
  | cons x r =>
    have hlt := hL.shape.pos x (by simp)
    have hin := ((hrow.bounds fun y hy => hL.shape.pos y (List.mem_append_right _ hy)).2 x (by simp)).2
    have := hrow.1
    omega

theorem last_stop (len : Int) : (Block.mk (len - 2) (-2)).stop = len := by
  show len - 2 + Heap.abs (-2) = len
  rw [show Heap.abs (-2) = 2 from rfl]
  omega

/-- When nothing is live, a taken block after the lock is the last sentinel. -/
theorem UseInv.last_taken (hI : UseInv u (c₁ ++ b :: c₂) l) (hlive : u.live = [])
    (hrow : Row Block.start Block.stop b.start (b :: c₂) u.heap.len) (hneg : b.tag < 0) (hstart : 2 < b.start) :
    b = ⟨u.heap.len - 2, -2⟩ ∧ c₂ = [] := by
  have hL := hI.laidOut
  have hlast : b.start = u.heap.len - 2 := by
    rcases hI.block_live b (by simp) hneg with (h0 | h2 | hend) | hmem
    · omega
    · omega
    · exact hend
    · rw [hlive] at hmem
      cases hmem
  obtain rfl := hL.shape.eq_of_start (b := b) (by simp) hL.last hlast
  have hL' : LaidOut u.heap ((c₁ ++ [⟨u.heap.len - 2, -2⟩]) ++ c₂) l := by
    simpa only [List.append_assoc, List.singleton_append] using hL
  refine ⟨rfl, hL'.tail_nil ?_⟩
  have hrest := hrow.2
  rwa [last_stop] at hrest

/-- When nothing is live, the last sentinel comes after the lock, with at most one block between them. -/
theorem UseInv.after_lock (hI : UseInv u (⟨0, -2⟩ :: ⟨2, -lockInts u.heap.len⟩ :: c₂) l) (hlive : u.live = [])
    (hrow : Row Block.start Block.stop (2 + lockInts u.heap.len) c₂ u.heap.len) :
    (2 + lockInts u.heap.len = u.heap.len - 2 ∧ c₂ = [⟨u.heap.len - 2, -2⟩]) ∨
    ∃ x : Block, x.start = 2 + lockInts u.heap.len ∧ 0 < x.tag ∧ x.start + x.tag = u.heap.len - 2 ∧
      c₂ = [x, ⟨u.heap.len - 2, -2⟩] := by
  have hL := hI.laidOut
  have hk := lockInts_bounds hI.long
  cases c₂ with
  | nil =>
    have hend : 2 + lockInts u.heap.len = u.heap.len := hrow
    omega
  | cons x r =>
    have hx : x.start = 2 + lockInts u.heap.len := hrow.1
    have hxne := hL.shape.tag_ne (b := x) (by simp)
    by_cases hxneg : x.tag < 0
    · have hI' : UseInv u ([⟨0, -2⟩, ⟨2, -lockInts u.heap.len⟩] ++ x :: r) l := hI
      obtain ⟨rfl, rfl⟩ := hI'.last_taken hlive ⟨rfl, hrow.2⟩ hxneg (by omega)
      exact Or.inl ⟨hx.symm, rfl⟩
    · have hxpos : 0 < x.tag := by omega
      have hxstop : x.stop = x.start + x.tag := by
        show x.start + Heap.abs x.tag = _
        rw [abs_of_pos hxpos]
      cases r with
      | nil =>
        -- the sentinel would have to be among the three
        have hin := hL.last
        simp only [List.mem_cons, Block.mk.injEq, List.not_mem_nil, or_false] at hin
        rcases hin with ⟨h1, -⟩ | ⟨h1, -⟩ | rfl
        · omega
        · omega
        · simp only at hxneg
          omega
      | cons y r' =>
        have hy : y.start = x.stop := hrow.2.1
        have hyne := hL.shape.tag_ne (b := y) (by simp)
        have hapart : ¬ (0 < x.tag ∧ 0 < y.tag) := (List.isChain_cons_cons.1 hL.apart.tail.tail).1
        have hI' : UseInv u ([⟨0, -2⟩, ⟨2, -lockInts u.heap.len⟩, x] ++ y :: r') l := hI
        obtain ⟨rfl, rfl⟩ := hI'.last_taken hlive ⟨rfl, hrow.2.2⟩ (by omega) (by omega)
        exact Or.inr ⟨x, hx, hxpos, by rw [← hxstop]; exact hy.symm, rfl⟩

/-- **Nothing is left but the sentinels, the lock and one block** when nothing is live. -/
theorem UseInv.rest (hI : UseInv u bs l) (hlive : u.live = []) : bs = restBlocks u.heap.len := by
  have hL := hI.laidOut
  have hlong := hI.long
  have hk := lockInts_bounds hlong
  have hkdef : lockInts u.heap.len = if 4 ≤ u.heap.len - 4 - 8 then 8 else u.heap.len - 4 := rfl
  -- the first sentinel, then the lock
  obtain ⟨r0, rfl, hrow0⟩ :=
    LaidOut.head_eq (show LaidOut u.heap ([] ++ bs) l from hL) hL.first hL.row (by simp only; omega)
  obtain ⟨r1, rfl, hrow1⟩ := LaidOut.head_eq (show LaidOut u.heap ([⟨0, -2⟩] ++ r0) l from hL) hI.lockBlock
    hrow0 (by simp only; omega)
  have hstop1 : (Block.mk 2 (-lockInts u.heap.len)).stop = 2 + lockInts u.heap.len := by
    show 2 + Heap.abs (-lockInts u.heap.len) = 2 + lockInts u.heap.len
    rw [abs_neg_of_pos (by omega)]
  rw [hstop1] at hrow1
  rcases hI.after_lock hlive hrow1 with ⟨hend, rfl⟩ | ⟨⟨start, tag⟩, hstart, htag, hstop, rfl⟩
  · have hshort : u.heap.len < 16 := by
      by_contra hge
      rw [if_pos (by omega)] at hkdef
      omega
    rw [restBlocks, if_pos hshort, show lockInts u.heap.len = u.heap.len - 4 by omega]
  · simp only at hstart htag hstop
    have hlong' : ¬ u.heap.len < 16 := by
      intro hlt
      rw [if_neg (by omega)] at hkdef
      omega
    rw [if_pos (by omega)] at hkdef
    have hblock : Block.mk start tag = ⟨10, u.heap.len - 12⟩ := by
      rw [Block.mk.injEq]
      omega
    rw [restBlocks, if_neg hlong', hkdef, hblock]

/-- **The heap stays laid out** over every sequence of calls, each of which succeeds: the array is tiled
    by blocks with their tags in place, the sentinels stay taken, every available block and nothing else
    is on the avail list once, with links both ways, and no two neighbours are available.  Once no block
    is live the heap is as `heapInit` left it. -/
theorem heap_laidOut (u : Use) (hr : HeapRuns u) :
    ∃ bs l, LaidOut u.heap bs l ∧ (u.live = [] → bs = restBlocks u.heap.len) ∧
      (∀ bytes, ∃ u', u.step (.malloc bytes) = some u') ∧
      ∀ p, p = 0 ∨ p = u.heap.base ∨ p ∈ u.live → ∃ u', u.step (.free p) = some u' := by
  obtain ⟨bs, l, hI⟩ := heapRuns_inv hr
  refine ⟨bs, l, hI.laidOut, hI.rest, fun bytes => ?_, fun p hp => ?_⟩
  · obtain ⟨q, h', hmalloc, -⟩ := hI.laidOut.malloc bytes
    refine ⟨⟨h', u.given q ++ u.live⟩, ?_⟩
    simp only [Use.step, hmalloc, Option.bind_eq_bind, Option.bind_some]
  · obtain ⟨h', hfree⟩ : ∃ h', u.heap.free p = some h' := by
      by_cases hlive : p ∈ u.live
      · obtain ⟨h', -, -, -, -, hfree, -⟩ := hI.freeLive hlive
        exact ⟨h', hfree⟩
      · refine ⟨u.heap, free_none _ ?_⟩
        rcases hp with hp | hp | hp
        · exact Or.inl hp
        · exact Or.inr hp
        · exact absurd hp hlive
    refine ⟨⟨h', u.live.erase p⟩, ?_⟩
    simp only [Use.step, if_pos hp, hfree, Option.bind_eq_bind, Option.bind_some]

/-- The state after some calls on a heap of `bytes` bytes at address 4096. -/
def runCalls (bytes : Nat) (calls : List Call) : Option Use := do
  let h ← Heap.heapInit 4096 bytes fun _ => 0
  calls.foldlM Use.step ⟨h, []⟩

theorem runCalls_reached {S : Use → Prop} {bytes : Nat} {calls : List Call}
    (hstart : ∀ h, Heap.heapInit 4096 bytes (fun _ => 0) = some h → S ⟨h, []⟩)
    (hrun : runCalls bytes calls = some u) : Runs.Reached S (fun u a u' => u.step a = some u') u := by
  unfold runCalls at hrun
  cases hinit : Heap.heapInit 4096 bytes fun _ => 0 with
  | none =>
    rw [hinit] at hrun
    simp at hrun
  | some h =>
    rw [hinit] at hrun
    exact Runs.Reached.foldlM (Runs.Reached.start (hstart h hinit)) hrun

theorem runCalls_heapRuns {bytes : Nat} {calls : List Call} (hlen : 8 ≤ bytes / 4)
    (hrun : runCalls bytes calls = some u) : HeapRuns u :=
  runCalls_reached (fun _ hinit => ⟨rfl, 4096, bytes, _, hlen, hinit⟩) hrun

/-- Three blocks, the one in the middle freed. -/
theorem heap_laidOut_threeCalls : ∃ u : Use, u.live = [4184, 4140] ∧ u.heap.avail = 14 ∧
    ∃ bs l, LaidOut u.heap bs l ∧ (u.live = [] → bs = restBlocks u.heap.len) ∧
      (∀ bytes, ∃ u', u.step (.malloc bytes) = some u') ∧
      ∀ p, p = 0 ∨ p = u.heap.base ∨ p ∈ u.live → ∃ u', u.step (.free p) = some u' := by
  have hrun : (runCalls 256 [.malloc 4, .malloc 20, .malloc 4, .free 4156]).map
      (fun u => (u.live, u.heap.avail)) = some ([4184, 4140], 14) := by decide +kernel
  obtain ⟨u, hu, hpair⟩ := Option.map_eq_some_iff.1 hrun
  obtain ⟨hlive, havail⟩ := Prod.mk.inj hpair
  exact ⟨u, hlive, havail, heap_laidOut u (runCalls_heapRuns (by decide) hu)⟩

/-- The block at index 2 is the lock's: freeing all that is live does not make it available. -/
theorem runCalls_lockStays :
    ¬ ∀ u : Use, HeapRuns u → u.live = [] → u.heap.array 2 = u.heap.len - 4 := by
  intro hall
  have hrun : (runCalls 64 [.malloc 4, .free 4140]).map
      (fun u => (u.live, u.heap.array 2, u.heap.len)) = some ([], -8, 16) := by decide +kernel
  obtain ⟨u, hu, htriple⟩ := Option.map_eq_some_iff.1 hrun
  simp only [Prod.mk.injEq] at htriple
  obtain ⟨hlive, htag, hlen⟩ := htriple
  have hsingle := hall u (runCalls_heapRuns (by decide) hu) hlive
  rw [htag, hlen] at hsingle
  exact absurd hsingle (by decide)

end Gheith

end BadApple
