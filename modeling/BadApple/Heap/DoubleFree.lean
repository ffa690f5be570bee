/-
  When `free` notices that a block is freed twice (kernel/heap.cc).

  1. **What is read** — `free` looks at the sign of the word where the header of the block used to be.
  2. **Settled words** — `Settled bs i`: word `i` is the header of an available block, or lies inside of one,
     behind its links.  Whatever is freed later, such a word stays settled and keeps its sign: blocks only
     merge, and a merge writes header, links and footer of the new block and links of others.
  3. **The result** — `free_again_iff`: the word is settled from the first `free` on, so the second one
     panics if and only if the first made the header positive.  It did unless the block to the left was
     available: then the new block starts there, and the old header is not touched.
-/
import BadApple.Heap.Frame

namespace BadApple

namespace Gheith

variable {h h' : Heap} {u u' u₁ u₂ : Use} {bs bs' : List Block} {l : List Int} {i k v : Int} {b c m : Block}
  {p : Nat}

/-! ## Settled words -/

/-- Word `i` is the header of an available block, or inside of one. -/
def Settled (bs : List Block) (i : Int) : Prop :=
  ∃ c ∈ bs, 0 < c.tag ∧ (i = c.start ∨ c.start + 4 ≤ i ∧ i + 2 ≤ c.stop)

/-- No link is a settled word. -/
theorem Shape.not_linkWord_settled (hS : Shape h bs l) (hi : Settled bs i) : ¬ LinkWord l i := by
  rintro ⟨j, hj, hlink⟩
  obtain ⟨c, hc, -, hin⟩ := hi
  obtain ⟨-, n, hn, hmem⟩ := hS.avail j hj
  have hstop : (Block.mk j n).stop = j + n := stop_avail hn
  have hbig := hS.big c hc
  by_cases hcj : c = ⟨j, n⟩
  · have hstart : c.start = j := by rw [hcj]
    omega
  · have happ := hS.apart c hc _ hmem hcj
    simp only at happ
    omega

/-- The header of an available block is positive. -/
theorem Shape.not_isTaken (hS : Shape h bs l) (hc : c ∈ bs) (ha : 0 < c.tag) : ¬ h.isTaken c.start := by
  rw [hS.isTaken_iff hc]
  omega

/-- A word inside of the block that `free` makes, behind its links, is settled and as it was. -/
theorem Merges.inside (hM : Merges h h' bs bs' l b m) (hlink : ¬ LinkWord l i) (h1 : m.start + 4 ≤ i)
    (h2 : i + 2 ≤ m.stop) : Settled bs' i ∧ h'.array i = h.array i := by
  constructor
  · exact ⟨m, hM.mem, hM.avail, Or.inr ⟨h1, h2⟩⟩
  · rcases hM.words i with hsame | hlink' | hnew | hnew
    · exact hsame
    · exact absurd hlink' hlink
    · omega
    · omega

/-- **Freeing another block** keeps a word settled, and its sign. -/
theorem Settled.free {l' : List Int} (hi : Settled bs i) (hS : Shape h bs l) (hS' : Shape h' bs' l')
    (hM : Merges h h' bs bs' l b m) : Settled bs' i ∧ (h'.isTaken i ↔ h.isTaken i) := by
  have hlink := hS.not_linkWord_settled hi
  obtain ⟨c, hc, ha, hin⟩ := hi
  have hbig := hS.big c hc
  rcases hM.kept c hc ha with hkept | ⟨hstart, hstop⟩
  · refine ⟨⟨c, hkept, ha, hin⟩, ?_⟩
    rcases hin with rfl | ⟨h1, h2⟩
    · exact iff_of_false (hS'.not_isTaken hkept ha) (hS.not_isTaken hc ha)
    · -- `c` may be the new block itself
      have hsame : h'.array i = h.array i := by
        by_cases hcm : c = m
        · rw [hcm] at h1 h2
          exact (hM.inside hlink h1 h2).2
        · have happ := hS'.apart c hkept m hM.mem hcm
          have hbigm := hS'.big m hM.mem
          rcases hM.words i with hsame | hlink' | hnew | hnew
          · exact hsame
          · exact absurd hlink' hlink
          · omega
          · omega
      unfold Heap.isTaken
      rw [hsame]
  · by_cases hhead : i = m.start
    · have hic : i = c.start := by omega
      refine ⟨⟨m, hM.mem, hM.avail, Or.inl hhead⟩, iff_of_false ?_ ?_⟩
      · rw [hhead]
        exact hS'.not_isTaken hM.mem hM.avail
      · rw [hic]
        exact hS.not_isTaken hc ha
    · obtain ⟨hsettled, hsame⟩ := hM.inside hlink (i := i) (by omega) (by omega)
      refine ⟨hsettled, ?_⟩
      unfold Heap.isTaken
      rw [hsame]

/-- **The header of the block that is freed** is settled from then on.  It keeps its sign if and only if the
    block to the left was available. -/
theorem Merges.settled {l' : List Int} (hM : Merges h h' bs bs' l b m) (hS : Shape h bs l)
    (hS' : Shape h' bs' l') (hb : b ∈ bs) (hneg : b.tag ≤ -4) :
    Settled bs' b.start ∧ (h'.isTaken b.start ↔ h.isAvail (h.left b.start)) := by
  have hbstop : b.stop = b.start + -b.tag := by
    show b.start + Heap.abs b.tag = _
    rw [Heap.abs, if_pos (by omega)]
  have hstop := hM.stop
  rcases hM.start with ⟨hleft, hstart⟩ | ⟨hleft, hstart⟩
  · refine ⟨⟨m, hM.mem, hM.avail, Or.inl hstart.symm⟩, iff_of_false ?_ hleft⟩
    rw [← hstart]
    exact hS'.not_isTaken hM.mem hM.avail
  · have hlink : ¬ LinkWord l b.start := by
      rintro ⟨j, hj, hjb⟩
      have := hS.links_not_taken hj hb (by omega)
      omega
    obtain ⟨hsettled, hsame⟩ := hM.inside hlink hstart (by omega)
    refine ⟨hsettled, iff_of_true ?_ hleft⟩
    unfold Heap.isTaken
    rw [hsame]
    exact (hS.isTaken_iff hb).2 (by omega)

/-! ## Runs without `malloc` -/

/-- The call takes no block. -/
def Call.NoMalloc : Call → Prop
  | .malloc _ => False
  | .free _ => True
  | .write _ _ _ => True

/-- What is known of word `i` since the block there was freed: it is settled, and is negative or not. -/
structure Freed (base : Nat) (i : Int) (neg : Prop) (u : Use) (bs : List Block) (l : List Int) : Prop where
  inv : UseInv u bs l
  base_eq : u.heap.base = base
  settled : Settled bs i
  sign : u.heap.isTaken i ↔ neg

/-- A write into a block in use is not to a settled word. -/
theorem UseInv.write_settled (hI : UseInv u bs l) (hp : u.InUse p) (hk : 0 < k)
    (hkn : k < u.heap.size (u.heap.idx p) - 1) (hi : Settled bs i) :
    (u.heap.set (u.heap.idx p + k) v).array i = u.heap.array i := by
  obtain ⟨b, hb, hneg, rfl⟩ := hI.inUse_block hp
  rw [idx_addr _ (hI.laidOut.start_nonneg hb)] at hkn ⊢
  rw [hI.laidOut.shape.size_eq hb] at hkn
  have hstop : b.stop = b.start + Heap.abs b.tag := rfl
  refine Function.update_of_ne ?_ _ _
  obtain ⟨c, hc, ha, hin⟩ := hi
  have hbig := hI.laidOut.shape.big c hc
  have happ := hI.laidOut.shape.apart c hc b hb fun heq => by
    rw [heq] at ha
    omega
  omega

/-- **The step lemma**: the word stays settled, and keeps its sign. -/
theorem Freed.step {base : Nat} {neg : Prop} (hF : Freed base i neg u bs l) {a : Call} (ha : a.NoMalloc)
    (hs : u.step a = some u') : ∃ bs' l', Freed base i neg u' bs' l' := by
  cases a with
  | malloc bytes => exact ha.elim
  | free q =>
    rcases Use.step_free hs with ⟨hlive, h', hfree, rfl⟩ | rfl
    · obtain ⟨h₁, bs', l', b, m, hfree', hf, hI', -, -, -, hM⟩ := hF.inv.freeLive hlive
      obtain rfl : h' = h₁ := Option.some.inj (hfree.symm.trans hfree')
      obtain ⟨hsettled, hsign⟩ := hF.settled.free hF.inv.laidOut.shape hI'.laidOut.shape hM
      exact ⟨bs', l', hI', hf.1.trans hF.base_eq, hsettled, hsign.trans hF.sign⟩
    · exact ⟨bs, l, hF⟩
  | write q k v =>
    obtain ⟨⟨hq, hk, hkn⟩, rfl⟩ := Use.step_write hs
    refine ⟨bs, l, hF.inv.write hq hk hkn v, hF.base_eq, hF.settled, ?_⟩
    have hsame := hF.inv.write_settled (v := v) hq hk hkn hF.settled
    unfold Heap.isTaken
    simp only
    rw [hsame]
    exact hF.sign

/-- A pointer to a block is freed without a panic if and only if its header is negative. -/
theorem free_eq_none_iff (h : Heap) (hi : 0 ≤ i) : h.free (h.addr (i + 1)) = none ↔ ¬ h.isTaken i := by
  have haddr := base_lt_addr h hi
  unfold Heap.free
  rw [if_neg (by omega), if_neg (by omega), idx_addr h hi]
  by_cases ht : h.isTaken i
  · simp [ht]
  · simp [ht]

/-- The states after `u₁` as long as nothing is allocated. -/
def SinceFree (u₁ : Use) : Use → Prop :=
  Runs.Reached (fun u => u = u₁) fun u a u' => a.NoMalloc ∧ u.step a = some u'

/-- **Freeing a block again**, after whatever has been freed and written since: `free` panics if and only if,
    when the block was freed, the one to its left was not available. -/
theorem free_again_iff (hr : HeapRuns u) (hp : p ∈ u.live) (hs : u.step (.free p) = some u₁)
    (hrun : SinceFree u₁ u₂) :
    u₂.heap.free p = none ↔ ¬ u.heap.isAvail (u.heap.left (u.heap.idx p)) := by
  obtain ⟨bs, l, hI⟩ := heapRuns_inv hr
  obtain ⟨h', bs', l', b, m, hfree, hf, hI', hb, hneg, rfl, hM⟩ := hI.freeLive hp
  have hnonneg := hI.laidOut.start_nonneg hb
  obtain ⟨hsettled, hsign⟩ := hM.settled hI.laidOut.shape hI'.laidOut.shape hb hneg
  -- the first `free`, then all that comes after it
  have hfreed : ∃ bs l, Freed u.heap.base b.start (u.heap.isAvail (u.heap.left b.start)) u₂ bs l := by
    refine Runs.Reached.invariant (I := fun u₂ =>
      ∃ bs l, Freed u.heap.base b.start (u.heap.isAvail (u.heap.left b.start)) u₂ bs l) ?_ ?_ hrun
    · rintro _ rfl
      simp only [Use.step, if_pos (Or.inr (Or.inr hp)), hfree, Option.bind_eq_bind, Option.bind_some,
        Option.some.injEq] at hs
      obtain rfl := hs
      exact ⟨bs', l', hI', hf.1, hsettled, hsign⟩
    · rintro w a w' - ⟨bs, l, hF⟩ ⟨ha, hs⟩
      exact hF.step ha hs
  obtain ⟨bs₂, l₂, hF⟩ := hfreed
  have haddr : u.heap.addr (b.start + 1) = u₂.heap.addr (b.start + 1) := by
    unfold Heap.addr
    rw [hF.base_eq]
  rw [idx_addr _ hnonneg, haddr, free_eq_none_iff _ hnonneg, hF.sign]

/-- Three blocks; the one in the middle is freed, then both others, then itself again. -/
theorem free_again_iff_threeBlocks : ∃ u u₁ u₂ : Use, u.live = [4184, 4156, 4140] ∧ u₂.live = [] ∧
    SinceFree u₁ u₂ ∧
    (u₂.heap.free 4156 = none ↔ ¬ u.heap.isAvail (u.heap.left (u.heap.idx 4156))) := by
  have hrun : ((runCalls 256 [.malloc 4, .malloc 20, .malloc 4]).bind fun u => (u.step (.free 4156)).bind
      fun u₁ => (u₁.step (.free 4140)).bind fun v => (v.step (.free 4184)).map fun u₂ =>
        (u.live, u₂.live)) = some ([4184, 4156, 4140], []) := by decide +kernel
  obtain ⟨u, hu, hrest⟩ := Option.bind_eq_some_iff.1 hrun
  obtain ⟨u₁, hu₁, hrest⟩ := Option.bind_eq_some_iff.1 hrest
  obtain ⟨v, hv, hrest⟩ := Option.bind_eq_some_iff.1 hrest
  obtain ⟨u₂, hu₂, hpair⟩ := Option.map_eq_some_iff.1 hrest
  obtain ⟨hlive, hlive₂⟩ := Prod.mk.inj hpair
  have hleft : SinceFree u₁ v :=
    Runs.Reached.next (a := Call.free 4140) (Runs.Reached.start rfl) ⟨trivial, hv⟩
  have hsince : SinceFree u₁ u₂ := Runs.Reached.next (a := Call.free 4184) hleft ⟨trivial, hu₂⟩
  exact ⟨u, u₁, u₂, hlive, hlive₂, hsince,
    free_again_iff (runCalls_heapRuns (by decide) hu) (by simp [hlive]) hu₁ hsince⟩

/-- The block in the middle is freed after the one to its left, and then at once again. -/
theorem free_again_unnoticed :
    ¬ ∀ (u u₁ u₂ : Use) (p : Nat), HeapRuns u → p ∈ u.live → u.step (.free p) = some u₁ →
      SinceFree u₁ u₂ → u₂.heap.free p = none := by
  intro hall
  have hrun : ((runCalls 256 [.malloc 4, .malloc 20, .malloc 4, .free 4140]).bind fun u =>
      (u.step (.free 4156)).map fun u₁ => (u.live, (u₁.heap.free 4156).isNone)) =
        some ([4184, 4156], false) := by decide +kernel
  obtain ⟨u, hu, hrest⟩ := Option.bind_eq_some_iff.1 hrun
  obtain ⟨u₁, hu₁, hpair⟩ := Option.map_eq_some_iff.1 hrest
  obtain ⟨hlive, hsome⟩ := Prod.mk.inj hpair
  have hnone := hall u u₁ u₁ 4156 (runCalls_heapRuns (by decide) hu) (by simp [hlive]) hu₁
    (Runs.Reached.start rfl)
  rw [hnone] at hsome
  exact absurd hsome (by decide)

end Gheith

end BadApple
