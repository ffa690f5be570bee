/-
  What `malloc` and `free` leave alone.

  1. **Specification** — `HeapFrame`: a call changes no word between header and footer of a block in use,
     other than the one freed; and a block that `malloc` returns lies between the sentinels and apart from
     all blocks in use.
  2. **The result** — `heap_frame`: so it is in every state.  All that the calls write are tags and links of
     blocks that are available, and the tags of the one block that is taken or freed.
-/
import BadApple.Heap.Sound

namespace BadApple

namespace Gheith

variable {u u' : Use} {h h' : Heap} {bs bs' : List Block} {l : List Int} {b : Block} {p q : Nat} {k : Int}

/-- What is in use: the live results of `malloc`, and the lock of the heap. -/
def Use.InUse (u : Use) (p : Nat) : Prop := p ∈ u.live ∨ p = u.heap.theLock

/-- The words between header and footer of the block at `p` are as they were. -/
def SamePayload (u : Use) (h' : Heap) (p : Nat) : Prop :=
  ∀ k, 0 < k → k < u.heap.size (u.heap.idx p) - 1 →
    h'.array (u.heap.idx p + k) = u.heap.array (u.heap.idx p + k)

/-- What the calls leave alone. -/
structure HeapFrame (u : Use) : Prop where
  malloc : ∀ bytes u', u.step (.malloc bytes) = some u' → ∀ p, u.InUse p → SamePayload u u'.heap p
  free : ∀ q ∈ u.live, ∀ u', u.step (.free q) = some u' → ∀ p, u.InUse p → p ≠ q → SamePayload u u'.heap p
  fresh : ∀ bytes q h', u.heap.malloc bytes = some (q, h') → q ≠ 0 → q ≠ u.heap.base →
    2 ≤ h'.idx q ∧ h'.idx q + h'.size (h'.idx q) ≤ h'.len - 2 ∧
    ∀ p, u.InUse p → h'.idx q + h'.size (h'.idx q) ≤ h'.idx p ∨
      h'.idx p + h'.size (h'.idx p) ≤ h'.idx q

/-- What is in use is a taken block. -/
theorem UseInv.inUse_block (hI : UseInv u bs l) (hp : u.InUse p) :
    ∃ b ∈ bs, b.tag < 0 ∧ p = u.heap.addr (b.start + 1) := by
  rcases hp with hp | rfl
  · obtain ⟨b, hb, hneg, -, heq⟩ := hI.live_block p hp
    exact ⟨b, hb, by omega, heq⟩
  · have hlock := lockInts_bounds hI.long
    exact ⟨_, hI.lockBlock, by simp only; omega, hI.lock⟩

/-- From blocks to pointers. -/
theorem UseInv.samePayload (hI : UseInv u bs l) (hb : b ∈ bs)
    (hkeeps : ∀ k, b.start < k → k < b.stop - 1 → h'.array k = u.heap.array k) :
    SamePayload u h' (u.heap.addr (b.start + 1)) := by
  intro k h1 h2
  rw [idx_addr _ (hI.laidOut.start_nonneg hb)] at h2 ⊢
  rw [hI.laidOut.shape.size_eq hb] at h2
  refine hkeeps _ (by omega) ?_
  show b.start + k < b.start + Heap.abs b.tag - 1
  omega

theorem UseInv.malloc_samePayload (hI : UseInv u bs l) {bytes : Nat} (hs : u.step (.malloc bytes) = some u')
    (hp : u.InUse p) : SamePayload u u'.heap p := by
  obtain ⟨b, hb, hneg, rfl⟩ := hI.inUse_block hp
  obtain ⟨q, h', hmalloc, -, hkeeps, -⟩ := hI.laidOut.malloc bytes
  simp only [Use.step, hmalloc, Option.bind_eq_bind, Option.bind_some, Option.some.injEq] at hs
  obtain rfl := hs
  exact hI.samePayload hb (hkeeps b hb hneg)

theorem UseInv.free_samePayload (hI : UseInv u bs l) (hq : q ∈ u.live) (hs : u.step (.free q) = some u')
    (hp : u.InUse p) (hne : p ≠ q) : SamePayload u u'.heap p := by
  obtain ⟨c, hc, hcneg, rfl⟩ := hI.inUse_block hp
  obtain ⟨b, hb, hneg, hown, rfl⟩ := hI.live_block q hq
  have hnonneg := hI.laidOut.start_nonneg hb
  have hpos : 0 < b.start := by
    have : b.start ≠ 0 := fun heq => hown (Or.inl heq)
    omega
  obtain ⟨h', bs', l', -, hfree, -, -, htakes, hkeeps, -⟩ :=
    hI.laidOut.free hb hneg hpos fun heq => hown (Or.inr (Or.inr heq))
  simp only [Use.step, hfree, Option.bind_eq_bind, Option.bind_some, if_pos (Or.inr (Or.inr hq)),
    Option.some.injEq] at hs
  obtain rfl := hs
  -- the block is another one, so it is still there
  have hcb : c ≠ b := by
    rintro rfl
    exact hne rfl
  exact hI.samePayload hc (hkeeps c ((htakes.other c hcneg hcb).1 hc) hcneg)

/-- A new block lies between the sentinels, and apart from what is in use. -/
theorem UseInv.malloc_fresh (hI : UseInv u bs l) {bytes : Nat} (hm : u.heap.malloc bytes = some (q, h'))
    (hq : q ≠ 0) (hbase : q ≠ u.heap.base) : 2 ≤ h'.idx q ∧ h'.idx q + h'.size (h'.idx q) ≤ h'.len - 2 ∧
    ∀ p, u.InUse p → h'.idx q + h'.size (h'.idx q) ≤ h'.idx p ∨
      h'.idx p + h'.size (h'.idx p) ≤ h'.idx q := by
  obtain ⟨q', h₁, hmalloc, hf, -, hres⟩ := hI.laidOut.malloc bytes
  rw [hm] at hmalloc
  obtain ⟨rfl, rfl⟩ := Prod.mk.inj (Option.some.inj hmalloc)
  rcases hres with ⟨-, hq' | ⟨-, hq'⟩⟩ | ⟨i, mx, bs', l', hblock, hi, -, rfl, hL', htakes⟩
  · exact absurd hq' hq
  · exact absurd hq' hbase
  have hidx : ∀ j : Int, 0 ≤ j → h'.idx (u.heap.addr (j + 1)) = j := by
    intro j hj
    rw [← addr_congr hf]
    exact idx_addr h' hj
  have hnew := htakes.mem
  rw [hidx i (Int.le_of_lt hi), hL'.shape.size_eq hnew]
  have hlast : (⟨h'.len - 2, -2⟩ : Block) ∈ bs := by
    rw [hf.2.1]
    exact hI.laidOut.last
  have hin : i + Heap.abs (-takenSize (Heap.intsFor bytes) mx) ≤ h'.len :=
    ((hL'.row.bounds hL'.shape.pos).2 _ hnew).2
  have hbig : i + 2 ≤ i + Heap.abs (-takenSize (Heap.intsFor bytes) mx) := hL'.shape.big _ hnew
  -- the new block is none of the taken ones, all of which are still there
  have happart : ∀ c ∈ bs, c.tag < 0 → c ∈ bs' ∧
      (i + Heap.abs (-takenSize (Heap.intsFor bytes) mx) ≤ c.start ∨ c.stop ≤ i) := by
    intro c hc hcneg
    have hne : (⟨i, -takenSize (Heap.intsFor bytes) mx⟩ : Block) ≠ c := by
      rintro rfl
      exact htakes.fresh hc
    have hc' := (htakes.other c hcneg hne.symm).2 hc
    exact ⟨hc', hL'.shape.apart _ hnew c hc' hne⟩
  refine ⟨?_, ?_, ?_⟩
  · rcases (happart _ hI.laidOut.first (by decide)).2 with h1 | h1
    · simp only at h1
      omega
    · exact h1
  · rcases (happart _ hlast (by simp)).2 with h1 | h1
    · exact h1
    · rw [last_stop] at h1
      omega
  · intro p hp
    obtain ⟨c, hc, hcneg, rfl⟩ := hI.inUse_block hp
    obtain ⟨hc', hout⟩ := happart c hc hcneg
    rw [hidx _ (hI.laidOut.start_nonneg hc), hL'.shape.size_eq hc']
    exact hout

/-- **No call of `malloc` or `free` changes what is between header and footer of a block in use, other than
    the one freed; and a block returned by `malloc` lies between the sentinels, apart from all in use.** -/
theorem heap_frame (u : Use) (hr : HeapRuns u) : HeapFrame u := by
  obtain ⟨bs, l, hI⟩ := heapRuns_inv hr
  constructor
  · exact fun bytes u' hs p hp => hI.malloc_samePayload hs hp
  · exact fun q hq u' hs p hp hne => hI.free_samePayload hq hs hp hne
  · exact fun bytes q h' hm hq hbase => hI.malloc_fresh hm hq hbase

/-- Two blocks in use, with a hole between them. -/
theorem heap_frame_threeCalls : ∃ u : Use, u.live = [4184, 4140] ∧ HeapFrame u := by
  have hrun : (runCalls 256 [.malloc 4, .malloc 20, .malloc 4, .free 4156]).map (fun u => u.live) =
      some [4184, 4140] := by decide +kernel
  obtain ⟨u, hu, hlive⟩ := Option.map_eq_some_iff.1 hrun
  exact ⟨u, hlive, heap_frame u (runCalls_heapRuns (by decide) hu)⟩

end Gheith

end BadApple
