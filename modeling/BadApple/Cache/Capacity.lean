/-
  Capacity: how many blocks the cache holds, and when `read_block` fails.

  1. **Counting** — the count of misses is the number of blocks held until it reaches `size`; from then on
     every miss drops a block before it adds one, unless the bucket it evicts from has none.
  2. **The defect** — `global_index_last` moves in evictions only.  A bucket that is last and is read again
     goes to the front but stays last, with nothing before it; an eviction right after that fails
     `ASSERT(!(global_index_last->prev.promote() == nullptr))`.
  3. **The condition** — `EvictFits`, of a read in the state before it: if it has to evict, then the last
     bucket is not the one read just now (unless it was read twice in a row), and it holds a block or there
     is room without dropping one.
  4. **The result** — `readBlock_capacity`: over every run whose reads fit, no assertion fails and at most
     `size` blocks are held, and the next read keeps it so exactly when it fits.
-/
import BadApple.Cache.Read
import BadApple.Lib.Runs

namespace BadApple

open Function (update)
open BufferCache
open Sums (sumTo sumTo_update)

/-! ## Counting -/

/-- The number of references in the buckets. -/
def sumLens (refs : Nat → List Nat) : Nat := sumTo (fun i => (refs i).length) size

theorem sumLens_update (refs : Nat → List Nat) (l : List Nat) {i : Nat} (hi : i < size) :
    sumLens (update refs i l) + (refs i).length = sumLens refs + l.length := by
  have hcomp : (fun j => (update refs i l j).length) = update (fun j => (refs j).length) i l.length := by
    funext j
    by_cases hj : j = i
    · rw [hj, Function.update_self, Function.update_self]
    · rw [Function.update_of_ne hj, Function.update_of_ne hj]
  unfold sumLens
  rw [hcomp]
  exact sumTo_update _ i l.length size hi

theorem BufferCache.Lists.total_eq {c : BufferCache} {refs : Nat → List Nat} (hc : Lists c refs) :
    c.total = sumLens refs := by
  unfold total sumLens
  have hrefs : (fun i => (c.refsOf i).length) = fun i => (refs i).length := by
    funext i
    rw [hc.refsOf_eq]
  rw [hrefs]

theorem bucket_lt (b : Nat) : b % size < size := Nat.mod_lt b (by decide)

/-- A call adds one block to what it was handed. -/
theorem BufferCache.ReadTo.total_eq {c d c' : BufferCache} {refs : Nat → List Nat} {b : Nat}
    (h : ReadTo c refs d b c') : c'.total = sumLens refs + 1 := by
  obtain ⟨r, hlists⟩ := h.lists
  have hsum := sumLens_update refs (r :: refs (b % size)) (bucket_lt b)
  rw [hlists.total_eq]
  simp only [List.length_cons] at hsum
  omega

/-! ## Runs of reads -/

/-- A cache and the blocks read from it so far, the last one first. -/
abbrev Reading := BufferCache × List Nat

/-- The buckets read so far. -/
def buckets (h : List Nat) : List Nat := h.map fun b => b % size

/-- One successful read. -/
def ReadStep (st : Reading) (b : Nat) (st' : Reading) : Prop :=
  ∃ buffer buffer', st.1.readBlock b buffer = some (st'.1, buffer') ∧ st'.2 = b :: st.2

/-- The condition on a read of `b`: if it has to evict from the last bucket `o`, then `o` is not the
    bucket read just now, unless it was also the one before; and `o` holds a block, or fewer than `size`
    are held in all. -/
def EvictFits (st : Reading) (b : Nat) : Prop :=
  Uncached st.1 b → size ≤ st.1.count + 1 → ∀ o, st.1.globalIndexLast = some o →
    ¬ ((buckets st.2).head? = some o ∧ (buckets st.2).tail.head? ≠ some o) ∧
      (st.1.refsOf o ≠ [] ∨ st.1.total < size)

/-- The states of runs all of whose reads fit. -/
def FittingReads (ide : Ide) : Reading → Prop :=
  Runs.Guarded (fun st => st = (BufferCache.make ide, [])) ReadStep EvictFits

/-- The invariant of fitting runs. -/
structure CapInv (st : Reading) : Prop where
  lists : ∃ refs, Lists st.1 refs
  seen : Seen st.1 (buckets st.2)
  known : ∀ r block, st.1.blocks r = some block → block.blockId ∈ st.2
  count_le : st.1.count ≤ size
  count_reads : st.1.count ≤ st.2.length
  below : st.1.count < size → st.1.total = st.1.count
  total_le : st.1.total ≤ size

theorem capInv_make (ide : Ide) : CapInv (BufferCache.make ide, []) := by
  have hlists := Lists.make ide
  have hzero : (BufferCache.make ide).total = 0 := by
    rw [hlists.total_eq]
    decide +kernel
  refine ⟨⟨_, hlists⟩, seen_make ide, ?_, Nat.zero_le _, Nat.zero_le _, fun _ => hzero, ?_⟩
  · intro r block hb
    simp [BufferCache.make] at hb
  · show (BufferCache.make ide).total ≤ size
    rw [hzero]
    exact Nat.zero_le _

/-- The count never wraps. -/
theorem CapInv.count_succ {st : Reading} (h : CapInv st) : u32 (st.1.count + 1) = st.1.count + 1 := by
  have hle := h.count_le
  rw [size_eq] at hle
  exact u32_of_lt (by omega)

/-- The invariant after a call, from what the call left and from its count. -/
theorem CapInv.next {st : Reading} (h : CapInv st) {b : Nat} {d c' : BufferCache}
    {refs : Nat → List Nat} (hseen : Seen d (buckets st.2)) (hread : ReadTo st.1 refs d b c')
    (hcount : c'.count ≤ size) (hreads : c'.count ≤ st.2.length + 1)
    (hbelow : c'.count < size → c'.total = c'.count) (htotal : c'.total ≤ size) :
    CapInv (c', b :: st.2) := by
  obtain ⟨r, hlists⟩ := hread.lists
  refine ⟨⟨_, hlists⟩, (hseen.touch _).congr hread.global, ?_, hcount, hreads, hbelow, htotal⟩
  intro x block' hb'
  rcases hread.known x block' hb' with hid | ⟨y, block, hb, hid⟩
  · exact hid ▸ List.mem_cons_self
  · rw [← hid]
    exact List.mem_cons_of_mem b (h.known y block hb)

/-- **Step.**  From a state with the invariant, a call succeeds and holds at most `size` blocks exactly
    when it fits; and then the invariant holds again. -/
theorem CapInv.read {st : Reading} (h : CapInv st) (b : Nat) (buffer : Buffer) :
    (EvictFits st b ∧ ∃ c' buffer', st.1.readBlock b buffer = some (c', buffer') ∧
      CapInv (c', b :: st.2)) ∨
    (¬ EvictFits st b ∧ ∀ c' buffer', st.1.readBlock b buffer = some (c', buffer') →
      ¬ c'.total ≤ size) := by
  obtain ⟨refs, hc⟩ := h.lists
  have hsucc := h.count_succ
  have htotal := hc.total_eq
  have htotal_le := h.total_le
  have hcount_le := h.count_le
  have hreads := h.count_reads
  rcases hc.readBlock b buffer with
    ⟨hhit, pre, r, post, c', buffer', hrefs, he, hread, hcount⟩ |
    ⟨-, hlt, c', buffer', he, hread, hcount⟩ |
    ⟨hunc, hge, o, p, c', buffer', hcan, he, hread, hcount⟩ | ⟨hunc, hge, hcan, he⟩
  · -- a hit moves a block
    have hsum := sumLens_update refs (pre ++ post) (bucket_lt b)
    rw [hrefs] at hsum
    simp only [List.length_append, List.length_cons] at hsum
    have htotal' := hread.total_eq
    refine Or.inl ⟨fun hunc => absurd hunc hhit, c', buffer', he, ?_⟩
    refine h.next h.seen hread (by omega) (by omega) (fun hlt => ?_) (by omega)
    have := h.below (by omega)
    omega
  · -- a miss below capacity adds one
    rw [hsucc] at hlt hcount
    have htotal' := hread.total_eq
    have hbelow := h.below (by omega)
    refine Or.inl ⟨fun _ hge => absurd hge (by omega), c', buffer', he, ?_⟩
    exact h.next h.seen hread (by omega) (by omega) (fun _ => by omega) (by omega)
  · -- an eviction drops one, if the bucket has one
    rw [hsucc] at hge
    have hprev := (h.seen.prev_none o).not.1 (by rw [hcan.before]; simp)
    have ho : o < size := by
      obtain ⟨b', -, rfl⟩ := List.mem_map.1 (h.seen.last_mem o hcan.last)
      exact bucket_lt b'
    have hsum := sumLens_update refs (refs o).dropLast ho
    rw [List.length_dropLast] at hsum
    have htotal' := hread.total_eq
    have hfits : EvictFits st b ↔ refs o ≠ [] ∨ st.1.total < size := by
      constructor
      · intro hf
        have hroom := (hf hunc hge o hcan.last).2
        rwa [hc.refsOf_eq] at hroom
      · intro hroom hunc' hge' o' ho'
        obtain rfl : o = o' := Option.some.inj (hcan.last.symm.trans ho')
        rw [hc.refsOf_eq]
        exact ⟨fun hno => hprev (Or.inr hno), hroom⟩
    by_cases hroom : refs o ≠ [] ∨ st.1.total < size
    · have hle : c'.total ≤ size := by
        rcases hroom with hne | hlt
        · have hpos := List.length_pos_iff.2 hne
          omega
        · omega
      refine Or.inl ⟨hfits.2 hroom, c', buffer', he, ?_⟩
      refine h.next (h.seen.popped hcan) hread (by omega) ?_ (fun hlt => absurd hlt (by omega)) hle
      omega
    · refine Or.inr ⟨fun hf => hroom (hfits.1 hf), fun c'' buffer'' he' => ?_⟩
      obtain ⟨rfl, -⟩ := Prod.mk.inj (Option.some.inj (he.symm.trans he'))
      rw [not_or, Classical.not_not] at hroom
      have hlen : (refs o).length = 0 := by rw [hroom.1, List.length_nil]
      have hfull := hroom.2
      omega
  · -- nothing to pop
    rw [hsucc] at hge
    refine Or.inr ⟨fun hf => ?_, fun c' buffer' he' => by rw [he] at he'; simp at he'⟩
    have hne : buckets st.2 ≠ [] := by
      intro hnil
      have hlen : st.2.length = 0 := by simpa [buckets] using hnil
      rw [size_eq] at hge
      omega
    obtain ⟨o, ho⟩ := Option.ne_none_iff_exists'.1 fun hl => hne (h.seen.last hl)
    have hstuck : st.1.gPrev o = none := by
      cases hp : st.1.gPrev o with
      | none => rfl
      | some p =>
        refine absurd ⟨ho, hp, ?_⟩ (hcan o p)
        rw [h.seen.first]
        exact fun hnone => hne (List.head?_eq_none_iff.1 hnone)
    rcases (h.seen.prev_none o).1 hstuck with hout | hhead
    · exact hout (h.seen.last_mem o ho)
    · exact (hf hunc hge o ho).1 hhead

/-- **Run.** -/
theorem fittingReads_inv {ide : Ide} {st : Reading} (h : FittingReads ide st) : CapInv st := by
  refine Runs.Guarded.invariant (I := CapInv) ?_ ?_ h
  · rintro st rfl
    exact capInv_make ide
  · rintro st b ⟨c', hist⟩ - hI hfit ⟨buffer, buffer', he, hhist⟩
    obtain rfl : hist = b :: st.2 := hhist
    rcases hI.read b buffer with ⟨-, c'', buffer'', he', hnext⟩ | ⟨hnot, -⟩
    · obtain ⟨rfl, -⟩ := Prod.mk.inj (Option.some.inj (he'.symm.trans he))
      exact hnext
    · exact absurd hfit hnot

/-- **Capacity.**  In every state of a run whose reads all fit, at most `size` blocks are held; and the
    next call fails no assertion and holds at most `size` blocks exactly when it fits. -/
theorem readBlock_capacity {ide : Ide} {st : Reading} (h : FittingReads ide st) :
    st.1.total ≤ size ∧ ∀ b buffer,
      (∃ c' buffer', st.1.readBlock b buffer = some (c', buffer') ∧ c'.total ≤ size) ↔
        EvictFits st b := by
  have hI := fittingReads_inv h
  refine ⟨hI.total_le, fun b buffer => ?_⟩
  rcases hI.read b buffer with ⟨hfit, c', buffer', he, hnext⟩ | ⟨hnot, hbad⟩
  · exact ⟨fun _ => hfit, fun _ => ⟨c', buffer', he, hnext.total_le⟩⟩
  · refine ⟨?_, fun hfit => absurd hfit hnot⟩
    rintro ⟨c', buffer', he, hle⟩
    exact absurd hle (hbad c' buffer' he)

/-! ## The failing run -/

/-- A read of a block that was never read before, below capacity. -/
theorem CapInv.readNew {st : Reading} (h : CapInv st) {b : Nat} (hb : b ∉ st.2) :
    Uncached st.1 b ∧ (st.1.count + 1 < size → ∃ c', ReadStep st b (c', b :: st.2) ∧
      EvictFits st b ∧ c'.count = st.1.count + 1 ∧
      c'.globalIndexLast = some (st.1.globalIndexLast.getD (b % size))) := by
  have hunc : Uncached st.1 b := by
    rintro r - block hblock rfl
    exact hb (h.known r block hblock)
  obtain ⟨refs, hc⟩ := h.lists
  refine ⟨hunc, fun hlt => ?_⟩
  rw [← h.count_succ] at hlt
  rcases hc.readBlock b fun _ => 0 with
    ⟨hhit, -⟩ | ⟨-, -, c', buffer', he, hread, hcount⟩ | ⟨-, hge, -⟩ | ⟨-, hge, -⟩
  · exact absurd hunc hhit
  · refine ⟨c', ⟨_, buffer', he, rfl⟩, fun _ hge => ?_, by rw [hcount, h.count_succ], ?_⟩
    · rw [h.count_succ] at hlt
      omega
    · rw [hread.global.last, touch_last]
  · omega
  · omega

/-- Reading `0, 1, …, k`: every read misses, and bucket `0` is last. -/
theorem reads_upto (ide : Ide) : ∀ k, k + 1 < size →
    ∃ c, FittingReads ide (c, (List.range (k + 1)).reverse) ∧ c.count = k + 1 ∧
      c.globalIndexLast = some 0 := by
  intro k
  induction k with
  | zero =>
    intro hk
    obtain ⟨-, hnew⟩ := (capInv_make ide).readNew (b := 0) (by simp)
    obtain ⟨c', hstep, hfit, hcount, hlast⟩ := hnew hk
    exact ⟨c', Runs.Guarded.next (Runs.Guarded.start rfl) hfit hstep, hcount, hlast⟩
  | succ k ih =>
    intro hk
    obtain ⟨c, hrun, hcount, hlast⟩ := ih (by omega)
    obtain ⟨-, hnew⟩ := (fittingReads_inv hrun).readNew (b := k + 1) (by simp)
    obtain ⟨c', hstep, hfit, hcount', hlast'⟩ := hnew (by simp only [hcount]; omega)
    simp only [hcount] at hcount'
    rw [hlast] at hlast'
    refine ⟨c', ?_, hcount', hlast'⟩
    rw [List.range_succ, List.reverse_append]
    exact Runs.Guarded.next hrun hfit hstep

/-- The run `0, 1, …, 994, 997`: block `997` lies in bucket `0`, which is now first and last. -/
theorem reads_stale (ide : Ide) : ∃ c, FittingReads ide (c, 997 :: (List.range 995).reverse) ∧
    c.count = 996 ∧ c.globalIndexLast = some 0 := by
  obtain ⟨c, hrun, hcount, hlast⟩ := reads_upto ide 994 (by decide)
  simp only [Nat.reduceAdd] at hrun hcount
  have hout : 997 ∉ (List.range 995).reverse := by simp
  generalize (List.range 995).reverse = hist at hrun hout ⊢
  obtain ⟨-, hnew⟩ := (fittingReads_inv hrun).readNew hout
  obtain ⟨c', hstep, hfit, hcount', hlast'⟩ := hnew (by rw [hcount, size_eq]; omega)
  rw [hcount] at hcount'
  rw [hlast] at hlast'
  exact ⟨c', Runs.Guarded.next hrun hfit hstep, hcount', hlast'⟩

/-- The laws at the end of that run. -/
theorem readBlock_capacity_stale : ∃ st : Reading, st.1.total ≤ size ∧ st.1.count = 996 := by
  obtain ⟨c, hrun, hcount, -⟩ := reads_stale Ide.bytes
  exact ⟨_, (readBlock_capacity hrun).1, hcount⟩

/-- After the reads `0, 1, …, 994, 997` the read of `995` fails an assertion. -/
theorem readBlock_fails : ∃ c, FittingReads Ide.bytes (c, 997 :: (List.range 995).reverse) ∧
    c.readBlock 995 (fun _ => 0) = none := by
  obtain ⟨c, hrun, hcount, hlast⟩ := reads_stale Ide.bytes
  have hI := fittingReads_inv hrun
  refine ⟨c, hrun, ?_⟩
  obtain ⟨hunc, -⟩ := hI.readNew (b := 995) (by simp)
  obtain ⟨refs, hc⟩ := hI.lists
  -- bucket `0` was read last and not the time before
  have hstale : c.gPrev 0 = none := by
    refine (hI.seen.prev_none 0).2 (Or.inr ⟨rfl, ?_⟩)
    simp only [buckets, List.map_cons, List.tail_cons]
    rw [List.range_succ, List.reverse_append]
    simp [size_eq]
  rcases hc.readBlock 995 fun _ => 0 with
    ⟨hhit, -⟩ | ⟨-, hlt, -⟩ | ⟨-, -, o, p, -, -, hcan, -⟩ | ⟨-, -, -, he⟩
  · exact absurd hunc hhit
  · rw [hI.count_succ, hcount, size_eq] at hlt
    omega
  · obtain rfl : 0 = o := Option.some.inj (hlast.symm.trans hcan.last)
    rw [hcan.before] at hstale
    simp at hstale
  · exact he

end BadApple
