/-
  Which block `malloc` takes (kernel/heap.cc).

  1. **What should happen** — `BestFit`: the block has room for the bytes between header and footer, and was
     the smallest, the first of several, among the first 20 of the avail list that have; null means that no
     available block has, and the heap is as it was.
  2. **The search** — the blocks that the loop chooses from are those 20, if the request is rounded to ints
     correctly; it keeps the best of them, since no block reaches the `mx` that the loop starts with.
  3. **The result** — `malloc_bestFit_iff`: so it is in every state if and only if `bytes + 3` does not wrap,
     or no block is available.  A request that wraps gets a block of four ints.
-/
import BadApple.Heap.Sound

namespace BadApple

open Chains

namespace Gheith

variable {h h' : Heap} {u u' : Use} {bs : List Block} {l : List Int} {i n ints : Int} {bytes q : Nat}

/-! ## What should happen -/

/-- The bytes between header and footer of block `i`. -/
def Heap.payload (h : Heap) (i : Int) : Int := 4 * (h.size i - 2)

/-- **The right result** `q` of `malloc bytes`, `h` and `h'` being the heap before and after, `bs` and `l` the
    blocks and the avail list before. -/
structure BestFit (h : Heap) (bs : List Block) (l : List Int) (bytes q : Nat) (h' : Heap) : Prop where
  room : q ≠ 0 → bytes ≤ h'.payload (h'.idx q)
  best : q ≠ 0 → ((l.filter fun i => bytes ≤ h.payload i).take 20).minOn? h.size = some (h'.idx q)
  null : q = 0 → (∀ b ∈ bs, 0 < b.tag → ¬ bytes ≤ h.payload b.start) ∧ h' = h

/-- The states of all sequences of calls on a heap of eight ints or more, its bytes being a `size_t`. -/
def KernelHeapRuns : Use → Prop :=
  Runs.Reached
    (fun u => u.live = [] ∧ ∃ base bytes mem, 8 ≤ bytes / 4 ∧ bytes < 4294967296 ∧
      Heap.heapInit base bytes mem = some u.heap)
    fun u a u' => u.step a = some u'

/-! ## Sizes -/

/-- The length of the array that `heapInit` lays out. -/
theorem heapInit_len {base bytes : Nat} {mem : Int → Int} (hlen : 8 ≤ bytes / 4)
    (hinit : Heap.heapInit base bytes mem = some h) : h.len = (bytes / 4 : Nat) := by
  obtain ⟨q, h₁, hmalloc, hf, -⟩ :=
    (initBlocks_laidOut base (show (8 : Int) ≤ (bytes / 4 : Nat) by omega) mem).malloc lockBytes
  unfold Heap.heapInit at hinit
  simp only [hmalloc, Option.bind_eq_bind, Option.bind_some] at hinit
  split at hinit
  · simp at hinit
  · rw [← Option.some.inj hinit]
    exact hf.2.1.trans (initBlocks_frame _).2.1

/-- No call changes the length of the array. -/
theorem UseInv.step_len (hI : UseInv u bs l) {a : Call} (hs : u.step a = some u') :
    u'.heap.len = u.heap.len := by
  cases a with
  | malloc bytes =>
    obtain ⟨q, h', hmalloc, hf, -⟩ := hI.laidOut.malloc bytes
    simp only [Use.step, hmalloc, Option.bind_eq_bind, Option.bind_some, Option.some.injEq] at hs
    rw [← hs]
    exact hf.2.1
  | free p =>
    rcases Use.step_free hs with ⟨hlive, h', hfree, rfl⟩ | rfl
    · obtain ⟨h₁, -, -, -, -, hfree', hf, -⟩ := hI.freeLive hlive
      obtain rfl : h' = h₁ := Option.some.inj (hfree.symm.trans hfree')
      exact hf.2.1
    · rfl
  | write p k v =>
    obtain ⟨-, rfl⟩ := Use.step_write hs
    rfl

/-- The run lemma: the length of the array is that of a `size_t` of bytes. -/
theorem kernelHeapRuns_inv (hr : KernelHeapRuns u) : (∃ bs l, UseInv u bs l) ∧ u.heap.len < 1073741824 := by
  refine Runs.Reached.invariant (I := fun u => (∃ bs l, UseInv u bs l) ∧ u.heap.len < 1073741824) ?_ ?_ hr
  · rintro ⟨h, live⟩ ⟨rfl, base, bytes, mem, hlong, hbytes, hinit⟩
    refine ⟨useInv_heapInit hlong hinit, ?_⟩
    rw [heapInit_len hlong hinit]
    omega
  · rintro u a u' - ⟨⟨bs, l, hI⟩, hlen⟩ hs
    refine ⟨hI.step hs, ?_⟩
    rw [hI.step_len hs]
    exact hlen

/-- A listed block is shorter than the array. -/
theorem LaidOut.size_le (hL : LaidOut h bs l) (hi : i ∈ l) : h.size i ≤ h.len := by
  obtain ⟨hpos, -, hbig, hblock⟩ := hL.shape.listed_block hi
  have hstop := ((hL.row.bounds hL.shape.pos).2 _ hblock).2
  rw [stop_avail hbig] at hstop
  omega

theorem takenSize_pos (hints : 4 ≤ ints) (hn : 4 ≤ n) : 0 < takenSize ints n := by
  unfold takenSize
  split <;> omega

theorem takenSize_le (hfit : ints ≤ n) : takenSize ints n ≤ n := by
  unfold takenSize
  split <;> omega

/-- A request that does not wrap is rounded to what it needs. -/
theorem intsFor_le_iff (hbytes : bytes ≤ 0xFFFFFFFC) (hn : 4 ≤ n) :
    Heap.intsFor bytes ≤ n ↔ bytes ≤ 4 * (n - 2) := by
  unfold Heap.intsFor
  rw [u32_of_lt (by omega)]
  simp only
  split <;> omega

/-- A request that wraps is rounded to the least block. -/
theorem intsFor_wraps (hbytes : 0xFFFFFFFC < bytes) (hword : bytes < 4294967296) :
    Heap.intsFor bytes = 4 := by
  unfold Heap.intsFor
  rw [u32_of_wrap (by omega) (by omega)]
  simp only
  split <;> omega

/-! ## The search -/

theorem fitting_eq_nil {countDown : Nat} (hcount : 0 < countDown) :
    h.fitting ints l countDown = [] ↔ ∀ i ∈ l, ¬ ints ≤ h.size i := by
  unfold Heap.fitting
  rw [List.take_eq_nil_iff, or_iff_right (by omega), List.filter_eq_nil_iff]
  simp only [decide_eq_true_eq]

/-- The loop chooses from the first listed blocks that have room. -/
theorem LaidOut.fitting_eq (hL : LaidOut h bs l) (hbytes : bytes ≤ 0xFFFFFFFC) (countDown : Nat) :
    h.fitting (Heap.intsFor bytes) l countDown = (l.filter fun i => bytes ≤ h.payload i).take countDown := by
  unfold Heap.fitting
  congr 1
  apply List.filter_congr
  intro i hi
  obtain ⟨-, -, hbig, -⟩ := hL.shape.listed_block hi
  exact decide_eq_decide.2 (intsFor_le_iff hbytes hbig)

/-- What is found is the best of what the loop chooses from. -/
theorem LaidOut.chosen_best (hL : LaidOut h bs l) (hlen : h.len < 1073741824) (ints : Int) :
    (h.fitting ints l countDownFrom = [] ∧ (h.chosen ints l).2 = 0) ∨
      ∃ i, (h.fitting ints l countDownFrom).minOn? h.size = some i ∧ h.chosen ints l = (h.size i, i) := by
  have htop : ∀ i ∈ h.fitting ints l countDownFrom, h.size i < mxFrom := by
    intro i hi
    have hle := hL.size_le (mem_of_mem_fitting hi).1
    unfold mxFrom
    omega
  rcases Best.foldl_keep_minOn htop (d := 0) with ⟨hnil, hres⟩ | hbest
  · exact Or.inl ⟨hnil, congrArg Prod.snd hres⟩
  · exact Or.inr hbest

/-- **What `malloc` finds**: nothing, if no block fits; else the best of those that it chooses from, with the
    size that it leaves it. -/
theorem LaidOut.malloc_best (hL : LaidOut h bs l) (hlen : h.len < 1073741824) (hpos : 0 < bytes) :
    ∃ q h', h.malloc bytes = some (q, h') ∧
      ((q = 0 ∧ h' = h ∧ ∀ i ∈ l, ¬ Heap.intsFor bytes ≤ h.size i) ∨
        q ≠ 0 ∧ (h.fitting (Heap.intsFor bytes) l countDownFrom).minOn? h.size = some (h'.idx q) ∧
          h'.size (h'.idx q) = takenSize (Heap.intsFor bytes) (h.size (h'.idx q))) := by
  obtain ⟨q, h', hmalloc, hf, -, hres⟩ := hL.malloc bytes
  refine ⟨q, h', hmalloc, ?_⟩
  unfold Heap.malloc at hmalloc
  rw [if_neg (by omega)] at hmalloc
  simp only [hL.search_chosen, Option.bind_eq_bind, Option.bind_some] at hmalloc
  rcases hL.chosen_best hlen (Heap.intsFor bytes) with ⟨hnil, hzero⟩ | ⟨i, hi, hchosen⟩
  · rw [hzero, if_neg (by simp)] at hmalloc
    obtain ⟨rfl, rfl⟩ := Prod.mk.inj (Option.some.inj hmalloc)
    exact Or.inl ⟨rfl, rfl, (fitting_eq_nil (by decide)).1 hnil⟩
  · obtain ⟨hmem, -⟩ := mem_of_mem_fitting (List.minOn?_mem hi)
    obtain ⟨hi0, -, -, hblock⟩ := hL.shape.listed_block hmem
    rw [hchosen, if_pos (by simp only; omega)] at hmalloc
    obtain ⟨hq, hleft⟩ := Prod.mk.inj (Option.some.inj hmalloc)
    rw [hleft, addr_congr hf] at hq
    simp only at hq
    have hlt := base_lt_addr h (Int.le_of_lt hi0)
    rcases hres with ⟨-, hnone⟩ | ⟨j, mx, bs', l', hblock', hj0, -, hq', hL', htakes⟩
    · omega
    obtain rfl : i = j := addr_inj (Int.le_of_lt hi0) (Int.le_of_lt hj0) (hq.trans hq')
    have hsame := hL.shape.eq_of_start hblock hblock' rfl
    obtain rfl : h.size i = mx := congrArg Block.tag hsame
    have hidx : h'.idx q = i := by
      rw [← hq, ← addr_congr hf]
      exact idx_addr h' (Int.le_of_lt hi0)
    rw [hidx]
    refine Or.inr ⟨by omega, hi, ?_⟩
    rw [hL'.shape.size_eq htakes.mem]
    exact abs_neg_of_pos (takenSize_pos (four_le_intsFor bytes) (hL.shape.listed_block hmem).2.2.1)

/-! ## The result -/

/-- A request that does not wrap gets the right result. -/
theorem LaidOut.bestFit (hL : LaidOut h bs l) (hbytes : bytes ≤ 0xFFFFFFFC)
    (hres : (q = 0 ∧ h' = h ∧ ∀ i ∈ l, ¬ Heap.intsFor bytes ≤ h.size i) ∨
      q ≠ 0 ∧ (h.fitting (Heap.intsFor bytes) l countDownFrom).minOn? h.size = some (h'.idx q) ∧
        h'.size (h'.idx q) = takenSize (Heap.intsFor bytes) (h.size (h'.idx q))) :
    BestFit h bs l bytes q h' := by
  rcases hres with ⟨rfl, rfl, hnone⟩ | ⟨hq, hbest, hsize⟩
  · refine ⟨fun hne => absurd rfl hne, fun hne => absurd rfl hne, fun _ => ⟨fun b hb hpos hroom => ?_, rfl⟩⟩
    have hmem := hL.listed b hb hpos
    exact hnone _ hmem ((intsFor_le_iff hbytes (hL.shape.listed_block hmem).2.2.1).2 hroom)
  · obtain ⟨hmem, hfit⟩ := mem_of_mem_fitting (List.minOn?_mem hbest)
    have hbig := four_le_intsFor bytes
    refine ⟨fun _ => ?_, fun _ => ?_, fun hzero => absurd hzero hq⟩
    · unfold Heap.payload
      rw [hsize]
      unfold takenSize
      split
      · exact (intsFor_le_iff hbytes hbig).1 (Int.le_refl _)
      · exact (intsFor_le_iff hbytes (by omega)).1 hfit
    · rw [← hL.fitting_eq hbytes]
      exact hbest

/-- When no block is available, null is the right result. -/
theorem LaidOut.bestFit_empty (hL : LaidOut h bs []) : BestFit h bs [] bytes 0 h := by
  refine ⟨fun hne => absurd rfl hne, fun hne => absurd rfl hne, fun _ => ⟨fun b hb hpos => ?_, rfl⟩⟩
  exact absurd (hL.listed b hb hpos) (List.not_mem_nil)

/-- A block of the heap has no room for a request that wraps. -/
theorem LaidOut.payload_lt (hL : LaidOut h bs l) (hlen : h.len < 1073741824) (hbytes : 0xFFFFFFFC < bytes)
    (hi : i ∈ l) (hsize : n ≤ h.size i) : 4 * (n - 2) < bytes := by
  have hle := hL.size_le hi
  omega

/-- **When `malloc` finds the best fit.**  In every state, the block that it takes has room for the bytes
    and was the smallest, the first of several, among the first 20 on the avail list that have, and null
    means that no available block has and leaves the heap as it was, if and only if `bytes + 3` does not
    wrap or no block is available. -/
theorem malloc_bestFit_iff (u : Use) (hr : KernelHeapRuns u) :
    ∃ bs l, LaidOut u.heap bs l ∧ ∀ bytes, 0 < bytes → bytes < 4294967296 →
      ∃ q h', u.heap.malloc bytes = some (q, h') ∧
        (BestFit u.heap bs l bytes q h' ↔ bytes ≤ 0xFFFFFFFC ∨ u.heap.avail = 0) := by
  obtain ⟨⟨bs, l, hI⟩, hlen⟩ := kernelHeapRuns_inv hr
  have hL := hI.laidOut
  refine ⟨bs, l, hL, fun bytes hpos hword => ?_⟩
  obtain ⟨q, h', hmalloc, hres⟩ := hL.malloc_best hlen hpos
  refine ⟨q, h', hmalloc, ?_, ?_⟩
  · intro hbest
    by_contra hnot
    obtain ⟨hbytes, havail⟩ := not_or.1 hnot
    have hwrap : 0xFFFFFFFC < bytes := by omega
    rw [intsFor_wraps hwrap hword] at hres
    -- the first listed block is large enough for four ints
    obtain ⟨i, rest, rfl⟩ : ∃ i rest, l = i :: rest := by
      apply List.exists_cons_of_ne_nil
      rintro rfl
      exact havail (link_eq_none.1 hL.shape.chain.first_eq)
    rcases hres with ⟨-, -, hnone⟩ | ⟨hq, hin, hsize⟩
    · exact hnone i List.mem_cons_self (hL.shape.listed_block List.mem_cons_self).2.2.1
    · have hroom := hbest.room hq
      obtain ⟨hmem, hfit⟩ := mem_of_mem_fitting (List.minOn?_mem hin)
      have hlt := hL.payload_lt hlen hwrap hmem (takenSize_le hfit)
      unfold Heap.payload at hroom
      rw [hsize] at hroom
      omega
  · rintro (hbytes | havail)
    · exact hL.bestFit hbytes hres
    · have hnil : l = [] := by
        have hfirst := hL.shape.chain.first_eq
        rw [havail] at hfirst
        exact List.head?_eq_none_iff.1 hfirst.symm
      rw [hnil] at hL hres ⊢
      rcases hres with ⟨rfl, rfl, -⟩ | ⟨-, hin, -⟩
      · exact hL.bestFit_empty
      · exact absurd (mem_of_mem_fitting (List.minOn?_mem hin)).1 List.not_mem_nil

theorem runCalls_kernelHeapRuns {calls : List Call} (hlen : 8 ≤ bytes / 4) (hword : bytes < 4294967296)
    (hrun : runCalls bytes calls = some u) : KernelHeapRuns u :=
  runCalls_reached (fun _ hinit => ⟨rfl, 4096, bytes, _, hlen, hword, hinit⟩) hrun

/-- Two blocks available, the smaller one first on the list. -/
theorem malloc_bestFit_twoBlocks : ∃ u : Use, u.heap.avail = 14 ∧ u.heap.next 14 = 25 ∧
    ∃ bs l, LaidOut u.heap bs l ∧ ∀ bytes, 0 < bytes → bytes < 4294967296 →
      ∃ q h', u.heap.malloc bytes = some (q, h') ∧
        (BestFit u.heap bs l bytes q h' ↔ bytes ≤ 0xFFFFFFFC ∨ u.heap.avail = 0) := by
  have hrun : (runCalls 256 [.malloc 4, .malloc 20, .malloc 4, .free 4156]).map
      (fun u => (u.heap.avail, u.heap.next 14)) = some (14, 25) := by decide +kernel
  obtain ⟨u, hu, hpair⟩ := Option.map_eq_some_iff.1 hrun
  obtain ⟨havail, hnext⟩ := Prod.mk.inj hpair
  exact ⟨u, havail, hnext, malloc_bestFit_iff u (runCalls_kernelHeapRuns (by decide) (by decide) hu)⟩

/-- `0xFFFFFFFD` bytes of a fresh heap: the result is not null, and there is room for eight bytes. -/
theorem malloc_wraps :
    ¬ ∀ u : Use, KernelHeapRuns u → ∀ bs l, LaidOut u.heap bs l →
      ∀ bytes q h', 0 < bytes → bytes < 4294967296 → u.heap.malloc bytes = some (q, h') →
        BestFit u.heap bs l bytes q h' := by
  intro hall
  have hrun : (runCalls 256 []).bind (fun u => (u.heap.malloc 0xFFFFFFFD).map
      fun r => (r.1, r.2.payload (r.2.idx r.1))) = some (4140, 8) := by decide +kernel
  obtain ⟨u, hu, hcall⟩ := Option.bind_eq_some_iff.1 hrun
  obtain ⟨⟨q, h'⟩, hmalloc, hpair⟩ := Option.map_eq_some_iff.1 hcall
  obtain ⟨rfl, hpayload⟩ := Prod.mk.inj hpair
  have hr := runCalls_kernelHeapRuns (by decide) (by decide) hu
  obtain ⟨⟨bs, l, hI⟩, -⟩ := kernelHeapRuns_inv hr
  have hroom := (hall u hr bs l hI.laidOut _ _ h' (by decide) (by decide) hmalloc).room (by decide)
  rw [hpayload] at hroom
  exact absurd hroom (by decide)

end Gheith

end BadApple
