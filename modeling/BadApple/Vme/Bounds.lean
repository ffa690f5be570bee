/-
  Where `VME::add_entry` hands out memory: inside its region, as long as no 32-bit sum wraps.

  1. **Regions** — the private region `VME(0x80000000, 0xF0000000)` of a thread, and the shared region
     that `global_init` builds around the two APIC pages, with `limit = 0xFFFFFFFF`.
  2. **Specification** — `HandsOutInRegion`: a successful call returns an address at or above the
     region's start, records exactly `⌈size / 4096⌉` pages that end, computed in the naturals, at or
     below `limit`, and leaves `avail` inside the region.
  3. **The defect** — `size + 4095`, `avail + size` and `avail += 4096 * pages` are 32-bit sums and the
     guard `avail + size > limit` looks at a sum that may already have wrapped (for the shared region
     it can never fire at all).  `NoWrap` says that none of them wraps.
  4. **The result** — `addEntry_inRegion_iff_noWrap`: over every run whose requests did not wrap, the
     next request keeps the specification if and only if it does not wrap either.
-/
import BadApple.Vme.Model
import BadApple.Lib.Runs

namespace BadApple

variable {ν : Type}

/-! ## The two regions -/

/-- Where the firmware puts the two APICs: on page boundaries of the shared region, the I/O APIC
    below the local one, and the local one not on the last page. -/
structure ApicLayout (ioAPIC localAPIC : Nat) : Prop where
  io_aligned : ioAPIC % 4096 = 0
  local_aligned : localAPIC % 4096 = 0
  shared_le_io : 0xF0000000 ≤ ioAPIC
  io_lt_local : ioAPIC + 4096 ≤ localAPIC
  local_lt : localAPIC + 4096 < 4294967296

/-- The `VME`s of the kernel: a thread's own, and the shared one. -/
inductive Region where
  | user
  | shared (ioAPIC localAPIC : Nat)

namespace Region

/-- The lowest address of the region. -/
def start : Region → Nat
  | user => 0x80000000
  | shared _ _ => 0xF0000000

/-- The `limit` the region's `VME` is constructed with. -/
def limit : Region → Nat
  | user => 0xF0000000
  | shared _ _ => 0xFFFFFFFF

/-- The layout the shared region is built for. -/
def Valid : Region → Prop
  | user => True
  | shared ioAPIC localAPIC => ApicLayout ioAPIC localAPIC

/-- `a - b` in 32 bits. -/
def sub32 (a b : Nat) : Nat := u32 (a + 4294967296 - b)

theorem sub32_eq {a b : Nat} (hle : b ≤ a) (ha : a < 4294967296) : sub32 a b = a - b := by
  rw [sub32, u32_eq]
  omega

/-- The entry `global_init` inserts for an APIC page. -/
def apicEntry (apic : Nat) : VMEEntry ν := ⟨apic, 1, frameSize, none, 0, false⟩

/-- The `VME` as constructed: `VME(0x80000000, 0xF0000000)` in `thread` and `execl`, and the one
    `global_init` sets up. -/
def init : Region → VME ν
  | user => VME.new 0x80000000 0xF0000000
  | shared ioAPIC localAPIC =>
      let v₀ : VME ν := VME.new (u32 (localAPIC + frameSize)) 0xFFFFFFFF
      let v₁ := v₀.insertFreeSpace 0xF0000000 (sub32 ioAPIC 0xF0000000 / frameSize)
      let v₂ := { v₁ with entries := VME.insertEntrySorted (apicEntry ioAPIC) v₁.entries }
      let v₃ := v₂.insertFreeSpace (u32 (ioAPIC + frameSize))
        (sub32 localAPIC (u32 (ioAPIC + frameSize)) / frameSize)
      { v₃ with entries := VME.insertEntrySorted (apicEntry localAPIC) v₃.entries }

end Region

namespace VME

/-! ## The specification and the condition -/

/-- What a successful request must deliver, in natural numbers. -/
def HandsOutInRegion (start : Nat) (v : VME ν) (size : Nat) (file : Option ν) (fileOffset : Nat)
    (user : Bool) : Prop :=
  ∀ va v', v.addEntry size file fileOffset user = (va, v') → va ≠ 0 →
    start ≤ va ∧ va + 4096 * pagesFor size ≤ v.limit ∧
    (∃ e : VMEEntry ν, e.start = va ∧ e.numPages = pagesFor size ∧
      v'.entries.Perm (e :: v.entries)) ∧
    start ≤ v'.avail ∧ v'.avail ≤ v.limit

/-- **No 32-bit sum of the call wraps**: not the round-up `size + 4095`; and, when no free range is
    large enough, neither `avail + size` nor, for an accepted request, `avail + 4096 * pages`. -/
def NoWrap (v : VME ν) (size : Nat) : Prop :=
  size + 4095 < 4294967296 ∧
  ((∃ f ∈ v.freeEntries, pagesFor size ≤ f.numPages) ∨
    (v.avail + size < 4294967296 ∧
      (v.avail + size ≤ v.limit → v.avail + 4096 * pagesFor size < 4294967296)))

/-- The condition on a step: a request is a 32-bit size that does not wrap; removals are free. -/
def StepFits (v : VME ν) : Op ν → Prop
  | .add size _ _ _ => size < 4294967296 ∧ NoWrap v size
  | .remove _ _ => True

/-- The states of a region's `VME` over runs without a wrapping request. -/
def InRun (r : Region) : VME ν → Prop :=
  Runs.Guarded (fun v => v = r.init) Step StepFits

/-! ## The invariant -/

/-- Every recorded range lies in `[start, avail]`, and `avail` is a page boundary of the region. -/
structure InBounds (r : Region) (v : VME ν) : Prop where
  limit_eq : v.limit = r.limit
  start_le : r.start ≤ v.avail
  avail_le : v.avail ≤ v.limit
  avail_aligned : v.avail % 4096 = 0
  free : ∀ f ∈ v.freeEntries, r.start ≤ f.start ∧ f.start + f.numPages * 4096 ≤ v.avail
  entries : ∀ e ∈ v.entries, r.start ≤ e.start ∧ e.start + e.numPages * 4096 ≤ v.avail

theorem le_start (r : Region) : 4096 ≤ r.start := by
  cases r <;> simp only [Region.start] <;> omega

theorem start_pos (r : Region) : 0 < r.start := Nat.lt_of_lt_of_le (by omega) (le_start r)

theorem limit_lt (r : Region) : r.limit < 4294967296 := by
  cases r <;> simp only [Region.limit] <;> omega

/-- Merging neighbours keeps a list of free ranges inside `[lo, hi]`. -/
theorem coallesceFrom_bounds {lo hi : Nat} (hhi : hi < 4294967296) :
    ∀ (rest : List FreeEntry) (curr : FreeEntry),
      (∀ f ∈ curr :: rest, lo ≤ f.start ∧ f.start + f.numPages * 4096 ≤ hi) →
      ∀ f ∈ coallesceFrom curr rest, lo ≤ f.start ∧ f.start + f.numPages * 4096 ≤ hi
  | [], curr, h => h
  | next :: rest, curr, h => by
    have hcurr := h curr (by simp)
    have hnext := h next (by simp)
    have hrest : ∀ f ∈ rest, lo ≤ f.start ∧ f.start + f.numPages * 4096 ≤ hi :=
      fun f hf => h f (by simp [hf])
    rw [coallesceFrom]
    split
    · rename_i htouch
      -- the merged range starts where `curr` starts and ends where `next` ends
      have hstop : curr.start + curr.numPages * 4096 = next.start := by
        rw [FreeEntry.stop, frameSize_eq, u32_of_lt (by omega : curr.numPages * 4096 < 4294967296),
          u32_of_lt (by omega)] at htouch
        exact htouch
      have hpages : u32 (curr.numPages + next.numPages) = curr.numPages + next.numPages :=
        u32_of_lt (by omega)
      refine coallesceFrom_bounds hhi rest _ (List.forall_mem_cons.mpr ⟨?_, hrest⟩)
      simp only [hpages]
      exact ⟨hcurr.1, by omega⟩
    · refine List.forall_mem_cons.mpr ⟨hcurr, ?_⟩
      exact coallesceFrom_bounds hhi rest next (List.forall_mem_cons.mpr ⟨hnext, hrest⟩)

/-- Giving a range of `[lo, hi]` back keeps all free ranges inside `[lo, hi]`. -/
theorem insertFreeSpace_bounds {lo hi start numPages : Nat} (hhi : hi < 4294967296) {v : VME ν}
    (hnew : lo ≤ start ∧ start + numPages * 4096 ≤ hi)
    (hold : ∀ f ∈ v.freeEntries, lo ≤ f.start ∧ f.start + f.numPages * 4096 ≤ hi) :
    ∀ f ∈ (v.insertFreeSpace start numPages).freeEntries,
      lo ≤ f.start ∧ f.start + f.numPages * 4096 ≤ hi := by
  have hperm := insertFreeSorted_perm ⟨start, numPages⟩ v.freeEntries
  have hins : ∀ f ∈ insertFreeSorted ⟨start, numPages⟩ v.freeEntries,
      lo ≤ f.start ∧ f.start + f.numPages * 4096 ≤ hi := by
    intro f hf
    rcases List.mem_cons.mp (hperm.mem_iff.mp hf) with rfl | hf'
    · exact hnew
    · exact hold f hf'
  simp only [insertFreeSpace]
  cases hl : insertFreeSorted ⟨start, numPages⟩ v.freeEntries with
  | nil => rw [coallescing]; simp
  | cons curr rest => rw [hl] at hins; exact coallesceFrom_bounds hhi rest curr hins

theorem init_inBounds (r : Region) (hr : r.Valid) : InBounds r (r.init : VME ν) := by
  cases r with
  | user =>
    have havail : (Region.user.init : VME ν).avail % 4096 = 0 := by simp only [Region.init, new]
    exact ⟨by simp [Region.init, Region.limit, new], by simp [Region.init, Region.start, new],
      by simp [Region.init, new], havail, by simp [Region.init, new], by simp [Region.init, new]⟩
  | shared ioAPIC localAPIC =>
    obtain ⟨h1, h2, h3, h4, h5⟩ := hr
    have hio : u32 (ioAPIC + 4096) = ioAPIC + 4096 := u32_of_lt (by omega)
    have hlocal : u32 (localAPIC + 4096) = localAPIC + 4096 := u32_of_lt h5
    have hsub1 : Region.sub32 ioAPIC 0xF0000000 = ioAPIC - 0xF0000000 := Region.sub32_eq h3 (by omega)
    have hsub2 : Region.sub32 localAPIC (ioAPIC + 4096) = localAPIC - (ioAPIC + 4096) :=
      Region.sub32_eq h4 (by omega)
    have hhi : localAPIC + 4096 < 4294967296 := h5
    constructor
    · simp only [Region.init, Region.limit, insertFreeSpace, new]
    · simp only [Region.init, Region.start, insertFreeSpace, new, frameSize_eq, hlocal]; omega
    · simp only [Region.init, insertFreeSpace, new, frameSize_eq, hlocal]; omega
    · simp only [Region.init, insertFreeSpace, new, frameSize_eq, hlocal]; omega
    · -- the two gaps below the APIC pages, given back one after the other
      have hnew : ∀ f ∈ (VME.new (localAPIC + 4096) 0xFFFFFFFF : VME ν).freeEntries,
          0xF0000000 ≤ f.start ∧ f.start + f.numPages * 4096 ≤ localAPIC + 4096 := by simp [new]
      have hgap1 : 0xF0000000 ≤ 0xF0000000 ∧
          0xF0000000 + (ioAPIC - 0xF0000000) / 4096 * 4096 ≤ localAPIC + 4096 := by omega
      have hgap2 : 0xF0000000 ≤ ioAPIC + 4096 ∧
          ioAPIC + 4096 + (localAPIC - (ioAPIC + 4096)) / 4096 * 4096 ≤ localAPIC + 4096 := by
        omega
      have hfirst := insertFreeSpace_bounds hhi hgap1 hnew
      have hsecond := insertFreeSpace_bounds hhi hgap2 hfirst
      simp only [Region.init, Region.start, insertFreeSpace, new, frameSize_eq, hlocal, hio, hsub1,
        hsub2]
      simpa only [insertFreeSpace, new] using hsecond
    · intro e he
      simp only [Region.init, insertFreeSpace, new, insertEntrySorted] at he
      have he' : e = Region.apicEntry ioAPIC ∨ e = Region.apicEntry localAPIC := by
        split at he <;> simp at he <;> tauto
      simp only [Region.init, Region.start, insertFreeSpace, new, frameSize_eq, hlocal]
      rcases he' with rfl | rfl <;> simp only [Region.apicEntry] <;> omega

/-! ## One call keeps the invariant -/

/-- Below the wrap of the round-up, the code's page count is the rounded-up one. -/
theorem requiredPages_eq {size : Nat} (h : size + 4095 < 4294967296) :
    requiredPages size = pagesFor size := by
  rw [requiredPages, pagesFor, frameSize_eq, u32_of_lt (by omega)]
  rfl

/-- What first fit leaves of a range inside `[lo, hi]` is inside `[lo, hi]`. -/
theorem shrink_bounds {lo hi required : Nat} (hhi : hi < 4294967296) {f : FreeEntry}
    (hf : lo ≤ f.start ∧ f.start + f.numPages * 4096 ≤ hi) (hreq : required ≤ f.numPages) :
    ∀ g ∈ shrink required f, lo ≤ g.start ∧ g.start + g.numPages * 4096 ≤ hi := by
  intro g hg
  rw [shrink] at hg
  split at hg
  · simp at hg
  · rw [List.mem_singleton] at hg
    have hmul : u32 (required * frameSize) = required * 4096 := by
      rw [frameSize_eq]; exact u32_of_lt (by omega)
    have hsum : u32 (f.start + required * 4096) = f.start + required * 4096 :=
      u32_of_lt (by omega)
    rw [hg, hmul, hsum]
    constructor
    · show lo ≤ f.start + required * 4096
      omega
    · show f.start + required * 4096 + (f.numPages - required) * 4096 ≤ hi
      omega

/-- The free ranges after a successful first fit are inside the bounds of those before it, and so is
    the range handed out. -/
theorem takeFree_bounds {lo hi required va : Nat} (hhi : hi < 4294967296) {fs fs' : List FreeEntry}
    (hfs : ∀ f ∈ fs, lo ≤ f.start ∧ f.start + f.numPages * 4096 ≤ hi)
    (h : takeFree required fs = some (va, fs')) :
    (lo ≤ va ∧ va + required * 4096 ≤ hi) ∧
      ∀ f ∈ fs', lo ≤ f.start ∧ f.start + f.numPages * 4096 ≤ hi := by
  obtain ⟨l₁, f, l₂, rfl, rfl, rfl, hreq⟩ := takeFree_some h
  have hf := hfs f (by simp)
  refine ⟨⟨hf.1, by omega⟩, fun g hg => ?_⟩
  simp only [List.mem_append] at hg
  rcases hg with hg | hg | hg
  · exact hfs g (by simp [hg])
  · exact shrink_bounds hhi hf hreq g hg
  · exact hfs g (by simp [hg])

theorem InBounds.free_pos {r : Region} {v : VME ν} (h : InBounds r v) :
    ∀ f ∈ v.freeEntries, 0 < f.start := by
  intro f hf
  have h1 := (h.free f hf).1
  have h2 := start_pos r
  omega

theorem InBounds.avail_lt {r : Region} {v : VME ν} (h : InBounds r v) : v.avail < 4294967296 := by
  have h1 := h.avail_le
  have h2 := limit_lt r
  rw [h.limit_eq] at h1; omega

/-- In both regions an accepted request whose rounded-up end does not wrap ends below `limit`. -/
theorem InBounds.rounded_le_limit {r : Region} {v : VME ν} (h : InBounds r v) {size : Nat}
    (haccept : v.avail + size ≤ v.limit) (hwrap : v.avail + 4096 * pagesFor size < 4294967296) :
    v.avail + 4096 * pagesFor size ≤ v.limit := by
  have h1 := h.limit_eq
  have h2 := h.avail_aligned
  rw [pagesFor] at hwrap ⊢
  cases r <;> simp only [Region.limit] at h1 <;> omega

/-- **One request keeps the invariant** when none of its sums wraps. -/
theorem addEntry_inBounds {r : Region} {v : VME ν} (h : InBounds r v) {size : Nat}
    (hfit : NoWrap v size) (file : Option ν) (fileOffset : Nat) (user : Bool) :
    InBounds r (v.addEntry size file fileOffset user).2 := by
  have havail := h.avail_lt
  have hreq := requiredPages_eq hfit.1
  have hpos : 0 < v.avail := Nat.lt_of_lt_of_le (start_pos r) h.start_le
  rcases addEntry_cases v size file fileOffset user h.free_pos hpos with
    ⟨va, fs, htake, -, heq⟩ | ⟨htake, haccept, -, heq⟩ | ⟨-, -, heq⟩
  · -- handed out of a free range: `avail` does not move
    obtain ⟨hva, hfs⟩ := takeFree_bounds havail h.free htake
    rw [heq]
    refine ⟨h.limit_eq, h.start_le, h.avail_le, h.avail_aligned, hfs, fun e he => ?_⟩
    rcases List.mem_cons.mp ((insertEntrySorted_perm _ _).mem_iff.mp he) with rfl | he'
    · exact hva
    · exact h.entries e he'
  · -- handed out at `avail`, which moves up by the rounded-up size
    have hnone := takeFree_eq_none_iff.mp htake
    have hsum : v.avail + size < 4294967296 ∧
        (v.avail + size ≤ v.limit → v.avail + 4096 * pagesFor size < 4294967296) := by
      rcases hfit.2 with ⟨f, hf, hle⟩ | hsum
      · have := hnone f hf; omega
      · exact hsum
    rw [u32_of_lt hsum.1] at haccept
    have hend := hsum.2 haccept
    have hlim := h.rounded_le_limit haccept hend
    have hnew : u32 (v.avail + u32 (frameSize * requiredPages size))
        = v.avail + 4096 * pagesFor size := by
      rw [hreq, frameSize_eq, u32_of_lt (by omega : 4096 * pagesFor size < 4294967296),
        u32_of_lt hend]
    have hstart := h.start_le
    have haligned := h.avail_aligned
    rw [heq, hnew]
    refine ⟨h.limit_eq, by show r.start ≤ v.avail + 4096 * pagesFor size; omega, hlim,
      by show (v.avail + 4096 * pagesFor size) % 4096 = 0; omega, fun f hf => ?_, fun e he => ?_⟩
    · have hold := h.free f hf
      exact ⟨hold.1, Nat.le_trans hold.2 (Nat.le_add_right _ _)⟩
    · rcases List.mem_cons.mp ((insertEntrySorted_perm _ _).mem_iff.mp he) with rfl | he'
      · refine ⟨hstart, ?_⟩
        show v.avail + requiredPages size * 4096 ≤ v.avail + 4096 * pagesFor size
        omega
      · have hold := h.entries e he'
        exact ⟨hold.1, Nat.le_trans hold.2 (Nat.le_add_right _ _)⟩
  · rw [heq]; exact h

/-- **One removal keeps the invariant.** -/
theorem removeEntry_inBounds {r : Region} {v : VME ν} (h : InBounds r v) (va : Nat) (user : Bool) :
    InBounds r (v.removeEntry va user).2 := by
  rw [removeEntry]
  rcases hun : unlinkEntry va user v.entries with _ | ⟨e, rest⟩
  · exact h
  · obtain ⟨⟨l₁, l₂, h1, h2⟩, -, -⟩ := unlinkEntry_some hun
    have he := h.entries e (by rw [h1]; simp)
    refine ⟨h.limit_eq, h.start_le, h.avail_le, h.avail_aligned, ?_, fun e' he' => ?_⟩
    · exact insertFreeSpace_bounds (v := { v with entries := rest }) h.avail_lt he h.free
    · have hmem : e' ∈ l₁ ++ l₂ := h2 ▸ he'
      refine h.entries e' ?_
      rw [h1]
      rcases List.mem_append.mp hmem with hl | hl <;> simp [hl]

/-- The invariant holds in every state of a run without wrapping requests. -/
theorem inRun_inBounds {r : Region} (hr : r.Valid) {v : VME ν} (hv : InRun r v) : InBounds r v := by
  refine hv.invariant ?_ ?_
  · intro s hs
    rw [hs]; exact init_inBounds r hr
  · intro s op t _ hI hok hstep
    rw [hstep]
    cases op with
    | add size file fileOffset user => exact addEntry_inBounds hI hok.2 file fileOffset user
    | remove va user => exact removeEntry_inBounds hI va user

/-! ## The condition is exact -/

/-- A request that does not wrap delivers what it must. -/
theorem handsOutInRegion_of_noWrap {r : Region} {v : VME ν} (h : InBounds r v) {size : Nat}
    (hfit : NoWrap v size) (file : Option ν) (fileOffset : Nat) (user : Bool) :
    HandsOutInRegion r.start v size file fileOffset user := by
  intro va v' hres hva
  have hafter : InBounds r v' := by
    have hstep := addEntry_inBounds h hfit file fileOffset user
    rwa [hres] at hstep
  have hlimit : v'.limit = v.limit := hafter.limit_eq.trans h.limit_eq.symm
  have hreq := requiredPages_eq hfit.1
  -- the entry recorded for `va`, wherever the pages came from
  have hrec : ∃ e : VMEEntry ν, e.start = va ∧ e.numPages = pagesFor size ∧
      v'.entries.Perm (e :: v.entries) := by
    have hpos : 0 < v.avail := Nat.lt_of_lt_of_le (start_pos r) h.start_le
    rcases addEntry_cases v size file fileOffset user h.free_pos hpos with
      ⟨va₀, fs, -, -, heq⟩ | ⟨-, -, -, heq⟩ | ⟨-, -, heq⟩
    · rw [heq] at hres
      obtain ⟨rfl, rfl⟩ := Prod.mk.inj hres
      exact ⟨⟨va₀, requiredPages size, size, file, fileOffset, user⟩, rfl, hreq,
        insertEntrySorted_perm _ _⟩
    · rw [heq] at hres
      obtain ⟨rfl, rfl⟩ := Prod.mk.inj hres
      exact ⟨⟨v.avail, requiredPages size, size, file, fileOffset, user⟩, rfl, hreq,
        insertEntrySorted_perm _ _⟩
    · rw [heq] at hres
      obtain ⟨h0, -⟩ := Prod.mk.inj hres
      exact absurd h0.symm hva
  obtain ⟨e, hes, hep, hperm⟩ := hrec
  have hin := hafter.entries e (hperm.mem_iff.mpr (by simp))
  have hle := hafter.avail_le
  rw [hes, hep] at hin
  exact ⟨hin.1, by omega, ⟨e, hes, hep, hperm⟩, hafter.start_le, by omega⟩

/-- The entry a call records is determined by the multiset of entries before and after it. -/
theorem recorded_unique {es es' : List (VMEEntry ν)} {e e' : VMEEntry ν}
    (h : es'.Perm (e :: es)) (h' : es'.Perm (e' :: es)) : e = e' := by
  have hcons : (e :: es).Perm (e' :: es) := h.symm.trans h'
  have happ : ([e] ++ es).Perm ([e'] ++ es) := hcons
  exact List.singleton_perm_singleton.mp ((List.perm_append_right_iff es).mp happ)

/-- A request some sum of which wraps breaks the promise. -/
theorem noWrap_of_handsOutInRegion {r : Region} {v : VME ν} (h : InBounds r v) {size : Nat}
    (hsize : size < 4294967296) {file : Option ν} {fileOffset : Nat} {user : Bool}
    (hout : HandsOutInRegion r.start v size file fileOffset user) : NoWrap v size := by
  have havail := h.avail_lt
  have hpos : 0 < v.avail := Nat.lt_of_lt_of_le (start_pos r) h.start_le
  have hlim := h.avail_le
  have hstart := Nat.le_trans (le_start r) h.start_le
  have hcases := addEntry_cases v size file fileOffset user h.free_pos hpos
  by_cases hround : size + 4095 < 4294967296
  · -- the page count is right, so only the sums with `avail` can go wrong
    have hreq := requiredPages_eq hround
    refine ⟨hround, ?_⟩
    rcases hcases with ⟨va, fs, htake, -, -⟩ | ⟨htake, haccept, hne, heq⟩ | ⟨-, hrefuse, heq⟩
    · obtain ⟨l₁, f, l₂, h1, -, -, hle⟩ := takeFree_some htake
      exact Or.inl ⟨f, by rw [h1]; simp, by rw [← hreq]; exact hle⟩
    · obtain ⟨-, hend, -, -⟩ := hout _ _ heq hne
      have hl := limit_lt r
      rw [← h.limit_eq] at hl
      rw [pagesFor] at hend
      refine Or.inr ⟨by omega, fun _ => ?_⟩
      rw [pagesFor]; omega
    · -- a wrapped `avail + size` is below `avail`, hence never refused
      apply Or.inr
      by_cases hw : v.avail + size < 4294967296
      · rw [u32_of_lt hw] at hrefuse
        exact ⟨hw, fun hle => absurd hle (by omega)⟩
      · rw [u32_of_wrap (by omega) (by omega)] at hrefuse; omega
  · -- the round-up wraps to zero pages, but the request is for `2 ^ 20` pages
    exfalso
    have hzero : requiredPages size = 0 := by
      rw [requiredPages, frameSize_eq, u32_of_wrap (by omega) (by omega)]; omega
    have hmany : pagesFor size = 1048576 := by rw [pagesFor]; omega
    rcases hcases with ⟨va, fs, -, hne, heq⟩ | ⟨-, -, hne, heq⟩ | ⟨-, hrefuse, heq⟩
    · obtain ⟨-, -, ⟨e, -, hep, hperm⟩, -, -⟩ := hout _ _ heq hne
      have hun := recorded_unique hperm (insertEntrySorted_perm _ _)
      rw [hun] at hep
      have : requiredPages size = pagesFor size := hep
      omega
    · obtain ⟨-, -, ⟨e, -, hep, hperm⟩, -, -⟩ := hout _ _ heq hne
      have hun := recorded_unique hperm (insertEntrySorted_perm _ _)
      rw [hun] at hep
      have : requiredPages size = pagesFor size := hep
      omega
    · rw [u32_of_wrap (by omega) (by omega)] at hrefuse; omega

/-- **Main result.**  Over every run of either region in which no request wrapped, the next request
    stays inside the region, is recorded with its rounded-up page count and keeps `avail` inside the
    region if and only if none of its own 32-bit sums wraps. -/
theorem addEntry_inRegion_iff_noWrap (r : Region) (hr : r.Valid) {v : VME ν} (hv : InRun r v)
    {size : Nat} (hsize : size < 4294967296) (file : Option ν) (fileOffset : Nat) (user : Bool) :
    HandsOutInRegion r.start v size file fileOffset user ↔ NoWrap v size :=
  ⟨noWrap_of_handsOutInRegion (inRun_inBounds hr hv) hsize,
    fun hfit => handsOutInRegion_of_noWrap (inRun_inBounds hr hv) hfit file fileOffset user⟩

/-- The usual PC layout of the APIC pages. -/
theorem apicLayout_pc : ApicLayout 0xFEC00000 0xFEE00000 := by
  constructor <;> omega

/-- The main result at the shared region as `global_init` leaves it, for a request of one page. -/
theorem addEntry_inRegion_iff_noWrap_shared :
    HandsOutInRegion 0xF0000000 (Region.init (.shared 0xFEC00000 0xFEE00000) : VME Unit) 4096 none 0
      true ↔ NoWrap (Region.init (.shared 0xFEC00000 0xFEE00000) : VME Unit) 4096 :=
  addEntry_inRegion_iff_noWrap (.shared 0xFEC00000 0xFEE00000) apicLayout_pc
    (Runs.Guarded.start rfl) (by omega) none 0 true

/-- **The defect on a fresh private `VME`**: a request for `2 ^ 31` bytes makes `avail + size` wrap to
    `0`, passes the guard, is handed `0x80000000` although it ends `2 ^ 28` bytes above `limit`, and
    leaves `avail = 0`. -/
theorem addEntry_wraps :
    (VME.new 0x80000000 0xF0000000 : VME Unit).addEntry 0x80000000 none 0 true
        = (0x80000000, ⟨0, 0xF0000000, [⟨0x80000000, 0x80000, 0x80000000, none, 0, true⟩], []⟩) ∧
      ¬ HandsOutInRegion 0x80000000 (VME.new 0x80000000 0xF0000000 : VME Unit) 0x80000000 none 0
        true := by
  have heq : (VME.new 0x80000000 0xF0000000 : VME Unit).addEntry 0x80000000 none 0 true
      = (0x80000000, ⟨0, 0xF0000000, [⟨0x80000000, 0x80000, 0x80000000, none, 0, true⟩], []⟩) := by
    decide +kernel
  refine ⟨heq, fun h => ?_⟩
  obtain ⟨-, -, -, havail, -⟩ := h _ _ heq (by omega)
  exact absurd havail (by simp)

end VME

end BadApple
