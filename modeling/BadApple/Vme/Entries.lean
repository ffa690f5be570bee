/-
  What a `VME` records about its entries.

  1. **Sizes** — an entry with a file has as many pages as its size asks for, in every run; so each of its
     pages begins before its end.
  2. **Apart** — in runs without a wrapping request no address is in two ranges, so that `get` finds each
     entry at each of its addresses.
-/
import BadApple.Vme.Aligned
import BadApple.Vme.Tiling

namespace BadApple

open Ranges

variable {ν : Type}

namespace VME

variable {v : VME ν} {e : VMEEntry ν} {va : Nat} {r : Region}

/-! ## Sizes -/

/-- The size of a request is a 32-bit word. -/
def SizeFits (_ : VME ν) : Op ν → Prop
  | .add size _ _ _ => size < 4294967296
  | .remove _ _ => True

/-- The states of a region's `VME` over all runs of 32-bit requests. -/
def WordRun (r : Region) : VME ν → Prop := Runs.Guarded (fun v => v = r.init) Step SizeFits

/-- Entries with a file have the pages that their sizes ask for. -/
def Sized (v : VME ν) : Prop :=
  ∀ e ∈ v.entries, e.file ≠ none → e.size < 4294967296 ∧ e.numPages = requiredPages e.size

theorem Sized.addEntry (h : Sized v) {size : Nat} (hsize : size < 4294967296) (file : Option ν)
    (fileOffset : Nat) (user : Bool) : Sized (v.addEntry size file fileOffset user).2 := by
  have hinsert : ∀ start,
      ∀ e ∈ insertEntrySorted ⟨start, requiredPages size, size, file, fileOffset, user⟩ v.entries,
      e.file ≠ none → e.size < 4294967296 ∧ e.numPages = requiredPages e.size := by
    intro start e he hfile
    rcases List.mem_cons.1 ((insertEntrySorted_perm _ _).mem_iff.1 he) with rfl | he
    · exact ⟨hsize, rfl⟩
    · exact h e he hfile
  unfold VME.addEntry
  simp only
  split
  · split
    · exact h
    · exact hinsert _
  · exact hinsert _

theorem Sized.removeEntry (h : Sized v) (va : Nat) (user : Bool) : Sized (v.removeEntry va user).2 := by
  rw [VME.removeEntry]
  cases hun : unlinkEntry va user v.entries with
  | none => exact h
  | some r =>
    obtain ⟨e, rest⟩ := r
    obtain ⟨⟨l₁, l₂, h1, h2⟩, -, -⟩ := unlinkEntry_some hun
    intro e' he'
    have hmem : e' ∈ l₁ ++ l₂ := h2 ▸ he'
    refine h e' ?_
    rw [h1]
    rcases List.mem_append.1 hmem with hl | hl
    · exact List.mem_append_left _ hl
    · exact List.mem_append_right _ (List.mem_cons_of_mem _ hl)

/-- At the start no entry has a file. -/
theorem init_sized (r : Region) : Sized (r.init : VME ν) := by
  cases r with
  | user =>
    intro e he
    cases he
  | shared ioAPIC localAPIC =>
    intro e he hfile
    simp only [Region.init, insertFreeSpace, new] at he
    rcases List.mem_cons.1 ((insertEntrySorted_perm _ _).mem_iff.1 he) with rfl | he
    · exact absurd rfl hfile
    · rcases List.mem_cons.1 ((insertEntrySorted_perm _ _).mem_iff.1 he) with rfl | he
      · exact absurd rfl hfile
      · cases he

/-- **Every run** of 32-bit requests. -/
theorem WordRun.sized (h : WordRun r v) : Sized v := by
  apply Runs.Guarded.invariant (I := Sized) ?_ ?_ h
  · rintro v rfl
    exact init_sized r
  · rintro v op v' - hI hok rfl
    cases op with
    | add size file fileOffset user => exact hI.addEntry hok file fileOffset user
    | remove va user => exact hI.removeEntry va user

theorem WordRun.anyRun (h : WordRun r v) : AnyRun r v := Runs.Guarded.mono (fun _ _ _ => trivial) h

/-- Requests that do not wrap are 32-bit words. -/
theorem InRun.wordRun (h : InRun r v) : WordRun r v := by
  refine Runs.Guarded.mono (fun v op hok => ?_) h
  cases op with
  | add size file fileOffset user => exact hok.1
  | remove va user => trivial

/-- **A page of an entry** begins in it, before the end of its size. -/
theorem covers_page_start (halign : e.start % 4096 = 0) (hpages : e.numPages = requiredPages e.size)
    (hcov : covers va e = true) : e.start ≤ va / 4096 * 4096 ∧ va / 4096 * 4096 - e.start < e.size := by
  rw [covers, decide_eq_true_eq, VMEEntry.stop, u32_eq, u32_eq, hpages, requiredPages, u32_eq,
    frameSize_eq] at hcov
  omega

/-! ## Apart -/

/-- No address is in two of the recorded ranges. -/
def Once (v : VME ν) : Prop := ∀ a, hits v.ranges a ≤ 1

/-- Free ranges that are recorded in a region do not wrap. -/
theorem InBounds.free_lt (h : InBounds r v) : ∀ f ∈ v.freeEntries, f.start + f.numPages * 4096 < 4294967296 :=
  fun f hf => Nat.lt_of_le_of_lt (h.free f hf).2 h.avail_lt

/-- Above `avail` nothing is recorded. -/
theorem InBounds.hits_above (h : InBounds r v) {a : Nat} (ha : v.avail ≤ a) : hits v.ranges a = 0 := by
  by_contra hne
  obtain ⟨x, hx, hhas⟩ := hits_pos_iff.1 (Nat.pos_of_ne_zero hne)
  rcases List.mem_append.1 hx with hx | hx
  · obtain ⟨e, he, rfl⟩ := List.mem_map.1 hx
    have hend := (h.entries e he).2
    have hlt : a < e.start + e.numPages * 4096 := hhas.2
    omega
  · obtain ⟨f, hf, rfl⟩ := List.mem_map.1 hx
    have hend := (h.free f hf).2
    have hlt : a < f.start + f.numPages * 4096 := hhas.2
    omega

/-- **A request** hands out addresses that were in no entry. -/
theorem Once.addEntry (h : Once v) (hb : InBounds r v) (size : Nat) (file : Option ν)
    (fileOffset : Nat) (user : Bool) : Once (v.addEntry size file fileOffset user).2 := by
  intro a
  have hold := h a
  have hpos : 0 < v.avail := Nat.lt_of_lt_of_le (start_pos r) hb.start_le
  rcases addEntry_cases v size file fileOffset user hb.free_pos hpos with
    ⟨va, fs, htake, -, heq⟩ | ⟨-, -, -, heq⟩ | ⟨-, -, heq⟩
  · -- the pages move from a free range to the new entry
    have hfree := takeFree_hits hb.free_lt htake a
    rw [heq]
    rw [hits_ranges] at hold ⊢
    simp only
    rw [insertEntrySorted_hits]
    simp only
    omega
  · -- the pages are above the old `avail`
    rw [heq]
    rw [hits_ranges] at hold ⊢
    simp only
    rw [insertEntrySorted_hits]
    by_cases ha : v.avail ≤ a
    · have habove := hb.hits_above ha
      rw [hits_ranges] at habove
      split <;> omega
    · rw [if_neg fun hhas => ha hhas.1]
      omega
  · rw [heq]
    exact hold

/-- **A removal** moves the pages of an entry to a free range. -/
theorem Once.removeEntry (h : Once v) (hb : InBounds r v) (va : Nat) (user : Bool) :
    Once (v.removeEntry va user).2 := by
  rw [VME.removeEntry]
  cases hun : unlinkEntry va user v.entries with
  | none => exact h
  | some x =>
    obtain ⟨e, rest⟩ := x
    obtain ⟨⟨l₁, l₂, h1, h2⟩, -, -⟩ := unlinkEntry_some hun
    have he : e ∈ v.entries := by
      rw [h1]
      exact List.mem_append_right _ List.mem_cons_self
    have hend : e.start + e.numPages * 4096 < 4294967296 := Nat.lt_of_le_of_lt (hb.entries e he).2 hb.avail_lt
    have hperm : v.entries.Perm (e :: rest) := by
      rw [h1, h2]
      exact List.perm_middle
    intro a
    have hold := h a
    rw [hits_ranges, hits_perm (hperm.map VMEEntry.range), List.map_cons, hits_cons] at hold
    have hfree := insertFreeSpace_hits (v := { v with entries := rest }) hend hb.free_lt a
    rw [hits_ranges, hfree]
    have hhas : (if (Range.mk e.start (e.numPages * 4096)).Has a then 1 else 0)
        = if e.range.Has a then 1 else 0 := rfl
    rw [hhas]
    simp only [insertFreeSpace]
    omega

/-- The pages between two page boundaries. -/
theorem sub32_pages {b c : Nat} (hle : b ≤ c) (hc : c < 4294967296) (hb4 : b % 4096 = 0) (hc4 : c % 4096 = 0) :
    Region.sub32 c b / frameSize * 4096 = c - b := by
  rw [Region.sub32_eq hle hc, frameSize_eq]
  omega

section SharedRegion

variable {ioAPIC localAPIC : Nat}

/-- The two gaps below the APIC pages are free at the start. -/
theorem shared_free_hits (h : ApicLayout ioAPIC localAPIC) (a : Nat) :
    hits (((Region.shared ioAPIC localAPIC).init : VME ν).freeEntries.map FreeEntry.range) a =
      (if (Range.mk 0xF0000000 (ioAPIC - 0xF0000000)).Has a then 1 else 0)
        + if (Range.mk (ioAPIC + 4096) (localAPIC - (ioAPIC + 4096))).Has a then 1 else 0 := by
  obtain ⟨h1, h2, h3, h4, h5⟩ := h
  have hio : u32 (ioAPIC + frameSize) = ioAPIC + 4096 := u32_of_lt (by rw [frameSize_eq]; omega)
  have hsub1 := sub32_pages h3 (by omega) (by decide) h1
  have hsub2 := sub32_pages h4 (by omega) (by omega) h2
  have hgap1 : 0xF0000000 + Region.sub32 ioAPIC 0xF0000000 / frameSize * 4096 ≤ localAPIC + 4096 := by omega
  have hgap2 : ioAPIC + 4096 + Region.sub32 localAPIC (ioAPIC + 4096) / frameSize * 4096 < 4294967296 := by
    omega
  have hnone : ∀ f ∈ (VME.new (u32 (localAPIC + frameSize)) 0xFFFFFFFF : VME ν).freeEntries,
      0xF0000000 ≤ f.start ∧ f.start + f.numPages * 4096 ≤ localAPIC + 4096 := by simp [new]
  -- the first gap
  have hbounds := insertFreeSpace_bounds h5 ⟨Nat.le_refl _, hgap1⟩ hnone
  have hfirst := insertFreeSpace_hits (Nat.lt_of_le_of_lt hgap1 h5)
    (fun f hf => Nat.lt_of_le_of_lt (hnone f hf).2 h5) a
  have hempty : hits ((VME.new (u32 (localAPIC + frameSize)) 0xFFFFFFFF : VME ν).freeEntries.map
      FreeEntry.range) a = 0 := rfl
  rw [hsub1, hempty, Nat.zero_add] at hfirst
  -- the second one, after the entry of the I/O APIC
  simp only [Region.init, hio]
  generalize (VME.new (u32 (localAPIC + frameSize)) 0xFFFFFFFF : VME ν).insertFreeSpace 0xF0000000
    (Region.sub32 ioAPIC 0xF0000000 / frameSize) = v₁ at hfirst hbounds
  have hbelow : ∀ f ∈ ({ v₁ with
      entries := insertEntrySorted (Region.apicEntry ioAPIC) v₁.entries } : VME ν).freeEntries,
      f.start + f.numPages * 4096 < 4294967296 := fun f hf => Nat.lt_of_le_of_lt (hbounds f hf).2 h5
  have hsecond := insertFreeSpace_hits hgap2 hbelow a
  rw [hsecond, hsub2, hfirst]

/-- The entries at the start are the APIC pages. -/
theorem shared_entries_hits (ioAPIC localAPIC a : Nat) :
    hits (((Region.shared ioAPIC localAPIC).init : VME ν).entries.map VMEEntry.range) a =
      (if (Range.mk ioAPIC 4096).Has a then 1 else 0) + if (Range.mk localAPIC 4096).Has a then 1 else 0 := by
  simp only [Region.init, insertFreeSpace, new]
  rw [insertEntrySorted_hits, insertEntrySorted_hits]
  simp only [Region.apicEntry, List.map_nil, hits_nil, Nat.zero_add, Nat.one_mul]

end SharedRegion

/-- At the start: nothing, or the pages of the two APICs and what is between them. -/
theorem init_once (r : Region) (hr : r.Valid) : Once (r.init : VME ν) := by
  intro a
  cases r with
  | user => exact Nat.zero_le 1
  | shared ioAPIC localAPIC =>
    rw [hits_ranges, shared_free_hits hr, shared_entries_hits]
    obtain ⟨h1, h2, h3, h4, h5⟩ := hr
    have hpos : ∀ start len, start ≤ a → a < start + len → (if (Range.mk start len).Has a then 1 else 0) = 1 :=
      fun start len h h' => if_pos ⟨h, h'⟩
    have hneg : ∀ start len, a < start ∨ start + len ≤ a →
        (if (Range.mk start len).Has a then 1 else 0) = 0 := by
      intro start len h
      exact if_neg fun hhas => h.elim (Nat.not_lt_of_le hhas.1) (Nat.not_le_of_lt hhas.2)
    rcases Nat.lt_or_ge a ioAPIC with hlow | hlow
    · rw [hneg ioAPIC _ (by omega), hneg localAPIC _ (by omega), hneg (ioAPIC + 4096) _ (by omega)]
      split <;> omega
    · rw [hneg 0xF0000000 _ (by omega)]
      rcases Nat.lt_or_ge a (ioAPIC + 4096) with hio' | hio'
      · rw [hpos ioAPIC _ hlow hio', hneg localAPIC _ (by omega), hneg (ioAPIC + 4096) _ (by omega)]
      · rw [hneg ioAPIC _ (by omega)]
        rcases Nat.lt_or_ge a localAPIC with hhigh | hhigh
        · rw [hneg localAPIC _ (by omega), hpos (ioAPIC + 4096) _ hio' (by omega)]
        · rw [hneg (ioAPIC + 4096) _ (by omega)]
          split <;> omega

/-- **Runs without a wrapping request** have no address in two ranges. -/
theorem InRun.once (hr : r.Valid) (h : InRun r v) : Once v := by
  apply Runs.Guarded.invariant (I := Once) ?_ ?_ h
  · rintro v rfl
    exact init_once r hr
  · rintro v op v' hrun hI - rfl
    have hb := inRun_inBounds hr hrun
    cases op with
    | add size file fileOffset user => exact hI.addEntry hb size file fileOffset user
    | remove va user => exact hI.removeEntry hb va user

/-- The range test is exact for an entry that does not wrap. -/
theorem covers_iff_has (hend : e.start + e.numPages * 4096 < 4294967296) :
    covers va e = true ↔ e.range.Has va := by
  have hpages : u32 (e.numPages * 4096) = e.numPages * 4096 := u32_of_lt (by omega)
  rw [covers, decide_eq_true_eq, VMEEntry.stop, frameSize_eq, hpages, u32_of_lt hend]
  exact Iff.rfl

/-- **`get` finds each entry at each of its addresses**, in runs without a wrapping request. -/
theorem InRun.get_eq (hr : r.Valid) (h : InRun r v) (he : e ∈ v.entries) (hhas : e.range.Has va) :
    v.get va = some e := by
  have hb := inRun_inBounds hr h
  refine (get_eq_some_iff (fun e he => covers_iff_has ?_) ?_ e).2 ⟨he, hhas⟩
  · exact Nat.lt_of_le_of_lt (hb.entries e he).2 hb.avail_lt
  · have hone := InRun.once hr h va
    rw [hits_ranges, hits, List.countP_map] at hone
    exact Nat.le_trans (Nat.le_add_right _ _) hone

end VME

end BadApple
