/-
  The laws of a `VME`: over every run without a wrapping request its two chains tile `[start, avail)`.

  1. **Specification** — a client sees a multiset of handed-out ranges (`live`): a successful
     `add_entry` adds one, `remove_entry` takes one out.  `Laws` says what the chains of the `VME` owe
     that client: `entries` sorted, `entries` and `free_entries` together an exact tiling of
     `[start, avail)`, the free ranges sorted with gaps between them, `get` the lookup in `live`.
  2. **Invariant** — `Tiled` states the tiling by counting (`Ranges.hits`): every address of
     `[start, avail)` is hit once, no other one at all.  First-fit splitting, bumping, unlinking,
     sorted insertion and merging are then additive, whichever branch the code takes.
  3. **The crux** — `coallesceFrom_hits` and `coallesceFrom_gapped`: on a sorted list of non-empty
     ranges that do not overlap, merging changes no hit and leaves a gap after every range.
  4. **Where it stops** — `0` is both an address and "no address", so all of this needs a region that
     does not start at `0` (`addEntry_start_zero`).
-/
import BadApple.Vme.Model
import BadApple.Lib.Runs

namespace BadApple

open Ranges

variable {ν : Type}

/-- A range in a client's hands: its first address, its pages, and whether user code may remove it. -/
structure Handed where
  start : Nat
  numPages : Nat
  user : Bool
deriving DecidableEq, Repr

/-- The addresses of a handed-out range. -/
def Handed.range (h : Handed) : Range := ⟨h.start, h.numPages * 4096⟩

/-- What a client knows about an entry. -/
def VMEEntry.handed (e : VMEEntry ν) : Handed := ⟨e.start, e.numPages, e.user⟩

/-- A `VME` together with its client's book-keeping. -/
structure Session (ν : Type) where
  vme : VME ν
  live : List Handed

namespace VME

/-! ## Runs of requests and removals -/

/-- A removal by a caller takes the range that contains `va`, if the caller may remove it. -/
def removable (va : Nat) (user : Bool) (h : Handed) : Bool :=
  decide (h.range.Has va) && (!user || h.user)

/-- One call and what the client concludes from it. -/
def sessionStep (s : Session ν) : Op ν → Session ν
  | .add size file fileOffset user =>
      let res := s.vme.addEntry size file fileOffset user
      ⟨res.2, if res.1 = 0 then s.live else ⟨res.1, pagesFor size, user⟩ :: s.live⟩
  | .remove va user => ⟨(s.vme.removeEntry va user).2, s.live.eraseP (removable va user)⟩

/-- No request lets `avail` plus its rounded-up size reach `2 ^ 32`. -/
def RequestFits (s : Session ν) : Op ν → Prop
  | .add size _ _ _ => s.vme.avail + 4096 * pagesFor size < 4294967296
  | .remove _ _ => True

/-- The sessions of a `VME(start, limit)` whose requests all fit. -/
def Sessions (start limit : Nat) : Session ν → Prop :=
  Runs.Guarded (fun s => s = ⟨new start limit, []⟩) (fun s op t => t = sessionStep s op) RequestFits

/-! ## The invariant -/

/-- Free ranges in ascending order, none empty, none touching the next. -/
structure Gapped (fs : List FreeEntry) : Prop where
  apart : fs.Pairwise fun f g => f.start + f.numPages * 4096 < g.start
  nonempty : ∀ f ∈ fs, 0 < f.numPages

/-- The invariant of a session. -/
structure Tiled (start : Nat) (s : Session ν) : Prop where
  start_le : start ≤ s.vme.avail
  avail_lt : s.vme.avail < 4294967296
  hits_eq : ∀ a, hits s.vme.ranges a = if start ≤ a ∧ a < s.vme.avail then 1 else 0
  sorted : s.vme.entries.Pairwise fun e e' => e.start ≤ e'.start
  gapped : Gapped s.vme.freeEntries
  live_perm : s.live.Perm (s.vme.entries.map VMEEntry.handed)

theorem Tiled.tiles {start : Nat} {s : Session ν} (h : Tiled start s) :
    Tiles s.vme.ranges start s.vme.avail := tiles_iff_hits.mpr h.hits_eq

/-- A free range of a tiled `VME` lies in `[start, avail)`. -/
theorem Tiled.free_bounds {start : Nat} {s : Session ν} (h : Tiled start s) {f : FreeEntry}
    (hf : f ∈ s.vme.freeEntries) :
    start ≤ f.start ∧ f.start + f.numPages * 4096 ≤ s.vme.avail := by
  have hpos := h.gapped.nonempty f hf
  have hmem : f.range ∈ s.vme.ranges := by
    rw [ranges]; exact List.mem_append.mpr (Or.inr (List.mem_map_of_mem hf))
  have hlen : 0 < f.range.len := by
    show 0 < f.numPages * 4096
    omega
  exact h.tiles.bounds hmem hlen

/-- The range of an entry that covers some address lies in `[start, avail)`. -/
theorem Tiled.entry_bounds {start : Nat} {s : Session ν} (h : Tiled start s) {e : VMEEntry ν}
    (he : e ∈ s.vme.entries) (hpos : 0 < e.numPages) :
    start ≤ e.start ∧ e.start + e.numPages * 4096 ≤ s.vme.avail := by
  have hmem : e.range ∈ s.vme.ranges := by
    rw [ranges]; exact List.mem_append.mpr (Or.inl (List.mem_map_of_mem he))
  have hlen : 0 < e.range.len := by
    show 0 < e.numPages * 4096
    omega
  exact h.tiles.bounds hmem hlen

/-- In a tiled `VME` the 32-bit range test of `get` and `remove_entry` is exact membership. -/
theorem Tiled.covers_iff {start : Nat} {s : Session ν} (h : Tiled start s) {e : VMEEntry ν}
    (he : e ∈ s.vme.entries) (va : Nat) : covers va e = true ↔ e.range.Has va := by
  have hlt := h.avail_lt
  rcases Nat.eq_zero_or_pos e.numPages with h0 | hpos
  · have hstop : e.stop ≤ e.start := by
      rw [VMEEntry.stop, h0, Nat.zero_mul, u32_eq, u32_eq]; omega
    rw [covers, decide_eq_true_eq]
    constructor
    · rintro ⟨h1, h2⟩; omega
    · intro hh
      exact absurd hh (not_has_of_len_zero (by show e.numPages * 4096 = 0; omega) va)
  · obtain ⟨-, hend⟩ := h.entry_bounds he hpos
    have hmul : u32 (e.numPages * 4096) = e.numPages * 4096 := u32_of_lt (by omega)
    have hstop : e.stop = e.start + e.numPages * 4096 := by
      rw [VMEEntry.stop, frameSize_eq, hmul, u32_of_lt (by omega)]
    rw [covers, decide_eq_true_eq, hstop]
    exact Iff.rfl

/-- At most one entry's range contains a given address. -/
theorem Tiled.countP_le_one {start : Nat} {s : Session ν} (h : Tiled start s) (va : Nat) :
    s.vme.entries.countP (fun e => decide (e.range.Has va)) ≤ 1 := by
  have h1 := h.hits_eq va
  rw [ranges, hits_append, hits, List.countP_map] at h1
  have h2 : s.vme.entries.countP (fun e => decide (e.range.Has va))
      = s.vme.entries.countP ((fun r : Range => decide (r.Has va)) ∘ VMEEntry.range) := rfl
  rw [h2]
  split at h1 <;> omega

/-! ## Merging neighbours -/

/-- Merging starts no range anywhere new. -/
theorem coallesceFrom_start :
    ∀ (rest : List FreeEntry) (curr : FreeEntry), ∀ f ∈ coallesceFrom curr rest,
      ∃ g ∈ curr :: rest, f.start = g.start
  | [], curr, f, hf => ⟨f, hf, rfl⟩
  | next :: rest, curr, f, hf => by
    rw [coallesceFrom] at hf
    split at hf
    · obtain ⟨g, hg, heq⟩ := coallesceFrom_start rest _ f hf
      rcases List.mem_cons.mp hg with rfl | hg
      · exact ⟨curr, by simp, heq⟩
      · exact ⟨g, by simp [hg], heq⟩
    · rcases List.mem_cons.mp hf with rfl | hf
      · exact ⟨f, by simp, rfl⟩
      · obtain ⟨g, hg, heq⟩ := coallesceFrom_start rest next f hf
        exact ⟨g, List.mem_cons_of_mem _ hg, heq⟩

/-- A range that does not wrap ends where it ends. -/
theorem freeStop_eq {f : FreeEntry} (h : f.start + f.numPages * 4096 < 4294967296) :
    f.stop = f.start + f.numPages * 4096 := by
  have hmul : u32 (f.numPages * 4096) = f.numPages * 4096 := u32_of_lt (by omega)
  rw [FreeEntry.stop, frameSize_eq, hmul, u32_of_lt h]

/-- The range two touching neighbours merge to. -/
theorem merge_eq {curr next : FreeEntry}
    (hnext : next.start + next.numPages * 4096 < 4294967296)
    (hcurr : curr.start + curr.numPages * 4096 < 4294967296) (htouch : curr.stop = next.start) :
    u32 (curr.numPages + next.numPages) = curr.numPages + next.numPages ∧
      next.start = curr.start + curr.numPages * 4096 := by
  rw [freeStop_eq hcurr] at htouch
  exact ⟨u32_of_lt (by omega), htouch.symm⟩

/-- **Merging changes no hit.** -/
theorem coallesceFrom_hits (a : Nat) :
    ∀ (rest : List FreeEntry) (curr : FreeEntry),
      (∀ f ∈ curr :: rest, f.start + f.numPages * 4096 < 4294967296) →
      hits ((coallesceFrom curr rest).map FreeEntry.range) a
        = hits ((curr :: rest).map FreeEntry.range) a
  | [], _, _ => rfl
  | next :: rest, curr, h => by
    have hcurr := h curr (by simp)
    have hnext := h next (by simp)
    have hrest : ∀ f ∈ rest, f.start + f.numPages * 4096 < 4294967296 :=
      fun f hf => h f (by simp [hf])
    rw [coallesceFrom]
    split
    · rename_i htouch
      obtain ⟨hpages, hstart⟩ := merge_eq hnext hcurr htouch
      have hmerged : curr.start + (curr.numPages + next.numPages) * 4096 < 4294967296 := by
        clear hpages; lia
      have ih := coallesceFrom_hits a rest ⟨curr.start, curr.numPages + next.numPages⟩
        (List.forall_mem_cons.mpr ⟨hmerged, hrest⟩)
      rw [hpages, ih]
      simp only [List.map_cons, hits_cons, FreeEntry.range, frameSize_eq, hstart, Nat.add_mul]
      rw [hits_split]
      omega
    · simp only [List.map_cons, hits_cons]
      have ih := coallesceFrom_hits a rest next (List.forall_mem_cons.mpr ⟨hnext, hrest⟩)
      simp only [List.map_cons, hits_cons] at ih
      rw [ih]

/-- **Merging leaves a gap after every range** of a sorted list of non-empty ranges without
    overlap. -/
theorem coallesceFrom_gapped :
    ∀ (rest : List FreeEntry) (curr : FreeEntry),
      (∀ f ∈ curr :: rest, f.start + f.numPages * 4096 < 4294967296 ∧ 0 < f.numPages) →
      (curr :: rest).Pairwise (fun f g => f.start + f.numPages * 4096 ≤ g.start) →
      Gapped (coallesceFrom curr rest)
  | [], curr, h, _ => by
    refine ⟨List.pairwise_singleton _ _, fun f hf => ?_⟩
    exact (h f hf).2
  | next :: rest, curr, h, hp => by
    have hcurr := h curr (by simp)
    have hnext := h next (by simp)
    have hrest : ∀ f ∈ rest, f.start + f.numPages * 4096 < 4294967296 ∧ 0 < f.numPages :=
      fun f hf => h f (by simp [hf])
    obtain ⟨hp1, hp2⟩ := List.pairwise_cons.mp hp
    obtain ⟨hp3, hp4⟩ := List.pairwise_cons.mp hp2
    rw [coallesceFrom]
    split
    · rename_i htouch
      obtain ⟨hpages, hstart⟩ := merge_eq hnext.1 hcurr.1 htouch
      rw [hpages]
      refine coallesceFrom_gapped rest _ (List.forall_mem_cons.mpr ⟨⟨?_, ?_⟩, hrest⟩)
        (List.pairwise_cons.mpr ⟨fun g hg => ?_, hp4⟩)
      · show curr.start + (curr.numPages + next.numPages) * 4096 < 4294967296
        omega
      · show 0 < curr.numPages + next.numPages
        omega
      · have hg3 := hp3 g hg
        show curr.start + (curr.numPages + next.numPages) * 4096 ≤ g.start
        omega
    · rename_i hapart
      have ih := coallesceFrom_gapped rest next (List.forall_mem_cons.mpr ⟨hnext, hrest⟩) hp2
      rw [freeStop_eq hcurr.1] at hapart
      refine ⟨List.pairwise_cons.mpr ⟨fun f hf => ?_, ih.apart⟩,
        List.forall_mem_cons.mpr ⟨hcurr.2, ih.nonempty⟩⟩
      -- whatever is left of the rest starts at or after `next`, which `curr` does not touch
      obtain ⟨g, hg, heq⟩ := coallesceFrom_start rest next f hf
      have hcn := hp1 next (by simp)
      rcases List.mem_cons.mp hg with rfl | hg
      · omega
      · have hng := hp3 g hg
        omega

/-! ## Giving a range back -/

/-- Sorted insertion of a range that overlaps none of the gapped ranges. -/
theorem insertFreeSorted_pairwise {f : FreeEntry} (hf : 0 < f.numPages) :
    ∀ fs : List FreeEntry, Gapped fs →
      (∀ g ∈ fs, f.start + f.numPages * 4096 ≤ g.start ∨ g.start + g.numPages * 4096 ≤ f.start) →
      (insertFreeSorted f fs).Pairwise fun g h => g.start + g.numPages * 4096 ≤ h.start
  | [], _, _ => List.pairwise_singleton _ _
  | curr :: rest, hg, hdis => by
    obtain ⟨hap, hrest⟩ := List.pairwise_cons.mp hg.apart
    have hposc := hg.nonempty curr (by simp)
    have hd := hdis curr (by simp)
    rw [insertFreeSorted]
    split
    · rename_i hlt
      have htail : Gapped rest := ⟨hrest, fun g hgm => hg.nonempty g (by simp [hgm])⟩
      have ih := insertFreeSorted_pairwise hf rest htail fun g hgm => hdis g (by simp [hgm])
      refine List.pairwise_cons.mpr ⟨fun g hgm => ?_, ih⟩
      rcases List.mem_cons.mp ((insertFreeSorted_perm f rest).mem_iff.mp hgm) with rfl | hgm'
      · omega
      · exact Nat.le_of_lt (hap g hgm')
    · rename_i hge
      have hall : (curr :: rest).Pairwise
          fun g h => g.start + g.numPages * 4096 ≤ h.start :=
        hg.apart.imp fun hlt => Nat.le_of_lt hlt
      refine List.pairwise_cons.mpr ⟨fun g hgm => ?_, hall⟩
      rcases List.mem_cons.mp hgm with rfl | hgm'
      · omega
      · have := hap g hgm'
        omega

/-- The addresses of a range that is given back are hit once more, and no others. -/
theorem insertFreeSpace_hits {start numPages : Nat} {v : VME ν} (hend : start + numPages * 4096 < 4294967296)
    (hlt : ∀ f ∈ v.freeEntries, f.start + f.numPages * 4096 < 4294967296) (a : Nat) :
    hits ((v.insertFreeSpace start numPages).freeEntries.map FreeEntry.range) a
      = hits (v.freeEntries.map FreeEntry.range) a
        + (if (Range.mk start (numPages * 4096)).Has a then 1 else 0) := by
  have hperm := insertFreeSorted_perm ⟨start, numPages⟩ v.freeEntries
  have hall : ∀ f ∈ insertFreeSorted ⟨start, numPages⟩ v.freeEntries,
      f.start + f.numPages * 4096 < 4294967296 := by
    intro f hf
    rcases List.mem_cons.mp (hperm.mem_iff.mp hf) with rfl | hf'
    · exact hend
    · exact hlt f hf'
  have hhits : hits ((insertFreeSorted ⟨start, numPages⟩ v.freeEntries).map FreeEntry.range) a
      = hits (v.freeEntries.map FreeEntry.range) a
        + (if (Range.mk start (numPages * 4096)).Has a then 1 else 0) := by
    rw [hits_perm (hperm.map FreeEntry.range), List.map_cons, hits_cons]
    rfl
  simp only [insertFreeSpace]
  cases hl : insertFreeSorted ⟨start, numPages⟩ v.freeEntries with
  | nil =>
    rw [hl] at hperm
    exact absurd hperm.length_eq (by simp)
  | cons curr rest =>
    rw [hl] at hall hhits
    rw [coallescing, coallesceFrom_hits a rest curr hall]
    exact hhits

/-- **What `insert_free_space` does** to gapped ranges, given a new range that overlaps none of them:
    they stay gapped and only the addresses of the new range are hit once more. -/
theorem insertFreeSpace_spec {start numPages : Nat} {v : VME ν} (hpos : 0 < numPages)
    (hend : start + numPages * 4096 < 4294967296) (hg : Gapped v.freeEntries)
    (hlt : ∀ f ∈ v.freeEntries, f.start + f.numPages * 4096 < 4294967296)
    (hdis : ∀ f ∈ v.freeEntries, start + numPages * 4096 ≤ f.start ∨
      f.start + f.numPages * 4096 ≤ start) :
    Gapped (v.insertFreeSpace start numPages).freeEntries ∧
      ∀ a, hits ((v.insertFreeSpace start numPages).freeEntries.map FreeEntry.range) a
        = hits (v.freeEntries.map FreeEntry.range) a
          + (if (Range.mk start (numPages * 4096)).Has a then 1 else 0) := by
  refine ⟨?_, insertFreeSpace_hits hend hlt⟩
  have hperm := insertFreeSorted_perm ⟨start, numPages⟩ v.freeEntries
  have hpair := insertFreeSorted_pairwise (f := ⟨start, numPages⟩) hpos v.freeEntries hg hdis
  have hall : ∀ f ∈ insertFreeSorted ⟨start, numPages⟩ v.freeEntries,
      f.start + f.numPages * 4096 < 4294967296 ∧ 0 < f.numPages := by
    intro f hf
    rcases List.mem_cons.mp (hperm.mem_iff.mp hf) with rfl | hf'
    · exact ⟨hend, hpos⟩
    · exact ⟨hlt f hf', hg.nonempty f hf'⟩
  simp only [insertFreeSpace]
  cases hl : insertFreeSorted ⟨start, numPages⟩ v.freeEntries with
  | nil =>
    rw [hl] at hperm
    exact absurd hperm.length_eq (by simp)
  | cons curr rest =>
    rw [hl] at hpair hall
    exact coallesceFrom_gapped rest curr hall hpair

/-! ## Taking a range -/

/-- What first fit leaves of a range is gapped from whatever the range was gapped from. -/
theorem shrink_mem {required : Nat} {f g : FreeEntry} (hle : required ≤ f.numPages)
    (hend : f.start + f.numPages * 4096 < 4294967296) (hg : g ∈ shrink required f) :
    g.start = f.start + required * 4096 ∧ g.start + g.numPages * 4096
      = f.start + f.numPages * 4096 ∧ 0 < g.numPages := by
  rw [shrink] at hg
  split at hg
  · simp at hg
  · rename_i hne
    rw [List.mem_singleton] at hg
    have hmul : u32 (required * frameSize) = required * 4096 := by
      rw [frameSize_eq]; exact u32_of_lt (by omega)
    rw [hmul, u32_of_lt (by lia)] at hg
    rw [hg]
    refine ⟨rfl, ?_, ?_⟩
    · show f.start + required * 4096 + (f.numPages - required) * 4096 = _
      rw [Nat.add_assoc, ← Nat.add_mul, Nat.add_sub_cancel' hle]
    · show 0 < f.numPages - required
      omega

/-- A free range is hit as often as the pages taken from it and what is left of it. -/
theorem shrink_hits {required : Nat} {f : FreeEntry} (hle : required ≤ f.numPages)
    (hend : f.start + f.numPages * 4096 < 4294967296) (a : Nat) :
    (if f.range.Has a then 1 else 0)
      = (if (Range.mk f.start (required * 4096)).Has a then 1 else 0)
        + hits ((shrink required f).map FreeEntry.range) a := by
  have hlen : f.numPages * 4096 = required * 4096 + (f.numPages - required) * 4096 := by
    rw [← Nat.add_mul, Nat.add_sub_cancel' hle]
  have hsplit := hits_split f.start (required * 4096) ((f.numPages - required) * 4096) a
  rw [FreeEntry.range, frameSize_eq, hlen, hsplit]
  congr 1
  by_cases hz : f.numPages - required = 0
  · rw [shrink, if_pos hz, hz, Nat.zero_mul, List.map_nil, hits_nil,
      if_neg (not_has_of_len_zero rfl a)]
  · have hmul : u32 (required * frameSize) = required * 4096 := by
      rw [frameSize_eq]; exact u32_of_lt (by omega)
    rw [shrink, if_neg hz, hmul, u32_of_lt (by lia), List.map_cons, List.map_nil, hits_cons,
      hits_nil, Nat.zero_add]
    rfl

/-- The range handed out and the ranges left are together hit as often as the ranges before. -/
theorem takeFree_hits {required va : Nat} {fs fs' : List FreeEntry}
    (hlt : ∀ f ∈ fs, f.start + f.numPages * 4096 < 4294967296)
    (h : takeFree required fs = some (va, fs')) (a : Nat) :
    hits (fs.map FreeEntry.range) a
      = (if (Range.mk va (required * 4096)).Has a then 1 else 0)
        + hits (fs'.map FreeEntry.range) a := by
  obtain ⟨l₁, f, l₂, rfl, rfl, rfl, hle⟩ := takeFree_some h
  have hs := shrink_hits hle (hlt f (by simp)) a
  simp only [List.map_append, List.map_cons, hits_append, hits_cons] at hs ⊢
  omega

/-- **What a successful first fit does** to gapped ranges: they stay gapped, and the range handed out
    and the ranges left are together hit as often as the ranges before. -/
theorem takeFree_spec {required va : Nat} {fs fs' : List FreeEntry} (hg : Gapped fs)
    (hlt : ∀ f ∈ fs, f.start + f.numPages * 4096 < 4294967296)
    (h : takeFree required fs = some (va, fs')) :
    Gapped fs' ∧ ∀ a, hits (fs.map FreeEntry.range) a
      = (if (Range.mk va (required * 4096)).Has a then 1 else 0)
        + hits (fs'.map FreeEntry.range) a := by
  refine ⟨?_, takeFree_hits hlt h⟩
  obtain ⟨l₁, f, l₂, rfl, rfl, rfl, hle⟩ := takeFree_some h
  have hend := hlt f (by simp)
  obtain ⟨hp₁, hp₂, hp₁₂⟩ := List.pairwise_append.mp hg.apart
  obtain ⟨hpf, hp₂'⟩ := List.pairwise_cons.mp hp₂
  have hfree := fun g => shrink_mem (g := g) hle hend
  refine ⟨?_, fun g hgm => ?_⟩
  · refine List.pairwise_append.mpr ⟨hp₁, List.pairwise_append.mpr ⟨?_, hp₂', ?_⟩, ?_⟩
    · rw [shrink]; split
      · exact List.Pairwise.nil
      · exact List.pairwise_singleton _ _
    · intro g hgm k hk
      have h1 := hfree g hgm
      have h2 := hpf k hk
      omega
    · intro g hgm k hk
      have hgf := hp₁₂ g hgm f (by simp)
      rcases List.mem_append.mp hk with hk | hk
      · have h1 := hfree k hk
        omega
      · exact hp₁₂ g hgm k (by simp [hk])
  · simp only [List.mem_append] at hgm
    rcases hgm with hgm | hgm | hgm
    · exact hg.nonempty g (by simp [hgm])
    · exact (hfree g hgm).2.2
    · exact hg.nonempty g (by simp [hgm])

/-! ## The two chains as one list of ranges -/

theorem hits_ranges (v : VME ν) (a : Nat) : hits v.ranges a
    = hits (v.entries.map VMEEntry.range) a + hits (v.freeEntries.map FreeEntry.range) a := by
  rw [ranges, hits_append]

/-- Inserting an entry adds the hits of its range. -/
theorem insertEntrySorted_hits (e : VMEEntry ν) (es : List (VMEEntry ν)) (a : Nat) :
    hits ((insertEntrySorted e es).map VMEEntry.range) a
      = hits (es.map VMEEntry.range) a
        + (if (Range.mk e.start (e.numPages * 4096)).Has a then 1 else 0) := by
  rw [hits_perm ((insertEntrySorted_perm e es).map VMEEntry.range), List.map_cons, hits_cons]
  rfl

/-- Inserting an entry hands its range to the client. -/
theorem insertEntrySorted_handed (e : VMEEntry ν) (es : List (VMEEntry ν)) :
    (e.handed :: es.map VMEEntry.handed).Perm
      ((insertEntrySorted e es).map VMEEntry.handed) :=
  ((insertEntrySorted_perm e es).map VMEEntry.handed).symm

/-- Sorted insertion keeps a sorted chain sorted. -/
theorem insertEntrySorted_sorted (e : VMEEntry ν) :
    ∀ es : List (VMEEntry ν), (es.Pairwise fun x y => x.start ≤ y.start) →
      (insertEntrySorted e es).Pairwise fun x y => x.start ≤ y.start
  | [], _ => List.pairwise_singleton _ _
  | curr :: rest, h => by
    obtain ⟨h1, h2⟩ := List.pairwise_cons.mp h
    rw [insertEntrySorted]
    split
    · refine List.pairwise_cons.mpr ⟨fun x hx => ?_, insertEntrySorted_sorted e rest h2⟩
      rcases List.mem_cons.mp ((insertEntrySorted_perm e rest).mem_iff.mp hx) with rfl | hx'
      · omega
      · exact h1 x hx'
    · refine List.pairwise_cons.mpr ⟨fun x hx => ?_, h⟩
      rcases List.mem_cons.mp hx with rfl | hx'
      · omega
      · have := h1 x hx'
        omega

/-! ## One call keeps the invariant -/

variable {start : Nat} {s : Session ν}

theorem Tiled.free_pos (h : Tiled start s) (h0 : 0 < start) :
    ∀ f ∈ s.vme.freeEntries, 0 < f.start := fun f hf => by
  have := (h.free_bounds hf).1
  omega

theorem Tiled.free_lt (h : Tiled start s) :
    ∀ f ∈ s.vme.freeEntries, f.start + f.numPages * 4096 < 4294967296 := fun _ hf =>
  Nat.lt_of_le_of_lt (h.free_bounds hf).2 h.avail_lt

/-- A request that fits is rounded up and added without wrapping. -/
theorem fits_sums (h : Tiled start s) {size : Nat}
    (hfit : s.vme.avail + 4096 * pagesFor size < 4294967296) (h0 : 0 < start) :
    requiredPages size = pagesFor size ∧
      u32 (s.vme.avail + u32 (frameSize * requiredPages size))
        = s.vme.avail + pagesFor size * 4096 := by
  have hstart := h.start_le
  have hreq : requiredPages size = pagesFor size := by
    rw [pagesFor] at hfit
    rw [requiredPages, pagesFor, frameSize_eq, u32_of_lt (by omega)]
    rfl
  refine ⟨hreq, ?_⟩
  rw [hreq, frameSize_eq, u32_of_lt (by omega : 4096 * pagesFor size < 4294967296),
    u32_of_lt hfit, Nat.mul_comm]

/-- **A request keeps the invariant.** -/
theorem add_tiled (h0 : 0 < start) (h : Tiled start s) {size : Nat}
    (hfit : s.vme.avail + 4096 * pagesFor size < 4294967296) (file : Option ν)
    (fileOffset : Nat) (user : Bool) :
    Tiled start (sessionStep s (.add size file fileOffset user)) := by
  obtain ⟨hreq, havail⟩ := fits_sums h hfit h0
  have hpos : 0 < s.vme.avail := Nat.lt_of_lt_of_le h0 h.start_le
  have hstart := h.start_le
  rw [sessionStep]
  rcases addEntry_cases s.vme size file fileOffset user (h.free_pos h0) hpos with
    ⟨va, fs, htake, hne, heq⟩ | ⟨-, -, hne, heq⟩ | ⟨-, -, heq⟩
  · -- the pages move from a free range to the new entry: no hit changes
    obtain ⟨hg, hh⟩ := takeFree_spec h.gapped h.free_lt htake
    rw [heq]
    simp only [if_neg hne]
    refine ⟨hstart, h.avail_lt, fun a => ?_, insertEntrySorted_sorted _ _ h.sorted, hg, ?_⟩
    · have hold := h.hits_eq a
      rw [hits_ranges] at hold ⊢
      rw [insertEntrySorted_hits, ← hold, hh a]
      simp only
      omega
    · rw [← hreq]
      exact (h.live_perm.cons _).trans (insertEntrySorted_handed
        ⟨va, requiredPages size, size, file, fileOffset, user⟩ s.vme.entries)
  · -- the pages are those between the old and the new `avail`
    rw [heq, havail]
    simp only [if_neg hne]
    refine ⟨?_, ?_, fun a => ?_, insertEntrySorted_sorted _ _ h.sorted, h.gapped, ?_⟩
    · show start ≤ s.vme.avail + pagesFor size * 4096
      omega
    · show s.vme.avail + pagesFor size * 4096 < 4294967296
      omega
    · have hold := h.hits_eq a
      rw [hits_ranges] at hold ⊢
      have hext := hits_extend hstart (pagesFor size * 4096) a
      rw [insertEntrySorted_hits, hreq]
      simp only at hext ⊢
      omega
    · rw [← hreq]
      exact (h.live_perm.cons _).trans (insertEntrySorted_handed
        ⟨s.vme.avail, requiredPages size, size, file, fileOffset, user⟩ s.vme.entries)
  · rw [heq]
    simpa only [if_true] using h

/-- Erasing the only matching element of a permuted list. -/
theorem eraseP_perm {α : Type*} {p : α → Bool} {l l' : List α} {a : α} (hp : p a = true)
    (hperm : l.Perm (a :: l')) (honly : l'.countP p = 0) : (l.eraseP p).Perm l' := by
  have ha : a ∈ l := hperm.mem_iff.mpr (by simp)
  obtain ⟨b, l₁, l₂, -, hb, rfl, herase⟩ := List.exists_of_eraseP ha hp
  have hb' : b ∈ a :: l' := hperm.mem_iff.mp (by simp)
  have hba : b = a := by
    rcases List.mem_cons.mp hb' with rfl | hb'
    · rfl
    · exact absurd hb (by simpa using List.countP_eq_zero.mp honly b hb')
  rw [herase]
  subst hba
  exact (List.perm_cons b).mp (List.perm_middle.symm.trans hperm)

/-- **A removal keeps the invariant.** -/
theorem remove_tiled (h : Tiled start s) (va : Nat) (user : Bool) :
    Tiled start (sessionStep s (.remove va user)) := by
  have hone := h.countP_le_one va
  rw [sessionStep, removeEntry]
  rcases hun : unlinkEntry va user s.vme.entries with _ | ⟨e, rest⟩
  · -- nothing the caller may remove contains `va`
    have hnone : s.live.eraseP (removable va user) = s.live := by
      refine List.eraseP_of_forall_not fun x hx hrem => ?_
      obtain ⟨e, he, rfl⟩ := List.mem_map.mp (h.live_perm.mem_iff.mp hx)
      rw [removable, Bool.and_eq_true, decide_eq_true_eq] at hrem
      obtain ⟨hu, heu⟩ := unlinkEntry_none hun e he ((h.covers_iff he va).mpr hrem.1)
      have h2 := hrem.2
      rw [hu] at h2
      simp only [VMEEntry.handed, heu] at h2
      exact absurd h2 (by decide)
    simp only [hnone]
    exact h
  · obtain ⟨⟨l₁, l₂, hes, hrest⟩, hcov, huser⟩ := unlinkEntry_some hun
    have he : e ∈ s.vme.entries := by rw [hes]; simp
    have hhas := (h.covers_iff he va).mp hcov
    have hpos : 0 < e.numPages := by
      have hlen : va < e.start + e.numPages * 4096 := hhas.2
      have hle : e.start ≤ va := hhas.1
      omega
    have hbounds := h.entry_bounds he hpos
    have hend : e.start + e.numPages * 4096 < 4294967296 :=
      Nat.lt_of_le_of_lt hbounds.2 h.avail_lt
    have hperm : s.vme.entries.Perm (e :: rest) := by
      rw [hes, hrest]; exact List.perm_middle
    have hhits : ∀ a, hits (s.vme.entries.map VMEEntry.range) a
        = hits (rest.map VMEEntry.range) a
          + (if (Range.mk e.start (e.numPages * 4096)).Has a then 1 else 0) := by
      intro a
      rw [hits_perm (hperm.map VMEEntry.range), List.map_cons, hits_cons]
      rfl
    -- the removed range overlaps no free range, since no address is hit twice
    have hdis : ∀ f ∈ s.vme.freeEntries, e.start + e.numPages * 4096 ≤ f.start ∨
        f.start + f.numPages * 4096 ≤ e.start := by
      intro f hf
      have hfpos := h.gapped.nonempty f hf
      by_contra hover
      have hboth : ∃ a, (Range.mk e.start (e.numPages * 4096)).Has a ∧ f.range.Has a := by
        refine ⟨max e.start f.start, ⟨?_, ?_⟩, ?_, ?_⟩
        · exact Nat.le_max_left _ _
        · show max e.start f.start < e.start + e.numPages * 4096
          omega
        · exact Nat.le_max_right _ _
        · show max e.start f.start < f.start + f.numPages * 4096
          omega
      obtain ⟨a, hea, hfa⟩ := hboth
      have htwo := h.hits_eq a
      have hfree : 0 < hits (s.vme.freeEntries.map FreeEntry.range) a :=
        hits_pos_iff.mpr ⟨f.range, List.mem_map_of_mem hf, hfa⟩
      rw [hits_ranges, hhits a, if_pos hea] at htwo
      split at htwo <;> omega
    obtain ⟨hg, hh⟩ := insertFreeSpace_spec (v := { s.vme with entries := rest }) hpos hend
      h.gapped h.free_lt hdis
    refine ⟨h.start_le, h.avail_lt, fun a => ?_, ?_, hg, ?_⟩
    · have hold := h.hits_eq a
      have hnew := hh a
      have hent := hhits a
      show hits (insertFreeSpace e.start e.numPages { s.vme with entries := rest }).ranges a
        = if start ≤ a ∧ a < s.vme.avail then 1 else 0
      rw [← hold, hits_ranges, hits_ranges, hnew, hent]
      simp only [insertFreeSpace]
      omega
    · have hsub : rest.Sublist s.vme.entries := by
        rw [hes, hrest]; exact List.Sublist.append_left (List.sublist_cons_self e l₂) l₁
      exact h.sorted.sublist hsub
    · have hmatch : removable va user e.handed = true := by
        rw [removable, Bool.and_eq_true]
        refine ⟨decide_eq_true hhas, ?_⟩
        cases user with
        | false => rfl
        | true => simpa [VMEEntry.handed] using huser rfl
      refine eraseP_perm hmatch (h.live_perm.trans (hperm.map VMEEntry.handed)) ?_
      rw [List.countP_map, List.countP_eq_zero]
      intro x hx hrem
      rw [Function.comp, removable, Bool.and_eq_true] at hrem
      rw [hperm.countP_eq, List.countP_cons, if_pos (decide_eq_true hhas)] at hone
      have hx0 : 0 < rest.countP (fun e => decide (e.range.Has va)) :=
        List.countP_pos_iff.mpr ⟨x, hx, hrem.1⟩
      omega

/-- The invariant holds in every session. -/
theorem sessions_tiled {limit : Nat} (h0 : 0 < start) (hlt : start < 4294967296)
    (hs : Sessions start limit s) : Tiled start s := by
  refine hs.invariant ?_ ?_
  · rintro s rfl
    refine ⟨Nat.le_refl _, hlt, fun a => ?_, List.Pairwise.nil, ⟨List.Pairwise.nil, by simp [new]⟩,
      List.Perm.refl _⟩
    show hits [] a = if start ≤ a ∧ a < start then 1 else 0
    rw [hits_nil, if_neg (by omega)]
  · intro s op t _ hI hok hstep
    rw [hstep]
    cases op with
    | add size file fileOffset user => exact add_tiled h0 hI hok file fileOffset user
    | remove va user => exact remove_tiled hI va user

/-! ## The laws -/

/-- What the two chains owe the client, in the state of a session and over its next call. -/
structure Laws (start : Nat) (s : Session ν) : Prop where
  /-- The entries are sorted by start. -/
  sorted : s.vme.entries.Pairwise fun e e' => e.start ≤ e'.start
  /-- Entries and free ranges are pairwise disjoint and together cover `[start, avail)`. -/
  tiles : Tiles s.vme.ranges start s.vme.avail
  /-- The free ranges are sorted, no two touch, none is empty. -/
  gapped : Gapped s.vme.freeEntries
  /-- `get` returns an entry exactly when it is recorded and contains the address. -/
  get_eq_some_iff : ∀ va e, s.vme.get va = some e ↔ e ∈ s.vme.entries ∧ e.range.Has va
  /-- `get` returns null exactly when no range in the client's hands contains the address. -/
  get_eq_none_iff : ∀ va, s.vme.get va = none ↔ ∀ h ∈ s.live, ¬ h.range.Has va
  /-- User code removes only entries marked `user`. -/
  removed_user : ∀ va e v', s.vme.removeEntry va true = (some e, v') → e.user = true
  /-- Every entry not marked `user` survives a removal by user code. -/
  kernel_kept : ∀ va, ∀ e ∈ s.vme.entries, e.user = false →
    e ∈ (s.vme.removeEntry va true).2.entries
  /-- A refused request changes nothing. -/
  refused : ∀ size file fileOffset user,
    (s.vme.addEntry size file fileOffset user).1 = 0 →
      (s.vme.addEntry size file fileOffset user).2 = s.vme
  /-- The pages of a removed entry can be handed out again at once. -/
  reuse : ∀ va user e v', s.vme.removeEntry va user = (some e, v') →
    ∀ size, size ≤ 4096 * e.numPages → ∀ file fileOffset user',
      (v'.addEntry size file fileOffset user').1 ≠ 0

/-- Two members of a list that satisfy a predicate satisfied at most once are equal. -/
theorem eq_of_countP_le_one {α : Type*} {p : α → Bool} :
    ∀ {l : List α}, l.countP p ≤ 1 → ∀ {x y : α}, x ∈ l → y ∈ l → p x = true → p y = true → x = y
  | [], _, _, _, hx, _, _, _ => by simp at hx
  | z :: l, h, x, y, hx, hy, hpx, hpy => by
    rw [List.countP_cons] at h
    rcases List.mem_cons.mp hx with rfl | hx' <;> rcases List.mem_cons.mp hy with rfl | hy'
    · rfl
    · have := List.countP_pos_iff.mpr ⟨y, hy', hpy⟩
      rw [if_pos hpx] at h; omega
    · have := List.countP_pos_iff.mpr ⟨x, hx', hpx⟩
      rw [if_pos hpy] at h; omega
    · exact eq_of_countP_le_one (by omega) hx' hy' hpx hpy

/-- **`get`**, when the range test is exact and at most one entry's range contains the address. -/
theorem get_eq_some_iff {v : VME ν} {va : Nat} (hcov : ∀ e ∈ v.entries, covers va e = true ↔ e.range.Has va)
    (hone : v.entries.countP (fun e => decide (e.range.Has va)) ≤ 1) (e : VMEEntry ν) :
    v.get va = some e ↔ e ∈ v.entries ∧ e.range.Has va := by
  constructor
  · intro hget
    have he := List.mem_of_find?_eq_some hget
    exact ⟨he, (hcov e he).mp (List.find?_some hget)⟩
  · rintro ⟨he, hhas⟩
    rcases hget : v.get va with _ | e'
    · exact absurd ((hcov e he).mpr hhas) (List.find?_eq_none.mp hget e he)
    · have he' := List.mem_of_find?_eq_some hget
      have hhas' := (hcov e' he').mp (List.find?_some hget)
      rw [eq_of_countP_le_one hone he' he (decide_eq_true hhas') (decide_eq_true hhas)]

theorem Tiled.get_eq_some_iff (h : Tiled start s) (va : Nat) (e : VMEEntry ν) :
    s.vme.get va = some e ↔ e ∈ s.vme.entries ∧ e.range.Has va :=
  VME.get_eq_some_iff (fun _ he => h.covers_iff he va) (h.countP_le_one va) e

theorem Tiled.get_eq_none_iff (h : Tiled start s) (va : Nat) :
    s.vme.get va = none ↔ ∀ x ∈ s.live, ¬ x.range.Has va := by
  constructor
  · intro hget x hx hhas
    obtain ⟨e, he, rfl⟩ := List.mem_map.mp (h.live_perm.mem_iff.mp hx)
    exact List.find?_eq_none.mp hget e he ((h.covers_iff he va).mpr hhas)
  · intro hall
    refine List.find?_eq_none.mpr fun e he hcov => ?_
    have hlive : e.handed ∈ s.live := h.live_perm.mem_iff.mpr (List.mem_map_of_mem he)
    exact hall _ hlive ((h.covers_iff he va).mp hcov)

theorem kernel_kept (v : VME ν) (va : Nat) {e : VMEEntry ν} (he : e ∈ v.entries)
    (hu : e.user = false) : e ∈ (v.removeEntry va true).2.entries := by
  rw [removeEntry]
  rcases hun : unlinkEntry va true v.entries with _ | ⟨x, rest⟩
  · exact he
  · obtain ⟨⟨l₁, l₂, h1, h2⟩, -, hxu⟩ := unlinkEntry_some hun
    show e ∈ rest
    rw [h1] at he
    rw [h2]
    rcases List.mem_append.mp he with hl | hl
    · exact List.mem_append.mpr (Or.inl hl)
    · rcases List.mem_cons.mp hl with rfl | hl
      · rw [hxu rfl] at hu
        exact absurd hu (by decide)
      · exact List.mem_append.mpr (Or.inr hl)

/-- A request is refused only by the guard, which touches nothing. -/
theorem Tiled.refused (h : Tiled start s) (h0 : 0 < start) {size : Nat} {file : Option ν}
    {fileOffset : Nat} {user : Bool} (hzero : (s.vme.addEntry size file fileOffset user).1 = 0) :
    (s.vme.addEntry size file fileOffset user).2 = s.vme := by
  have hpos : 0 < s.vme.avail := Nat.lt_of_lt_of_le h0 h.start_le
  rcases addEntry_cases s.vme size file fileOffset user (h.free_pos h0) hpos with
    ⟨va, fs, -, hne, heq⟩ | ⟨-, -, hne, heq⟩ | ⟨-, -, heq⟩
  · rw [heq] at hzero
    exact absurd hzero hne
  · rw [heq] at hzero
    exact absurd hzero hne
  · rw [heq]

/-- Merging loses no room: a free range with enough pages is kept, alone or inside a longer one. -/
theorem coallesceFrom_room {numPages : Nat} :
    ∀ (rest : List FreeEntry) (curr : FreeEntry),
      (∀ f ∈ curr :: rest, f.start + f.numPages * 4096 < 4294967296) →
      (∃ f ∈ curr :: rest, numPages ≤ f.numPages) →
      ∃ f ∈ coallesceFrom curr rest, numPages ≤ f.numPages
  | [], _, _, hroom => hroom
  | next :: rest, curr, h, hroom => by
    have hcurr := h curr (by simp)
    have hnext := h next (by simp)
    have hrest : ∀ f ∈ rest, f.start + f.numPages * 4096 < 4294967296 :=
      fun f hf => h f (by simp [hf])
    rw [coallesceFrom]
    split
    · rename_i htouch
      obtain ⟨hpages, hstart⟩ := merge_eq hnext hcurr htouch
      have hmerged : curr.start + (curr.numPages + next.numPages) * 4096 < 4294967296 := by
        clear hpages; lia
      rw [hpages]
      refine coallesceFrom_room rest ⟨curr.start, curr.numPages + next.numPages⟩
        (List.forall_mem_cons.mpr ⟨hmerged, hrest⟩) ?_
      obtain ⟨f, hf, hle⟩ := hroom
      rcases List.mem_cons.mp hf with rfl | hf
      · exact ⟨_, List.mem_cons_self, Nat.le_trans hle (Nat.le_add_right _ _)⟩
      · rcases List.mem_cons.mp hf with rfl | hf
        · exact ⟨_, List.mem_cons_self, Nat.le_trans hle (Nat.le_add_left _ _)⟩
        · exact ⟨f, by simp [hf], hle⟩
    · obtain ⟨f, hf, hle⟩ := hroom
      rcases List.mem_cons.mp hf with rfl | hf
      · exact ⟨f, by simp, hle⟩
      · obtain ⟨g, hg, hle'⟩ := coallesceFrom_room rest next
          (List.forall_mem_cons.mpr ⟨hnext, hrest⟩) ⟨f, hf, hle⟩
        exact ⟨g, List.mem_cons_of_mem _ hg, hle'⟩

/-- **A removed range is available again**: a request that fits into its pages succeeds. -/
theorem Tiled.reuse (h : Tiled start s) (h0 : 0 < start) {va : Nat} {user : Bool}
    {e : VMEEntry ν} {v' : VME ν} (hrem : s.vme.removeEntry va user = (some e, v')) {size : Nat}
    (hsize : size ≤ 4096 * e.numPages) (file : Option ν) (fileOffset : Nat) (user' : Bool) :
    (v'.addEntry size file fileOffset user').1 ≠ 0 := by
  have hafter := remove_tiled h va user
  rw [sessionStep] at hafter
  simp only [hrem] at hafter
  rw [removeEntry] at hrem
  rcases hun : unlinkEntry va user s.vme.entries with _ | ⟨e', rest⟩
  · rw [hun] at hrem; simp at hrem
  · rw [hun] at hrem
    simp only [Prod.mk.injEq, Option.some.injEq] at hrem
    obtain ⟨rfl, rfl⟩ := hrem
    obtain ⟨⟨l₁, l₂, hes, -⟩, hcov, -⟩ := unlinkEntry_some hun
    have he : e' ∈ s.vme.entries := by rw [hes]; simp
    have hhas := (h.covers_iff he va).mp hcov
    have hpos : 0 < e'.numPages := by
      have hlen : va < e'.start + e'.numPages * 4096 := hhas.2
      have hle : e'.start ≤ va := hhas.1
      omega
    have hend := h.entry_bounds he hpos
    have hlt := h.avail_lt
    -- the merged free list still has a range at least as long as the removed one
    have hroom : ∃ f ∈ coallescing (insertFreeSorted ⟨e'.start, e'.numPages⟩ s.vme.freeEntries),
        e'.numPages ≤ f.numPages := by
      have hperm := insertFreeSorted_perm ⟨e'.start, e'.numPages⟩ s.vme.freeEntries
      have hall : ∀ f ∈ insertFreeSorted ⟨e'.start, e'.numPages⟩ s.vme.freeEntries,
          f.start + f.numPages * 4096 < 4294967296 := by
        intro f hf
        rcases List.mem_cons.mp (hperm.mem_iff.mp hf) with rfl | hf'
        · exact Nat.lt_of_le_of_lt hend.2 hlt
        · exact h.free_lt f hf'
      have hmem : (⟨e'.start, e'.numPages⟩ : FreeEntry) ∈
          insertFreeSorted ⟨e'.start, e'.numPages⟩ s.vme.freeEntries :=
        hperm.mem_iff.mpr (by simp)
      cases hl : insertFreeSorted ⟨e'.start, e'.numPages⟩ s.vme.freeEntries with
      | nil => rw [hl] at hmem; simp at hmem
      | cons curr rest' =>
        rw [hl] at hall hmem
        exact coallesceFrom_room rest' curr hall ⟨_, hmem, Nat.le_refl _⟩
    have hreq : requiredPages size ≤ e'.numPages := by
      rw [requiredPages, frameSize_eq, u32_of_lt (by omega)]
      omega
    obtain ⟨f, hf, hle⟩ := hroom
    have hpos' : 0 < (insertFreeSpace e'.start e'.numPages
        { s.vme with entries := rest }).avail := Nat.lt_of_lt_of_le h0 h.start_le
    rcases addEntry_cases _ size file fileOffset user' (hafter.free_pos h0) hpos' with
      ⟨va', fs, -, hne, heq⟩ | ⟨htake, -, -, -⟩ | ⟨htake, -, -⟩
    · rw [heq]; exact hne
    · have := takeFree_eq_none_iff.mp htake f hf
      omega
    · have := takeFree_eq_none_iff.mp htake f hf
      omega

/-- **Main result.**  In every session of a `VME` that does not start at address `0`, whatever its
    limit, the chains obey the laws. -/
theorem sessions_laws (start limit : Nat) (h0 : 0 < start) (hlt : start < 4294967296)
    {s : Session ν} (hs : Sessions start limit s) : Laws start s := by
  have h := sessions_tiled h0 hlt hs
  refine ⟨h.sorted, h.tiles, h.gapped, h.get_eq_some_iff, h.get_eq_none_iff, ?_, ?_, ?_, ?_⟩
  · intro va e v' hrem
    rw [removeEntry] at hrem
    split at hrem
    · simp at hrem
    · rename_i hun
      simp only [Prod.mk.injEq, Option.some.injEq] at hrem
      rw [← hrem.1]
      exact (unlinkEntry_some hun).2.2 rfl
  · exact fun va e he hu => kernel_kept s.vme va he hu
  · exact fun size file fileOffset user hzero => h.refused h0 hzero
  · exact fun va user e v' hrem size hsize file fileOffset user' =>
      h.reuse h0 hrem hsize file fileOffset user'

/-- The laws of a private `VME` after three requests and two removals: the two ranges that are free again have
    become one. -/
theorem sessions_laws_user : ∃ s : Session Unit, Laws 0x80000000 s ∧
    s.vme.freeEntries = [⟨0x80000000, 3⟩] ∧ s.live = [⟨0x80003000, 1, true⟩] := by
  have h₀ : Sessions 0x80000000 0xF0000000 (⟨new 0x80000000 0xF0000000, []⟩ : Session Unit) :=
    Runs.Guarded.start rfl
  have h₁ := h₀.next (a := .add 4096 none 0 true) (by show _ < _; decide +kernel) rfl
  have h₂ := h₁.next (a := .add 8192 none 0 true) (by show _ < _; decide +kernel) rfl
  have h₃ := h₂.next (a := .add 4096 none 0 true) (by show _ < _; decide +kernel) rfl
  have h₄ := h₃.next (a := Op.remove 0x80000000 true) trivial rfl
  have h₅ := h₄.next (a := Op.remove 0x80001000 true) trivial rfl
  exact ⟨_, sessions_laws 0x80000000 0xF0000000 (by omega) (by omega) h₅, by decide +kernel, by decide +kernel⟩

/-- **A region may not start at address `0`**: its first page is handed out as address `0`, which
    reports a refusal, although an entry has been recorded and `avail` has moved. -/
theorem addEntry_start_zero :
    (new 0 65536 : VME Unit).addEntry 4096 none 0 true
        = (0, ⟨4096, 65536, [⟨0, 1, 4096, none, 0, true⟩], []⟩) ∧
      ¬ Laws 0 (⟨new 0 65536, []⟩ : Session Unit) := by
  have heq : (new 0 65536 : VME Unit).addEntry 4096 none 0 true
      = (0, ⟨4096, 65536, [⟨0, 1, 4096, none, 0, true⟩], []⟩) := by decide +kernel
  refine ⟨heq, fun h => ?_⟩
  have hsame := h.refused 4096 none 0 true (by rw [heq])
  rw [heq] at hsame
  exact absurd (congrArg VME.avail hsame) (by simp [new])

end VME

end BadApple
