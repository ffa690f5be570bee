/-
  Everything that a `VME` records starts on a page boundary.

  1. **Invariant** — `Aligned`: `avail`, the free ranges and the entries.  Every address is made of page
     boundaries and whole pages, and a wrap loses a whole number of pages; so it holds in every run, those
     with requests that wrap included.
  2. **Pages** — an entry covers all addresses of a page or none, and `get` finds the same one for all of
     them.
-/
import BadApple.Vme.Bounds

namespace BadApple

variable {ν : Type}

namespace VME

/-- All recorded addresses are page boundaries. -/
structure Aligned (v : VME ν) : Prop where
  avail : v.avail % 4096 = 0
  free : ∀ f ∈ v.freeEntries, f.start % 4096 = 0
  entries : ∀ e ∈ v.entries, e.start % 4096 = 0

/-- Wrapping keeps page boundaries. -/
theorem u32_aligned {n : Nat} (h : n % 4096 = 0) : u32 n % 4096 = 0 := by
  rw [u32_eq]
  omega

/-- A number of whole pages further. -/
theorem u32_add_pages {a n : Nat} (h : a % 4096 = 0) : u32 (a + u32 (n * frameSize)) % 4096 = 0 := by
  have hpages : u32 (n * frameSize) % 4096 = 0 := u32_aligned (by rw [frameSize_eq]; omega)
  exact u32_aligned (by omega)

/-- Merged ranges start where ranges started. -/
theorem coallesceFrom_aligned : ∀ (rest : List FreeEntry) (curr : FreeEntry),
    (∀ f ∈ curr :: rest, f.start % 4096 = 0) → ∀ f ∈ coallesceFrom curr rest, f.start % 4096 = 0 := by
  intro rest
  induction rest with
  | nil => exact fun curr h => h
  | cons next rest ih =>
    intro curr h
    obtain ⟨hcurr, hrest⟩ := List.forall_mem_cons.1 h
    rw [coallesceFrom]
    by_cases htouch : curr.stop = next.start
    · rw [if_pos htouch]
      exact ih _ (List.forall_mem_cons.2 ⟨hcurr, (List.forall_mem_cons.1 hrest).2⟩)
    · rw [if_neg htouch]
      exact List.forall_mem_cons.2 ⟨hcurr, ih next hrest⟩

/-- Giving back a range that starts on a page boundary. -/
theorem insertFreeSpace_aligned {v : VME ν} {start numPages : Nat} (hstart : start % 4096 = 0)
    (h : ∀ f ∈ v.freeEntries, f.start % 4096 = 0) :
    ∀ f ∈ (v.insertFreeSpace start numPages).freeEntries, f.start % 4096 = 0 := by
  have hins : ∀ f ∈ insertFreeSorted ⟨start, numPages⟩ v.freeEntries, f.start % 4096 = 0 := by
    intro f hf
    rcases List.mem_cons.1 ((insertFreeSorted_perm _ _).mem_iff.1 hf) with rfl | hf
    · exact hstart
    · exact h f hf
  simp only [insertFreeSpace]
  cases hl : insertFreeSorted ⟨start, numPages⟩ v.freeEntries with
  | nil =>
    rw [coallescing]
    simp
  | cons curr rest =>
    rw [hl] at hins
    exact coallesceFrom_aligned rest curr hins

/-- One more entry that starts on a page boundary. -/
theorem insertEntrySorted_aligned {es : List (VMEEntry ν)} {e : VMEEntry ν} (he : e.start % 4096 = 0)
    (h : ∀ e ∈ es, e.start % 4096 = 0) : ∀ e' ∈ insertEntrySorted e es, e'.start % 4096 = 0 := by
  intro e' he'
  rcases List.mem_cons.1 ((insertEntrySorted_perm _ _).mem_iff.1 he') with rfl | he'
  · exact he
  · exact h e' he'

/-- What first fit hands out, and what it leaves. -/
theorem takeFree_aligned {required va : Nat} {fs fs' : List FreeEntry} (h : ∀ f ∈ fs, f.start % 4096 = 0)
    (htake : takeFree required fs = some (va, fs')) : va % 4096 = 0 ∧ ∀ f ∈ fs', f.start % 4096 = 0 := by
  obtain ⟨l₁, f, l₂, rfl, rfl, rfl, -⟩ := takeFree_some htake
  have hf := h f (by simp)
  refine ⟨hf, fun g hg => ?_⟩
  rcases List.mem_append.1 hg with hg | hg
  · exact h g (by simp [hg])
  · rcases List.mem_append.1 hg with hg | hg
    · rw [shrink] at hg
      by_cases hnone : f.numPages - required = 0
      · rw [if_pos hnone] at hg
        cases hg
      · rw [if_neg hnone] at hg
        rw [List.mem_singleton.1 hg]
        exact u32_add_pages hf
    · exact h g (by simp [hg])

/-- **A request** keeps the boundaries, whether or not it wraps. -/
theorem Aligned.addEntry {v : VME ν} (h : Aligned v) (size : Nat) (file : Option ν) (fileOffset : Nat)
    (user : Bool) : Aligned (v.addEntry size file fileOffset user).2 := by
  obtain ⟨havail, hfree, hentries⟩ := h
  have htaken : ((takeFree (requiredPages size) v.freeEntries).getD (0, v.freeEntries)).1 % 4096 = 0 ∧
      ∀ f ∈ ((takeFree (requiredPages size) v.freeEntries).getD (0, v.freeEntries)).2, f.start % 4096 = 0 := by
    cases htake : takeFree (requiredPages size) v.freeEntries with
    | none => exact ⟨rfl, hfree⟩
    | some r => exact takeFree_aligned hfree htake
  unfold VME.addEntry
  simp only
  split
  · split
    · exact ⟨havail, htaken.2, hentries⟩
    · refine ⟨?_, htaken.2, insertEntrySorted_aligned havail hentries⟩
      rw [Nat.mul_comm]
      exact u32_add_pages havail
  · exact ⟨havail, htaken.2, insertEntrySorted_aligned htaken.1 hentries⟩

/-- **A removal** keeps the boundaries. -/
theorem Aligned.removeEntry {v : VME ν} (h : Aligned v) (va : Nat) (user : Bool) :
    Aligned (v.removeEntry va user).2 := by
  rw [VME.removeEntry]
  cases hun : unlinkEntry va user v.entries with
  | none => exact h
  | some r =>
    obtain ⟨e, rest⟩ := r
    obtain ⟨⟨l₁, l₂, h1, h2⟩, -, -⟩ := unlinkEntry_some hun
    have he := h.entries e (by rw [h1]; simp)
    refine ⟨h.avail, insertFreeSpace_aligned (v := { v with entries := rest }) he h.free, fun e' he' => ?_⟩
    have hmem : e' ∈ l₁ ++ l₂ := h2 ▸ he'
    refine h.entries e' ?_
    rw [h1]
    rcases List.mem_append.1 hmem with hl | hl
    · exact List.mem_append_left _ hl
    · exact List.mem_append_right _ (List.mem_cons_of_mem _ hl)

theorem init_aligned (r : Region) (hr : r.Valid) : Aligned (r.init : VME ν) := by
  cases r with
  | user => exact ⟨show 0x80000000 % 4096 = 0 by decide, by simp [Region.init, new], by simp [Region.init, new]⟩
  | shared ioAPIC localAPIC =>
    have hio := hr.io_aligned
    have hlocal := hr.local_aligned
    have hpage : ∀ n, n % 4096 = 0 → u32 (n + frameSize) % 4096 = 0 := by
      intro n hn
      exact u32_aligned (by rw [frameSize_eq]; omega)
    have hnone : ∀ f ∈ (VME.new (u32 (localAPIC + frameSize)) 0xFFFFFFFF : VME ν).freeEntries,
        f.start % 4096 = 0 := by simp [new]
    have hfirst : ∀ f ∈ ((VME.new (u32 (localAPIC + frameSize)) 0xFFFFFFFF : VME ν).insertFreeSpace 0xF0000000
        (Region.sub32 ioAPIC 0xF0000000 / frameSize)).freeEntries, f.start % 4096 = 0 :=
      insertFreeSpace_aligned (show 0xF0000000 % 4096 = 0 by decide) hnone
    refine ⟨hpage _ hlocal, ?_, ?_⟩
    · exact insertFreeSpace_aligned (hpage _ hio) hfirst
    · refine insertEntrySorted_aligned hlocal (insertEntrySorted_aligned hio ?_)
      simp [insertFreeSpace, new]

/-- The states of a region's `VME` over all runs. -/
def AnyRun (r : Region) : VME ν → Prop := Runs.Reached (fun v => v = r.init) Step

/-- **Every run** keeps the boundaries. -/
theorem AnyRun.aligned {r : Region} (hr : r.Valid) {v : VME ν} (h : AnyRun r v) : Aligned v := by
  apply Runs.Reached.invariant (I := Aligned) ?_ ?_ h
  · rintro v rfl
    exact init_aligned r hr
  · rintro v op v' - hI rfl
    cases op with
    | add size file fileOffset user => exact hI.addEntry size file fileOffset user
    | remove va user => exact hI.removeEntry va user

/-! ## Pages -/

variable {v : VME ν} {e : VMEEntry ν} {va va' : Nat}

/-- An entry covers all addresses of a page or none. -/
theorem covers_page (he : e.start % 4096 = 0) (hpage : va / 4096 = va' / 4096) :
    covers va e = covers va' e := by
  have hstop : e.stop % 4096 = 0 := u32_add_pages he
  unfold covers
  rw [decide_eq_decide]
  omega

/-- **`get` finds the same entry for all addresses of a page.** -/
theorem Aligned.get_page (h : Aligned v) (hpage : va / 4096 = va' / 4096) : v.get va = v.get va' := by
  unfold VME.get
  have hsame : ∀ es : List (VMEEntry ν), (∀ e ∈ es, e.start % 4096 = 0) →
      es.find? (covers va) = es.find? (covers va') := by
    intro es
    induction es with
    | nil => exact fun _ => rfl
    | cons e es ih =>
      intro hes
      obtain ⟨he, hrest⟩ := List.forall_mem_cons.1 hes
      rw [List.find?_cons, List.find?_cons, covers_page he hpage, ih hrest]
  exact hsame v.entries h.entries

end VME

end BadApple
