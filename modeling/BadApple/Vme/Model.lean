/-
  `VME` — the virtual-memory entries of one address space (kernel/vme.h, kernel/vme.cc).

  1. **Data** — a `VME` records which page ranges of its region have been handed out (`entries`, a
     linked list sorted by start), which have been given back (`freeEntries`), and a bump pointer
     `avail` below `limit` for the part of the region never used so far.  The singly linked
     `StrongPtr` chains are lists; `StrongPtr<Node>` is an `Option ν`, for any type `ν` of files.
  2. **Loops** — each `while` over a chain is a structural recursion on the rest of the chain that
     `curr` points at; unlinking through `prev->next` is rebuilding the part already walked.
  3. **Words** — sums and products of `uint32_t` are wrapped with `u32` where the source computes
     them, in the order in which it computes them.

  `add_entry` and `remove_entry` run under the lock of the `VME`, so one call is one step.
-/
import BadApple.Word
import BadApple.Lib.Ranges

namespace BadApple

open Ranges (Range)

/-! ## The records -/

/-- `VMEEntry` — a handed-out range of pages and what backs it. -/
structure VMEEntry (ν : Type) where
  start : Nat
  numPages : Nat
  size : Nat
  file : Option ν
  fileOffset : Nat
  user : Bool
deriving DecidableEq, Repr

/-- `FreeEntry` — a range of pages that was handed out and given back. -/
structure FreeEntry where
  start : Nat
  numPages : Nat
deriving DecidableEq, Repr

/-- `VME` — the fields of the class, the two chains as lists from their heads. -/
structure VME (ν : Type) where
  avail : Nat
  limit : Nat
  entries : List (VMEEntry ν)
  freeEntries : List FreeEntry
deriving DecidableEq, Repr

variable {ν : Type}

/-- `start + num_pages * FRAME_SIZE`, the end of an entry as `get` and `remove_entry` compute it. -/
def VMEEntry.stop (e : VMEEntry ν) : Nat := u32 (e.start + u32 (e.numPages * frameSize))

/-- `curr->start + curr->num_pages * FRAME_SIZE` for a free range. -/
def FreeEntry.stop (f : FreeEntry) : Nat := u32 (f.start + u32 (f.numPages * frameSize))

/-- The addresses an entry covers, computed without wrap-around. -/
def VMEEntry.range (e : VMEEntry ν) : Range := ⟨e.start, e.numPages * frameSize⟩

/-- The addresses a free range covers, computed without wrap-around. -/
def FreeEntry.range (f : FreeEntry) : Range := ⟨f.start, f.numPages * frameSize⟩

/-! ## The operations -/

namespace VME

/-- The constructor `VME(start, end)`. -/
def new (start limit : Nat) : VME ν := ⟨start, limit, [], []⟩

/-- `insert_entry_sorted` — the new node goes in front of the first one that does not start below
    it. -/
def insertEntrySorted (e : VMEEntry ν) : List (VMEEntry ν) → List (VMEEntry ν)
  | [] => [e]
  | curr :: rest =>
      if curr.start < e.start then curr :: insertEntrySorted e rest else e :: curr :: rest

/-- The loop of `coallescing` with `curr` the node in hand: a touching successor is merged into
    `curr`, which stays in hand; otherwise `curr` is left behind. -/
def coallesceFrom (curr : FreeEntry) : List FreeEntry → List FreeEntry
  | [] => [curr]
  | next :: rest =>
      if curr.stop = next.start then
        coallesceFrom ⟨curr.start, u32 (curr.numPages + next.numPages)⟩ rest
      else curr :: coallesceFrom next rest

/-- `coallescing`. -/
def coallescing : List FreeEntry → List FreeEntry
  | [] => []
  | curr :: rest => coallesceFrom curr rest

/-- The insertion loop of `insert_free_space`. -/
def insertFreeSorted (f : FreeEntry) : List FreeEntry → List FreeEntry
  | [] => [f]
  | curr :: rest =>
      if curr.start < f.start then curr :: insertFreeSorted f rest else f :: curr :: rest

/-- `insert_free_space`. -/
def insertFreeSpace (start numPages : Nat) (v : VME ν) : VME ν :=
  { v with freeEntries := coallescing (insertFreeSorted ⟨start, numPages⟩ v.freeEntries) }

/-- The test of `get` and `remove_entry` on one entry. -/
def covers (va : Nat) (e : VMEEntry ν) : Bool := decide (e.start ≤ va ∧ va < e.stop)

/-- `get` — the first entry whose range contains `va`. -/
def get (v : VME ν) (va : Nat) : Option (VMEEntry ν) := v.entries.find? (covers va)

/-- The first-fit loop of `add_entry`: the first free range with enough pages gives up its low end,
    and is unlinked when nothing of it is left.  `none` when no range is large enough. -/
def takeFree (requiredPages : Nat) : List FreeEntry → Option (Nat × List FreeEntry)
  | [] => none
  | curr :: rest =>
      if requiredPages ≤ curr.numPages then
        some (curr.start,
          if curr.numPages - requiredPages = 0 then rest
          else ⟨u32 (curr.start + u32 (requiredPages * frameSize)),
                curr.numPages - requiredPages⟩ :: rest)
      else
        match takeFree requiredPages rest with
        | none => none
        | some (va, rest') => some (va, curr :: rest')

/-- `required_pages` of `add_entry`: `(size + FRAME_SIZE - 1) / FRAME_SIZE` in 32 bits. -/
def requiredPages (size : Nat) : Nat := u32 (size + frameSize - 1) / frameSize

/-- `⌈size / 4096⌉`, the pages that a request of `size` bytes needs. -/
def pagesFor (size : Nat) : Nat := (size + 4095) / 4096

/-- `add_entry` — the address handed out (`0` for a refusal) and the new state.  `va == 0` is also
    how the source tells that no free range was taken, so a free range that starts at address `0`
    is consumed and the bump pointer used all the same. -/
def addEntry (v : VME ν) (size : Nat) (file : Option ν) (fileOffset : Nat) (user : Bool) :
    Nat × VME ν :=
  let required := requiredPages size
  let taken := (takeFree required v.freeEntries).getD (0, v.freeEntries)
  if taken.1 = 0 then
    if u32 (v.avail + size) > v.limit then (0, { v with freeEntries := taken.2 })
    else (v.avail,
      { v with
        avail := u32 (v.avail + u32 (frameSize * required))
        entries := insertEntrySorted ⟨v.avail, required, size, file, fileOffset, user⟩ v.entries
        freeEntries := taken.2 })
  else (taken.1,
    { v with
      entries := insertEntrySorted ⟨taken.1, required, size, file, fileOffset, user⟩ v.entries
      freeEntries := taken.2 })

/-- The search loop of `remove_entry`: the first entry that covers `va` and that the caller may
    remove (`!user || curr->user == user`), and the chain without it. -/
def unlinkEntry (va : Nat) (user : Bool) :
    List (VMEEntry ν) → Option (VMEEntry ν × List (VMEEntry ν))
  | [] => none
  | curr :: rest =>
      if covers va curr && (!user || curr.user == user) then some (curr, rest)
      else
        match unlinkEntry va user rest with
        | none => none
        | some (e, rest') => some (e, curr :: rest')

/-- `remove_entry` — the removed entry, if any (its destructor runs when the call returns), and the
    new state. -/
def removeEntry (v : VME ν) (va : Nat) (user : Bool) : Option (VMEEntry ν) × VME ν :=
  match unlinkEntry va user v.entries with
  | none => (none, v)
  | some (e, rest) =>
      (some e, insertFreeSpace e.start e.numPages { v with entries := rest })

/-- `FreeEntry::duplicate`, a deep copy of the chain. -/
def duplicateFree : List FreeEntry → List FreeEntry
  | [] => []
  | f :: rest => ⟨f.start, f.numPages⟩ :: duplicateFree rest

/-- `VMEEntry::duplicate`, a deep copy of the chain; the file itself is shared. -/
def duplicateEntries : List (VMEEntry ν) → List (VMEEntry ν)
  | [] => []
  | e :: rest =>
      ⟨e.start, e.numPages, e.size, e.file, e.fileOffset, e.user⟩ :: duplicateEntries rest

/-- `VME::duplicate`. -/
def duplicate (v : VME ν) : VME ν :=
  { (new v.avail v.limit : VME ν) with
    entries := duplicateEntries v.entries
    freeEntries := duplicateFree v.freeEntries }

/-! ## Calls, as steps of a transition system -/

/-- A call on a `VME`, with the arguments its caller chose. -/
inductive Op (ν : Type) where
  | add (size : Nat) (file : Option ν) (fileOffset : Nat) (user : Bool)
  | remove (va : Nat) (user : Bool)

/-- The state after a call. -/
def apply (v : VME ν) : Op ν → VME ν
  | .add size file fileOffset user => (v.addEntry size file fileOffset user).2
  | .remove va user => (v.removeEntry va user).2

/-- One call is one step. -/
def Step (v : VME ν) (op : Op ν) (v' : VME ν) : Prop := v' = v.apply op

/-! ## First facts: what the operations do to the two chains -/

/-- The ranges recorded by a `VME`, handed out or free. -/
def ranges (v : VME ν) : List Range :=
  v.entries.map VMEEntry.range ++ v.freeEntries.map FreeEntry.range

theorem duplicateFree_eq : ∀ fs : List FreeEntry, duplicateFree fs = fs
  | [] => rfl
  | f :: rest => by rw [duplicateFree, duplicateFree_eq rest]

theorem duplicateEntries_eq : ∀ es : List (VMEEntry ν), duplicateEntries es = es
  | [] => rfl
  | e :: rest => by rw [duplicateEntries, duplicateEntries_eq rest]

/-- **A copied `VME` records exactly what the original records.** -/
theorem duplicate_eq (v : VME ν) : v.duplicate = v := by
  rw [duplicate, duplicateEntries_eq, duplicateFree_eq, new]

/-- Sorted insertion adds one node and keeps the others. -/
theorem insertEntrySorted_perm (e : VMEEntry ν) :
    ∀ es : List (VMEEntry ν), (insertEntrySorted e es).Perm (e :: es)
  | [] => List.Perm.refl _
  | curr :: rest => by
    rw [insertEntrySorted]
    split
    · exact ((insertEntrySorted_perm e rest).cons curr).trans (List.Perm.swap e curr rest)
    · exact List.Perm.refl _

theorem insertFreeSorted_perm (f : FreeEntry) :
    ∀ fs : List FreeEntry, (insertFreeSorted f fs).Perm (f :: fs)
  | [] => List.Perm.refl _
  | curr :: rest => by
    rw [insertFreeSorted]
    split
    · exact ((insertFreeSorted_perm f rest).cons curr).trans (List.Perm.swap f curr rest)
    · exact List.Perm.refl _

/-- Unlinking takes exactly the entry it returns out of the chain; that entry covers `va` and is one
    the caller may remove. -/
theorem unlinkEntry_some {va : Nat} {user : Bool} :
    ∀ {es : List (VMEEntry ν)} {e : VMEEntry ν} {rest : List (VMEEntry ν)},
      unlinkEntry va user es = some (e, rest) →
        (∃ l₁ l₂, es = l₁ ++ e :: l₂ ∧ rest = l₁ ++ l₂) ∧ covers va e = true ∧
          (user = true → e.user = true)
  | [], e, rest, h => by simp [unlinkEntry] at h
  | curr :: es, e, rest, h => by
    rw [unlinkEntry] at h
    split at h
    · rename_i hc
      rw [Bool.and_eq_true] at hc
      simp only [Option.some.injEq, Prod.mk.injEq] at h
      obtain ⟨rfl, rfl⟩ := h
      refine ⟨⟨[], es, rfl, rfl⟩, hc.1, fun hu => ?_⟩
      subst hu
      simpa using hc.2
    · split at h
      · simp at h
      · rename_i e' rest' hrec
        simp only [Option.some.injEq, Prod.mk.injEq] at h
        obtain ⟨rfl, rfl⟩ := h
        obtain ⟨⟨l₁, l₂, h1, h2⟩, hcov, huser⟩ := unlinkEntry_some hrec
        exact ⟨⟨curr :: l₁, l₂, by rw [h1]; rfl, by rw [h2]; rfl⟩, hcov, huser⟩

/-- Nothing is unlinked only when every entry either misses `va` or is protected from the caller. -/
theorem unlinkEntry_none {va : Nat} {user : Bool} :
    ∀ {es : List (VMEEntry ν)}, unlinkEntry va user es = none →
      ∀ e ∈ es, covers va e = true → user = true ∧ e.user = false
  | [], _, e, he, _ => by simp at he
  | curr :: es, h, e, he, hcov => by
    rw [unlinkEntry] at h
    split at h
    · simp at h
    · rename_i hc
      split at h
      · rename_i hrec
        rcases List.mem_cons.mp he with rfl | he'
        · rw [hcov] at hc
          cases user <;> cases hu : e.user <;> simp_all
        · exact unlinkEntry_none hrec e he' hcov
      · simp at h

/-- What is left of a free range after its first `required` pages are handed out. -/
def shrink (required : Nat) (f : FreeEntry) : List FreeEntry :=
  if f.numPages - required = 0 then []
  else [⟨u32 (f.start + u32 (required * frameSize)), f.numPages - required⟩]

/-- **What a successful first fit does**: it stops at the first range with enough pages and puts the
    rest of that range in its place. -/
theorem takeFree_some {required : Nat} :
    ∀ {fs fs' : List FreeEntry} {va : Nat}, takeFree required fs = some (va, fs') →
      ∃ l₁ f l₂, fs = l₁ ++ f :: l₂ ∧ fs' = l₁ ++ (shrink required f ++ l₂) ∧ va = f.start ∧
        required ≤ f.numPages
  | [], _, _, h => by simp [takeFree] at h
  | curr :: rest, fs', va, h => by
    rw [takeFree] at h
    split at h
    · rename_i hle
      simp only [Option.some.injEq, Prod.mk.injEq] at h
      obtain ⟨rfl, rfl⟩ := h
      refine ⟨[], curr, rest, rfl, ?_, rfl, hle⟩
      rw [shrink]; split <;> rfl
    · split at h
      · simp at h
      · rename_i va' rest' hrec
        simp only [Option.some.injEq, Prod.mk.injEq] at h
        obtain ⟨rfl, rfl⟩ := h
        obtain ⟨l₁, f, l₂, h1, h2, h3, h4⟩ := takeFree_some hrec
        exact ⟨curr :: l₁, f, l₂, by rw [h1]; rfl, by rw [h2]; rfl, h3, h4⟩

/-- First fit fails exactly when no free range has enough pages. -/
theorem takeFree_eq_none_iff {required : Nat} :
    ∀ {fs : List FreeEntry}, takeFree required fs = none ↔ ∀ f ∈ fs, f.numPages < required
  | [] => by simp [takeFree]
  | curr :: rest => by
    rw [takeFree, List.forall_mem_cons]
    split
    · rename_i hle
      simp only [reduceCtorEq, false_iff, not_and]
      intro hlt; omega
    · rename_i hgt
      have ih : takeFree required rest = none ↔ ∀ f ∈ rest, f.numPages < required :=
        takeFree_eq_none_iff
      split
      · rename_i hrec; exact ⟨fun _ => ⟨by omega, ih.mp hrec⟩, fun _ => rfl⟩
      · rename_i hrec
        simp only [reduceCtorEq, false_iff, not_and]
        intro _ hall
        rw [ih.mpr hall] at hrec; simp at hrec

/-- **Everything `add_entry` can do** when no free range starts at `0`: hand out the low end of a
    free range, hand out fresh space at `avail`, or refuse and leave the state alone. -/
theorem addEntry_cases (v : VME ν) (size : Nat) (file : Option ν) (fileOffset : Nat) (user : Bool)
    (hfree : ∀ f ∈ v.freeEntries, 0 < f.start) (havail : 0 < v.avail) :
    (∃ va fs, takeFree (requiredPages size) v.freeEntries = some (va, fs) ∧ va ≠ 0 ∧
      v.addEntry size file fileOffset user = (va,
        { v with
          entries := insertEntrySorted
            ⟨va, requiredPages size, size, file, fileOffset, user⟩ v.entries
          freeEntries := fs })) ∨
    (takeFree (requiredPages size) v.freeEntries = none ∧ u32 (v.avail + size) ≤ v.limit ∧
      v.avail ≠ 0 ∧
      v.addEntry size file fileOffset user = (v.avail,
        { v with
          avail := u32 (v.avail + u32 (frameSize * requiredPages size))
          entries := insertEntrySorted
            ⟨v.avail, requiredPages size, size, file, fileOffset, user⟩ v.entries })) ∨
    (takeFree (requiredPages size) v.freeEntries = none ∧ v.limit < u32 (v.avail + size) ∧
      v.addEntry size file fileOffset user = (0, v)) := by
  rcases htake : takeFree (requiredPages size) v.freeEntries with _ | ⟨va, fs⟩
  · by_cases hlim : u32 (v.avail + size) > v.limit
    · refine Or.inr (Or.inr ⟨rfl, hlim, ?_⟩)
      simp only [addEntry, htake, Option.getD_none, if_pos hlim, if_true]
    · refine Or.inr (Or.inl ⟨rfl, by omega, by omega, ?_⟩)
      simp only [addEntry, htake, Option.getD_none, if_neg hlim, if_true]
  · obtain ⟨l₁, f, l₂, h1, -, h3, -⟩ := takeFree_some htake
    have hpos := hfree f (by rw [h1]; simp)
    have hva : va ≠ 0 := by omega
    refine Or.inl ⟨va, fs, rfl, hva, ?_⟩
    simp only [addEntry, htake, Option.getD_some, if_neg hva]

end VME

end BadApple
