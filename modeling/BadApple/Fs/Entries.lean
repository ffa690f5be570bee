/-
  `Node::entries` and `Node::entry_count` (kernel/ext2.h, kernel/ext2.cc).

  1. **Specification** — `report`: the work is told of the records of a directory one by one, in order, those
     that are not in use among them, until it answers something else than 0.
  2. **The scan** — `entries_ends`: that is what `entries` does with every well-formed directory, whatever
     the work is.
  3. **Two works** — `entry_count` counts the records; a work that compares names finds the number of the
     first record in use with the name, since a record out of use answers 0 and the scan goes on.
  4. **The result** — `entries_report`: all of this, and that `find_one`, which does not go on there, finds
     the same exactly if no record out of use has the name before.
-/
import BadApple.Fs.Scans

namespace BadApple.Ext2

/-! ## Specification -/

/-- What `entries` tells the work of a record. -/
def DirRecord.entry (r : DirRecord) : Entry := ⟨r.inode, r.name, UInt8.ofNat r.name.length⟩

/-- What the work answers last, 0 if it always answers 0, and what it keeps. -/
def report {σ : Type} (work : Entry → σ → Nat × σ) : List DirRecord → σ → Nat × σ
  | [], kept => (0, kept)
  | r :: rs, kept =>
    if (work r.entry kept).1 ≠ 0 then work r.entry kept else report work rs (work r.entry kept).2

/-- The work of a search: it answers with the number of an entry that has the name. -/
def searchEntry (name : List UInt8) : Entry → Unit → Nat × Unit :=
  fun e _ => (if e.name = name then e.inode else 0, ())

/-- The number of the first record in use with a name; 0 if there is none. -/
def usedInode (rs : List DirRecord) (name : List UInt8) : Nat :=
  ((rs.find? fun r => r.inode ≠ 0 ∧ r.name = name).map DirRecord.inode).getD 0

/-- A record that is not in use comes before any record in use with the same name. -/
def Hidden (rs : List DirRecord) (name : List UInt8) : Prop :=
  ∃ r, (rs.find? fun r => r.name = name) = some r ∧ r.inode = 0 ∧ usedInode rs name ≠ 0

/-! ## The scan -/

variable {σ : Type} {work : Entry → σ → Nat × σ} {kept : σ}
variable {fs : Ext2} {dir : BlockIo} {offset : Nat} {r : DirRecord} {rs : List DirRecord} {name : List UInt8}

/-- The name that `entries` reads. -/
theorem RecordAt.readName (hbs : 0 < dir.blockSize) (hsize : dir.sizeInBytes < 4294967296)
    (h : RecordAt dir offset r) (hend : offset + r.length ≤ dir.sizeInBytes) :
    dir.readThing (u32 (offset + 8)) (dir.byte (offset + 6)).toNat = some r.name := by
  have hroom := h.room
  rw [u32_of_lt (by omega), h.nameLength, BlockIo.readThing_eq hbs (by omega), h.name]

/-- A round of `entries` at a record tells the work of it. -/
theorem entriesRound_eq (hbs : 0 < dir.blockSize) (hsize : dir.sizeInBytes < 4294967296)
    (h : RecordAt dir offset r) (hend : offset + r.length ≤ dir.sizeInBytes) :
    entriesRound dir work (offset, kept) =
      if (work r.entry kept).1 ≠ 0 then .inr (.returns (work r.entry kept).1 (work r.entry kept).2)
      else .inl (offset + r.length, (work r.entry kept).2) := by
  have hroom := h.room
  have hentry : (⟨r.inode, r.name, dir.byte (offset + 6)⟩ : Entry) = r.entry := by
    rw [DirRecord.entry, ← h.nameLength, UInt8.ofNat_toNat]
  rw [entriesRound, if_pos (show offset < dir.sizeInBytes by omega), readRecord_eq hbs hsize h hend]
  simp only
  rw [h.readName hbs hsize hend]
  simp only
  rw [hentry, u32_of_lt (by omega)]

/-- **The scan** of a well-formed directory, by induction on its records. -/
theorem entries_ends (hbs : 0 < dir.blockSize) (hsize : dir.sizeInBytes < 4294967296) :
    ∀ {rs : List DirRecord} {offset : Nat} {kept : σ}, Records dir offset rs →
      Loops.Ends (entriesRound dir work) (offset, kept)
        (.returns (report work rs kept).1 (report work rs kept).2) := by
  intro rs
  induction rs with
  | nil =>
    intro offset kept h
    apply Loops.Ends.leaves
    rw [entriesRound, if_neg (by rw [show offset = dir.sizeInBytes from h]; exact Nat.lt_irrefl _)]
    rfl
  | cons r rs ih =>
    intro offset kept h
    obtain ⟨hr, hrest⟩ := h
    have hround := @entriesRound_eq σ work kept _ _ _ hbs hsize hr hrest.le
    by_cases hout : (work r.entry kept).1 ≠ 0
    · rw [if_pos hout] at hround
      rw [report, if_pos hout]
      exact Loops.Ends.leaves hround
    · rw [if_neg hout] at hround
      rw [report, if_neg hout, Loops.ends_iff_of_goes hround]
      exact ih hrest

/-! ## Counting -/

/-- Every record takes some of the directory. -/
theorem Records.length_le : ∀ {rs : List DirRecord} {offset : Nat}, Records dir offset rs →
    offset + rs.length ≤ dir.sizeInBytes := by
  intro rs
  induction rs with
  | nil =>
    intro offset h
    exact Nat.le_of_eq h
  | cons r rs ih =>
    intro offset h
    have hroom := h.1.room
    have hrest := ih h.2
    rw [List.length_cons]
    omega

/-- The count goes up by one at each record. -/
theorem report_countEntry : ∀ (rs : List DirRecord) (count : Nat), count + rs.length < 4294967296 →
    report countEntry rs count = (0, count + rs.length) := by
  intro rs
  induction rs with
  | nil =>
    intro count _
    rfl
  | cons r rs ih =>
    intro count hlt
    rw [List.length_cons] at hlt
    rw [report, if_neg (fun h => h rfl)]
    show report countEntry rs (u32 (count + 1)) = _
    rw [u32_of_lt (by omega), ih (count + 1) (by omega), List.length_cons]
    congr 1
    omega

/-! ## Searching -/

/-- A search answers with the number of the first record in use that has the name. -/
theorem report_searchEntry (name : List UInt8) : ∀ (rs : List DirRecord),
    report (searchEntry name) rs () = (usedInode rs name, ()) := by
  intro rs
  induction rs with
  | nil => rfl
  | cons r rs ih =>
    rw [report]
    by_cases hname : r.name = name
    · have hwork : searchEntry name r.entry () = (r.inode, ()) := by
        rw [searchEntry, if_pos (show r.entry.name = name from hname)]
        rfl
      rw [hwork]
      by_cases hused : r.inode ≠ 0
      · rw [if_pos hused, usedInode, List.find?_cons_of_pos (by simpa using ⟨hused, hname⟩)]
        rfl
      · rw [if_neg hused, ih, usedInode, usedInode,
          List.find?_cons_of_neg (by simpa using fun h => absurd h hused)]
    · have hwork : searchEntry name r.entry () = (0, ()) := by
        rw [searchEntry, if_neg (show ¬ r.entry.name = name from hname)]
      rw [hwork, if_neg (by simp), ih, usedInode, usedInode, List.find?_cons_of_neg (by simp [hname])]

theorem usedInode_of_some (hfind : (rs.find? fun r => r.inode ≠ 0 ∧ r.name = name) = some r) :
    usedInode rs name = r.inode ∧ r.inode ≠ 0 := by
  have hr := List.find?_some hfind
  simp only [ne_eq, decide_eq_true_eq] at hr
  exact ⟨by rw [usedInode, hfind]; rfl, hr.1⟩

/-- Without a hidden record, `find_one` finds what the name stands for. -/
theorem firstNamed_eq (h : ¬ Hidden rs name) : firstNamed fs rs name = fs.getNode (usedInode rs name) := by
  rw [firstNamed]
  cases hfind : rs.find? fun r => r.name = name with
  | none =>
    have hnone : (rs.find? fun r => r.inode ≠ 0 ∧ r.name = name) = none := by
      rw [List.find?_eq_none] at hfind ⊢
      intro r hr hboth
      exact hfind r hr (by simpa using (of_decide_eq_true hboth).2)
    rw [usedInode, hnone]
    exact (getNode_zero fs).symm
  | some r =>
    by_cases hused : r.inode = 0
    · have hnot : usedInode rs name = 0 := by
        by_contra hne
        exact h ⟨r, hfind, hused, hne⟩
      simp only
      rw [hnot, hused]
    · rw [(usedInode_of_some (find?_used hfind hused)).1]

theorem firstNamed_hidden (h : Hidden rs name) : firstNamed fs rs name = .null := by
  obtain ⟨r, hfind, hzero, _⟩ := h
  rw [firstNamed, hfind]
  simp only
  rw [hzero, getNode_zero]

/-! ## The result -/

/-- **`entries`** of every well-formed directory comes to an end and has told its work of the records, in
    order, up to the first at which it did not answer 0; `entry_count` is the number of records; a search for
    a name through `entries` answers with the number of the first record in use that has it, and `find_one`
    finds the node of that number exactly if no record out of use with the name comes before. -/
theorem entries_report (fs : Ext2) (dir : BlockIo) (rs : List DirRecord) (hbs : 0 < dir.blockSize)
    (hsize : dir.sizeInBytes < 4294967296) (hrecords : Records dir 0 rs) :
    (∀ (σ : Type) (work : Entry → σ → Nat × σ) (kept : σ),
      Loops.Ends (entriesRound dir work) (0, kept)
        (.returns (report work rs kept).1 (report work rs kept).2)) ∧
    Loops.Ends (entriesRound dir countEntry) (0, 0) (.returns 0 rs.length) ∧
    ∀ (p : Nat → UInt8) (name : List UInt8), CString p name →
      Loops.Ends (entriesRound dir (searchEntry name)) (0, ()) (.returns (usedInode rs name) ()) ∧
      (Loops.Ends (findOneRound fs dir p) 0 (fs.getNode (usedInode rs name)) ↔ ¬ Hidden rs name) := by
  refine ⟨fun σ work kept => entries_ends hbs hsize hrecords, ?_, ?_⟩
  · have hends := @entries_ends Nat countEntry _ hbs hsize _ _ 0 hrecords
    have hle := hrecords.length_le
    rw [report_countEntry rs 0 (by omega), Nat.zero_add] at hends
    exact hends
  · intro p name hp
    have hsearch := @entries_ends Unit (searchEntry name) _ hbs hsize _ _ () hrecords
    rw [report_searchEntry] at hsearch
    have hone : Loops.Ends (findOneRound fs dir p) 0 (firstNamed fs rs name) :=
      findOne_ends hbs hsize hp hrecords
    refine ⟨hsearch, ?_⟩
    constructor
    · intro hfound hidden
      have hsame := hfound.unique hone
      rw [firstNamed_hidden hidden] at hsame
      obtain ⟨_, _, _, hne⟩ := hidden
      exact getNode_ne_null fs hne hsame
    · intro hnot
      rw [firstNamed_eq hnot] at hone
      exact hone

theorem entries_report_staleDir : Loops.Ends (entriesRound staleDir countEntry) (0, 0) (.returns 0 2) ∧
    ¬ Loops.Ends (findOneRound smallFs staleDir nameA) 0 (smallFs.getNode 2) := by
  obtain ⟨_, hcount, hfind⟩ := entries_report smallFs staleDir staleRecords (by decide) (by decide)
    staleDir_records
  refine ⟨hcount, fun hfound => ?_⟩
  exact (hfind nameA [97] nameA_cString).2.1 hfound ⟨⟨0, 12, [97]⟩, rfl, rfl, by decide⟩

end BadApple.Ext2
