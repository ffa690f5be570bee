/-
  Directories: `Ext2::find_one` and `Node::entries` (kernel/ext2.cc, kernel/ext2.h).

  1. **Model** — a directory is a sequence of records: an i-number, the length of the record, that of the
     name, and the name.  Both scans go from a record to the next by its length, as a 32-bit sum; `find_one`
     compares names by an 8-bit index.
  2. **Specification** — `Records`: the records of a well-formed directory, one behind the other to its
     end.  A name stands for the first record that has it and is in use.
  3. **The comparison** — `sameName_eq`: of a name in a record, which is of 255 bytes at most and has no
     NUL, with a C string.
  4. **The defect** — `find_one` does not skip records that are not in use, which keep the names of files
     that were removed.
  5. **The result** — `findOne_firstUsed_iff`: it finds what the name stands for exactly if the first record
     with the name is in use, or none with the name is.
-/
import BadApple.Fs.Ext2
import BadApple.Fs.Path
import BadApple.Lib.Loops

namespace BadApple.Ext2

/-! ## Model -/

/-- The numbers at the start of the record at `offset`: `inode`, the length and the length of the name. -/
def readRecord (dir : BlockIo) (offset : Nat) : Option (Nat × Nat × UInt8) :=
  (dir.readNumber (u32 (offset + 0)) 4).bind fun inode =>
    (dir.readNumber (u32 (offset + 4)) 2).bind fun length =>
      (dir.readNumber (u32 (offset + 6)) 1).map fun nameLength => (inode, length, UInt8.ofNat nameLength)

/-- The loop of `find_one` that compares the name of a record with `name`, from the character `i` on:
    whether it finds them the same. -/
def sameName (dir : BlockIo) (fullOffset : Nat) (nameLength : UInt8) (name : Nat → UInt8) (i : UInt8) :
    Option Bool :=
  (if i ≠ nameLength then (dir.readNumber (u32 (u32 (fullOffset + 8) + i.toNat)) 1).map UInt8.ofNat
    else some 0).bind fun c =>
      if c ≠ name i.toNat then some false
      else if h : i ≥ nameLength then some true
      else sameName dir fullOffset nameLength name (i + 1)
termination_by nameLength.toNat - i.toNat
decreasing_by
  have hlt : i.toNat < nameLength.toNat := by
    rw [ge_iff_le, UInt8.le_iff_toNat_le] at h
    omega
  have hmax := nameLength.toNat_lt
  rw [UInt8.toNat_add]
  have hone : (1 : UInt8).toNat = 1 := rfl
  omega

/-- A round of the loop of `find_one(dir, name)`, at the record at `full_offset`. -/
def findOneRound (fs : Ext2) (dir : BlockIo) (name : Nat → UInt8) (fullOffset : Nat) : Nat ⊕ Result :=
  if fullOffset < dir.sizeInBytes then
    match readRecord dir fullOffset with
    | none => .inr .fails
    | some (inodeId, offset, nameLength) =>
      match sameName dir fullOffset nameLength name 0 with
      | none => .inr .fails
      | some true => .inr (fs.getNode inodeId)
      | some false => .inl (u32 (fullOffset + offset))
  else .inr .null

/-- What `work` is told of a record: `inode`, `name` and `name_length`. -/
structure Entry where
  inode : Nat
  name : List UInt8
  nameLength : UInt8

/-- How `entries` ends: with a number, and what `work` keeps, or in a failed assertion. -/
inductive Reported (σ : Type) where
  | returns (out : Nat) (kept : σ)
  | fails

/-- A round of the loop of `entries(work)`, at the record at `offset`; `work` also changes what it keeps.
    Before the loop `ASSERT(is_dir())` has held: `dir` is a directory. -/
def entriesRound {σ : Type} (dir : BlockIo) (work : Entry → σ → Nat × σ) (s : Nat × σ) :
    (Nat × σ) ⊕ Reported σ :=
  if s.1 < dir.sizeInBytes then
    match readRecord dir s.1 with
    | none => .inr .fails
    | some (inode, totalSize, nameLength) =>
      match dir.readThing (u32 (s.1 + 8)) nameLength.toNat with
      | none => .inr .fails
      | some name =>
        let (out, kept) := work ⟨inode, name, nameLength⟩ s.2
        if out ≠ 0 then .inr (.returns out kept)
        else .inl (u32 (s.1 + totalSize), kept)
  else .inr (.returns 0 s.2)

/-! ## Specification -/

/-- A record; it is in use if its number is not 0. -/
structure DirRecord where
  inode : Nat
  length : Nat
  name : List UInt8
deriving DecidableEq

/-- The bytes of the directory at `offset` are those of a record, which is long enough for its name. -/
structure RecordAt (dir : BlockIo) (offset : Nat) (r : DirRecord) : Prop where
  inode : littleEndian (dir.bytesFrom offset 4) = r.inode
  length : littleEndian (dir.bytesFrom (offset + 4) 2) = r.length
  nameLength : (dir.byte (offset + 6)).toNat = r.name.length
  name : dir.bytesFrom (offset + 8) r.name.length = r.name
  room : 8 + r.name.length ≤ r.length
  nonempty : r.name ≠ []
  noNul : 0 ∉ r.name

/-- A well-formed directory: from `offset` on, records one behind the other, up to the end exactly. -/
def Records (dir : BlockIo) (offset : Nat) : List DirRecord → Prop
  | [] => offset = dir.sizeInBytes
  | r :: rs => RecordAt dir offset r ∧ Records dir (offset + r.length) rs

/-- The node that a name stands for: that of the first record in use that has it. -/
def firstUsed (fs : Ext2) (rs : List DirRecord) (name : List UInt8) : Result :=
  match rs.find? fun r => r.inode ≠ 0 ∧ r.name = name with
  | none => .null
  | some r => fs.getNode r.inode

/-- The C string `name`, in memory from `p` on. -/
structure CString (p : Nat → UInt8) (name : List UInt8) : Prop where
  chars : ∀ i (hi : i < name.length), p i = name[i]
  nul : p name.length = 0
  noNul : 0 ∉ name

/-! ## The comparison -/

variable {fs : Ext2} {dir : BlockIo} {offset : Nat} {r : DirRecord} {rs : List DirRecord} {name : List UInt8}
variable {p : Nat → UInt8}

/-- One byte of a directory, read as a character. -/
theorem readNumber_byte (hbs : 0 < dir.blockSize) (hin : offset < dir.sizeInBytes) :
    dir.readNumber offset 1 = some (dir.byte offset).toNat := by
  rw [BlockIo.readNumber_eq hbs (by omega)]
  rfl

/-- A character of a record's name. -/
theorem RecordAt.name_byte (h : RecordAt dir offset r) {i : Nat} (hi : i < r.name.length) :
    dir.byte (offset + 8 + i) = r.name[i] := by
  have hget : r.name[i]? = (dir.bytesFrom (offset + 8) r.name.length)[i]? := by rw [h.name]
  rw [BlockIo.bytesFrom, List.getElem?_map, List.getElem?_range hi, List.getElem?_eq_getElem hi] at hget
  exact (Option.some.inj hget).symm

/-- What is left of two names is the same when the characters before are. -/
theorem eq_of_take_eq {l₁ l₂ : List UInt8} {i : Nat} (htake : l₁.take i = l₂.take i) (h₁ : l₁.length = i)
    (h₂ : l₂.length = i) : l₁ = l₂ := by
  rw [List.take_of_length_le (by omega), List.take_of_length_le (by omega)] at htake
  exact htake

/-- **From a character on**, by induction on the characters that are left, those before being the same. -/
theorem sameName_from (hbs : 0 < dir.blockSize) (hsize : dir.sizeInBytes < 4294967296)
    (h : RecordAt dir offset r)
    (hend : offset + r.length ≤ dir.sizeInBytes) (hp : CString p name) :
    ∀ (left : Nat) (i : UInt8), i.toNat + left = r.name.length → i.toNat ≤ name.length →
      r.name.take i.toNat = name.take i.toNat →
      sameName dir offset (dir.byte (offset + 6)) p i = some (decide (r.name = name)) := by
  have hlen := h.nameLength
  have hroom := h.room
  have hmax := (dir.byte (offset + 6)).toNat_lt
  -- where the names differ in length, the one that ends has a NUL
  have hdiffer : r.name.length ≠ name.length → decide (r.name = name) = false := by
    intro hne
    exact decide_eq_false fun heq => hne (by rw [heq])
  intro left
  induction left with
  | zero =>
    intro i hi hle htake
    have heq : i = dir.byte (offset + 6) := UInt8.toNat_inj.1 (by omega)
    rw [sameName, if_neg (by simp [heq]), Option.bind_some]
    by_cases hname : name.length = i.toNat
    · have hsame : r.name = name := eq_of_take_eq htake (by omega) hname
      rw [← hname, hp.nul, if_neg (by simp), dif_pos (by rw [heq]; exact UInt8.le_refl _), decide_eq_true hsame]
    · have hchar := hp.chars i.toNat (by omega)
      have hne : (0 : UInt8) ≠ name[i.toNat] := fun h0 => hp.noNul (h0 ▸ List.getElem_mem _)
      rw [hchar, if_pos hne, hdiffer (by omega)]
  | succ left ih =>
    intro i hi hle htake
    have hlt : i.toNat < r.name.length := by omega
    have hi' : i ≠ dir.byte (offset + 6) := by
      intro heq
      rw [heq] at hlt
      omega
    rw [sameName, if_pos hi', u32_of_lt (n := offset + 8) (by omega), u32_of_lt (by omega),
      readNumber_byte hbs (by omega), Option.map_some, Option.bind_some, UInt8.ofNat_toNat, h.name_byte hlt]
    by_cases hname : name.length = i.toNat
    · have hne : r.name[i.toNat] ≠ 0 := fun h0 => h.noNul (h0 ▸ List.getElem_mem _)
      have hnul : p i.toNat = 0 := hname ▸ hp.nul
      rw [hnul, if_pos hne, hdiffer (by omega)]
    · have hlt' : i.toNat < name.length := by omega
      rw [hp.chars i.toNat hlt']
      by_cases hchar : r.name[i.toNat] = name[i.toNat]
      · have hge : ¬ i ≥ dir.byte (offset + 6) := by
          rw [ge_iff_le, UInt8.le_iff_toNat_le]
          omega
        have hone : (1 : UInt8).toNat = 1 := rfl
        have hsucc : (i + 1).toNat = i.toNat + 1 := by
          rw [UInt8.toNat_add]
          omega
        rw [if_neg (by simpa using hchar), dif_neg hge]
        refine ih (i + 1) (by omega) (by omega) ?_
        rw [hsucc, List.take_add_one, List.take_add_one, htake, List.getElem?_eq_getElem hlt,
          List.getElem?_eq_getElem hlt', hchar]
      · have hne : r.name ≠ name := by
          intro heq
          exact hchar (by simp only [heq])
        rw [if_pos hchar, decide_eq_false hne]

/-- **The comparison** finds the name of a record the same exactly if it is. -/
theorem sameName_eq (hbs : 0 < dir.blockSize) (hsize : dir.sizeInBytes < 4294967296) (h : RecordAt dir offset r)
    (hend : offset + r.length ≤ dir.sizeInBytes) (hp : CString p name) :
    sameName dir offset (dir.byte (offset + 6)) p 0 = some (decide (r.name = name)) :=
  sameName_from hbs hsize h hend hp r.name.length 0 (Nat.zero_add _) (Nat.zero_le _) rfl

/-! ## The scan -/

theorem readRecord_eq (hbs : 0 < dir.blockSize) (hsize : dir.sizeInBytes < 4294967296)
    (h : RecordAt dir offset r)
    (hend : offset + r.length ≤ dir.sizeInBytes) :
    readRecord dir offset = some (r.inode, r.length, dir.byte (offset + 6)) := by
  have hroom := h.room
  rw [readRecord, u32_of_lt (by omega), u32_of_lt (by omega), u32_of_lt (by omega), Nat.add_zero,
    BlockIo.readNumber_eq hbs (by omega), BlockIo.readNumber_eq hbs (by omega), readNumber_byte hbs (by omega),
    Option.bind_some, Option.bind_some, Option.map_some, UInt8.ofNat_toNat, h.inode, h.length]

theorem Records.le :
    ∀ {rs : List DirRecord} {offset : Nat}, Records dir offset rs → offset ≤ dir.sizeInBytes := by
  intro rs
  induction rs with
  | nil =>
    intro offset h
    exact Nat.le_of_eq h
  | cons r rs ih =>
    intro offset h
    have := ih h.2
    omega

/-- What `find_one` finds: the node of the first record with the name, in use or not. -/
def firstNamed (fs : Ext2) (rs : List DirRecord) (name : List UInt8) : Result :=
  match rs.find? fun r => r.name = name with
  | none => .null
  | some r => fs.getNode r.inode

/-- **The scan** of records, by induction on them. -/
theorem findOne_ends (hbs : 0 < dir.blockSize) (hsize : dir.sizeInBytes < 4294967296) (hp : CString p name) :
    ∀ {rs : List DirRecord} {offset : Nat}, Records dir offset rs →
      Loops.Ends (findOneRound fs dir p) offset (firstNamed fs rs name) := by
  intro rs
  induction rs with
  | nil =>
    intro offset h
    apply Loops.Ends.leaves
    rw [findOneRound, if_neg (by rw [show offset = dir.sizeInBytes from h]; omega)]
    rfl
  | cons r rs ih =>
    intro offset h
    obtain ⟨hr, hrest⟩ := h
    have hend := hrest.le
    have hroom := hr.room
    have hround : findOneRound fs dir p offset =
        if r.name = name then .inr (fs.getNode r.inode) else .inl (u32 (offset + r.length)) := by
      rw [findOneRound, if_pos (by omega), readRecord_eq hbs hsize hr hend]
      simp only
      rw [sameName_eq hbs hsize hr hend hp]
      by_cases hname : r.name = name
      · rw [if_pos hname, decide_eq_true hname]
      · rw [if_neg hname, decide_eq_false hname]
    by_cases hname : r.name = name
    · rw [if_pos hname] at hround
      rw [firstNamed, List.find?_cons_of_pos (by simpa using hname)]
      exact Loops.Ends.leaves hround
    · rw [if_neg hname, u32_of_lt (by omega)] at hround
      rw [firstNamed, List.find?_cons_of_neg (by simpa using hname), Loops.ends_iff_of_goes hround]
      exact ih hrest

/-! ## Records that are not in use -/

theorem getNode_zero (fs : Ext2) : fs.getNode 0 = .null := if_pos rfl

theorem getNode_ne_null (fs : Ext2) {number : Nat} (hne : number ≠ 0) : fs.getNode number ≠ .null := by
  intro hnull
  rcases fs.getNode_cases hne with h | ⟨data, h⟩
  · rw [hnull] at h
    cases h
  · rw [hnull] at h
    cases h

/-- The first record with the name is the first in use with the name, if it is in use. -/
theorem find?_used (hfirst : (rs.find? fun r => r.name = name) = some r) (hused : r.inode ≠ 0) :
    (rs.find? fun r => r.inode ≠ 0 ∧ r.name = name) = some r := by
  rw [List.find?_eq_some_iff_append] at hfirst ⊢
  obtain ⟨hname, before, after, rfl, hbefore⟩ := hfirst
  refine ⟨by simpa using ⟨hused, of_decide_eq_true hname⟩, before, after, rfl, ?_⟩
  intro r' hr'
  have := hbefore r' hr'
  simp_all

/-- A name stands for nothing exactly if no record in use has it. -/
theorem firstUsed_eq_null_iff (fs : Ext2) (rs : List DirRecord) (name : List UInt8) :
    firstUsed fs rs name = .null ↔ ∀ r ∈ rs, r.inode ≠ 0 → r.name ≠ name := by
  rw [firstUsed]
  cases hfind : rs.find? fun r => r.inode ≠ 0 ∧ r.name = name with
  | none =>
    have hnone := List.find?_eq_none.1 hfind
    refine ⟨fun _ r hr hused hname => hnone r hr ?_, fun _ => rfl⟩
    simpa using ⟨hused, hname⟩
  | some r =>
    have hr := List.find?_some hfind
    simp only [ne_eq, decide_eq_true_eq] at hr
    refine ⟨fun hnull => absurd hnull (getNode_ne_null fs hr.1), fun hall => ?_⟩
    exact absurd hr.2 (hall r (List.mem_of_find?_eq_some hfind) hr.1)

/-- **Names**: for every well-formed directory and every name, `find_one` comes to an end, and finds what
    the name stands for if and only if the first record with the name is in use or no record in use has the
    name. -/
theorem findOne_firstUsed_iff (fs : Ext2) (dir : BlockIo) (rs : List DirRecord) (p : Nat → UInt8)
    (name : List UInt8)
    (hbs : 0 < dir.blockSize) (hsize : dir.sizeInBytes < 4294967296) (hrecords : Records dir 0 rs)
    (hname : CString p name) :
    ∃ found, Loops.Ends (findOneRound fs dir p) 0 found ∧
      (found = firstUsed fs rs name ↔
        (∀ r, (rs.find? fun r => r.name = name) = some r → r.inode ≠ 0) ∨
        ∀ r ∈ rs, r.inode ≠ 0 → r.name ≠ name) := by
  refine ⟨_, findOne_ends hbs hsize hname hrecords, ?_⟩
  rw [← firstUsed_eq_null_iff fs rs name, firstNamed]
  cases hfind : rs.find? fun r => r.name = name with
  | none =>
    have hnull : firstUsed fs rs name = .null := by
      rw [firstUsed_eq_null_iff]
      intro r hr _ heq
      exact List.find?_eq_none.1 hfind r hr (by simpa using heq)
    simp [hnull]
  | some r =>
    by_cases hused : r.inode = 0
    · simp only [hused, getNode_zero]
      constructor
      · intro h
        exact Or.inr h.symm
      · rintro (h | h)
        · exact absurd hused (h r rfl)
        · exact h.symm
    · have hfirst : firstUsed fs rs name = fs.getNode r.inode := by
        rw [firstUsed, find?_used hfind hused]
      rw [hfirst]
      refine ⟨fun _ => Or.inl ?_, fun _ => rfl⟩
      intro r' hr'
      rw [← Option.some.inj hr']
      exact hused

/-- A directory whose first record is not in use, and has the name of the second. -/
def staleDir : BlockIo :=
  ⟨1024, 24, fun _ i => [0, 0, 0, 0, 12, 0, 1, 0, 97, 0, 0, 0, 2, 0, 0, 0, 12, 0, 1, 2, 97, 0, 0, 0].getD i 0⟩

/-- Its records. -/
def staleRecords : List DirRecord := [⟨0, 12, [97]⟩, ⟨2, 12, [97]⟩]

/-- A file system of eight nodes. -/
def smallFs : Ext2 := ⟨⟨512, 4096, fun _ _ => 0⟩, 1024, 8, 4, 128, 1, fun _ => 1, 8⟩

/-- The name `a`. -/
def nameA : Nat → UInt8 := fun i => if i = 0 then 97 else 0

theorem staleDir_records : Records staleDir 0 staleRecords := by
  have h₁ : RecordAt staleDir 0 ⟨0, 12, [97]⟩ :=
    ⟨by decide, by decide, by decide, by decide, by decide, by decide, by decide⟩
  have h₂ : RecordAt staleDir 12 ⟨2, 12, [97]⟩ :=
    ⟨by decide, by decide, by decide, by decide, by decide, by decide, by decide⟩
  exact ⟨h₁, h₂, rfl⟩

theorem nameA_cString : CString nameA [97] := by
  refine ⟨?_, rfl, by decide⟩
  intro i hi
  obtain rfl : i = 0 := by simpa using hi
  rfl

theorem findOne_firstUsed_iff_staleDir : ∃ found, Loops.Ends (findOneRound smallFs staleDir nameA) 0 found ∧
    found ≠ firstUsed smallFs staleRecords [97] := by
  obtain ⟨found, hends, hiff⟩ :=
    findOne_firstUsed_iff smallFs staleDir staleRecords nameA [97] (by decide) (by decide)
    staleDir_records nameA_cString
  refine ⟨found, hends, fun heq => ?_⟩
  rcases hiff.1 heq with h | h
  · exact h ⟨0, 12, [97]⟩ rfl rfl
  · exact h ⟨2, 12, [97]⟩ (by decide) (by decide) rfl

/-- **The defect**: the file `a` was made again after it was removed, and is not found. -/
theorem findOne_stale : firstUsed smallFs staleRecords [97] ≠ .null ∧ ¬ ∀ (fs : Ext2) (dir : BlockIo)
    (rs : List DirRecord) (p : Nat → UInt8) (name : List UInt8), 0 < dir.blockSize →
    dir.sizeInBytes < 4294967296 →
      Records dir 0 rs → CString p name → Loops.Ends (findOneRound fs dir p) 0 (firstUsed fs rs name) := by
  have hused : firstUsed smallFs staleRecords [97] ≠ .null := by
    rw [ne_eq, firstUsed_eq_null_iff]
    intro h
    exact h ⟨2, 12, [97]⟩ (by decide) (by decide) rfl
  refine ⟨hused, fun hall => ?_⟩
  have hends : Loops.Ends (findOneRound smallFs staleDir nameA) 0 .null :=
    findOne_ends (by decide) (by decide) nameA_cString staleDir_records
  have h := hall smallFs staleDir staleRecords nameA [97] (by decide) (by decide) staleDir_records nameA_cString
  exact hused (h.unique hends)

end BadApple.Ext2
