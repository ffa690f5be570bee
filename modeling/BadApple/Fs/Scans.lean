/-
  Whether the scans of a directory end (kernel/ext2.cc, kernel/ext2.h).

  1. **The way** — from record to record, whatever is searched or reported: each offset is the one before
     plus the length found there, as a 32-bit sum.
  2. **The defect** — neither scan looks at the length; a record of length 0 is passed over again and again,
     and in a very large directory the sum can wrap around to a record that was passed before.
  3. **The result** — `scans_terminate_iff`: the scans end exactly if the way does not come back to a record
     while it passes over records.  Up to 2³² - 65535 bytes, that is that no record passed over has length
     0.
-/
import BadApple.Fs.Directory
import Mathlib.Data.Set.Finite.Basic

namespace BadApple.Ext2

open Loops

/-! ## The way -/

/-- The length in the record at `offset`. -/
def lengthAt (dir : BlockIo) (offset : Nat) : Nat := (dir.readNumber (u32 (offset + 4)) 2).getD 0

/-- Where the record after that at `offset` starts. -/
def nextRecord (dir : BlockIo) (offset : Nat) : Nat := u32 (offset + lengthAt dir offset)

/-- `find_one` passes over the record at `offset`: it is read and has another name. -/
def Misses (dir : BlockIo) (p : Nat → UInt8) (offset : Nat) : Prop :=
  offset < dir.sizeInBytes ∧ ∃ inode length nameLength,
    readRecord dir offset = some (inode, length, nameLength) ∧ sameName dir offset nameLength p 0 = some false

/-- `entries` can report the record at `offset`: it is read, with its name. -/
def Readable (dir : BlockIo) (offset : Nat) : Prop :=
  offset < dir.sizeInBytes ∧ ∃ inode length nameLength name,
    readRecord dir offset = some (inode, length, nameLength) ∧
      dir.readThing (u32 (offset + 8)) nameLength.toNat = some name

/-- Over records that are passed over, the way never comes back to one. -/
def NeverBack (dir : BlockIo) (pass : Nat → Prop) : Prop := NoReturn (nextRecord dir) pass 0

variable {fs : Ext2} {dir : BlockIo} {p : Nat → UInt8} {offset inode length : Nat} {nameLength : UInt8}

theorem lengthAt_of_readRecord (h : readRecord dir offset = some (inode, length, nameLength)) :
    lengthAt dir offset = length := by
  obtain ⟨_, _, h⟩ := Option.bind_eq_some_iff.1 h
  obtain ⟨length', hlength, h⟩ := Option.bind_eq_some_iff.1 h
  obtain ⟨_, _, h⟩ := Option.map_eq_some_iff.1 h
  rw [lengthAt, hlength]
  exact (Prod.mk.inj (Prod.mk.inj h).2).1

theorem nextRecord_eq (h : readRecord dir offset = some (inode, length, nameLength)) :
    nextRecord dir offset = u32 (offset + length) := by
  rw [nextRecord, lengthAt_of_readRecord h]

/-- The length is a 16-bit word. -/
theorem lengthAt_lt (dir : BlockIo) (offset : Nat) : lengthAt dir offset < 65536 := by
  rw [lengthAt, BlockIo.readNumber, BlockIo.readThing]
  split
  · exact littleEndian_lt (dir.readAll_length 2 _)
  · decide

/-! ## The scans -/

/-- A round of `find_one` goes on to the next record exactly if it passes over this one. -/
theorem findOneRound_pass (h : Misses dir p offset) :
    findOneRound fs dir p offset = .inl (nextRecord dir offset) := by
  obtain ⟨hlt, inode, length, nameLength, hread, hsame⟩ := h
  rw [findOneRound, if_pos hlt, hread]
  simp only
  rw [hsame, nextRecord_eq hread]

theorem findOneRound_leaves (fs : Ext2) (h : ¬ Misses dir p offset) :
    ∃ r, findOneRound fs dir p offset = .inr r := by
  rw [findOneRound]
  by_cases hlt : offset < dir.sizeInBytes
  · rw [if_pos hlt]
    cases hread : readRecord dir offset with
    | none => exact ⟨_, rfl⟩
    | some record =>
      obtain ⟨inode, length, nameLength⟩ := record
      simp only
      cases hsame : sameName dir offset nameLength p 0 with
      | none => exact ⟨_, rfl⟩
      | some same =>
        cases same with
        | true => exact ⟨_, rfl⟩
        | false => exact absurd ⟨hlt, inode, length, nameLength, hread, hsame⟩ h
  · rw [if_neg hlt]
    exact ⟨_, rfl⟩

section Entries

variable {σ : Type} {work : Entry → σ → Nat × σ} {s s' : Nat × σ}

/-- A round of `entries` that goes on goes on to the next record. -/
theorem entriesRound_goes (h : entriesRound dir work s = .inl s') : s'.1 = nextRecord dir s.1 := by
  rw [entriesRound] at h
  by_cases hlt : s.1 < dir.sizeInBytes
  · rw [if_pos hlt] at h
    cases hread : readRecord dir s.1 with
    | none =>
      rw [hread] at h
      cases h
    | some record =>
      obtain ⟨inode, length, nameLength⟩ := record
      rw [hread] at h
      simp only at h
      cases hname : dir.readThing (u32 (s.1 + 8)) nameLength.toNat with
      | none =>
        rw [hname] at h
        cases h
      | some name =>
        rw [hname] at h
        simp only at h
        split at h
        · cases h
        · rw [← Sum.inl.inj h, nextRecord_eq hread]
  · rw [if_neg hlt] at h
    cases h

theorem entriesRound_leaves (h : ¬ Readable dir s.1) : ∃ r, entriesRound dir work s = .inr r := by
  rw [entriesRound]
  by_cases hlt : s.1 < dir.sizeInBytes
  · rw [if_pos hlt]
    cases hread : readRecord dir s.1 with
    | none => exact ⟨_, rfl⟩
    | some record =>
      obtain ⟨inode, length, nameLength⟩ := record
      simp only
      cases hname : dir.readThing (u32 (s.1 + 8)) nameLength.toNat with
      | none => exact ⟨_, rfl⟩
      | some name => exact absurd ⟨hlt, inode, length, nameLength, name, hread, hname⟩ h
  · rw [if_neg hlt]
    exact ⟨_, rfl⟩

/-- Work that reports nothing, as in `entry_count`, lets the scan go on. -/
theorem entriesRound_pass (hwork : ∀ e k, (work e k).1 = 0) (h : Readable dir s.1) :
    ∃ s', entriesRound dir work s = .inl s' ∧ s'.1 = nextRecord dir s.1 := by
  obtain ⟨hlt, inode, length, nameLength, name, hread, hname⟩ := h
  rw [entriesRound, if_pos hlt, hread]
  simp only
  rw [hname]
  simp only
  rw [if_neg (by rw [hwork]; simp), nextRecord_eq hread]
  exact ⟨_, rfl, rfl⟩

end Entries

/-- `entry_count`: the work that counts. -/
def countEntry : Entry → Nat → Nat × Nat := fun _ count => (0, u32 (count + 1))

/-! ## The end -/

theorem inside_finite (dir : BlockIo) :
    {o : Nat | o < dir.sizeInBytes}.Finite := Set.finite_lt_nat dir.sizeInBytes

/-- **Without a wrap**, the way comes back only from a record of length 0. -/
theorem neverBack_iff {pass : Nat → Prop} (hsmall : dir.sizeInBytes ≤ 4294901761)
    (hpass : ∀ o, pass o → o < dir.sizeInBytes) :
    NeverBack dir pass ↔ ∀ k, (∀ j, j ≤ k → pass ((nextRecord dir)^[j] 0)) →
      lengthAt dir ((nextRecord dir)^[k] 0) ≠ 0 := by
  have hnext : ∀ o, pass o → nextRecord dir o = o + lengthAt dir o := by
    intro o ho
    have hlt := hpass o ho
    have hlen := lengthAt_lt dir o
    exact u32_of_lt (by omega)
  constructor
  · intro hnever k hk hzero
    refine hnever k (k + 1) (Nat.lt_succ_self k) (fun j hj => hk j (Nat.le_of_lt_succ hj)) ?_
    rw [Function.iterate_succ_apply', hnext _ (hk k (Nat.le_refl k)), hzero, Nat.add_zero]
  · intro hall i j hij hbefore
    -- each record passed over is behind the one before
    have hrise : ∀ d, i + d < j → (nextRecord dir)^[i] 0 < (nextRecord dir)^[i + d + 1] 0 := by
      intro d
      induction d with
      | zero =>
        intro hd
        have hlen := hall i fun k hk => hbefore k (by omega)
        rw [Nat.add_zero, Function.iterate_succ_apply', hnext _ (hbefore i (by omega))]
        omega
      | succ d ih =>
        intro hd
        have hlt := ih (by omega)
        rw [Function.iterate_succ_apply', hnext _ (hbefore (i + (d + 1)) hd)]
        rw [Nat.add_assoc] at hlt
        omega
    have hlast := hrise (j - i - 1) (by omega)
    rw [show i + (j - i - 1) + 1 = j by omega] at hlast
    exact Nat.ne_of_lt hlast

/-- **The scans end**, `find_one` for a name, and `entries` whatever its work is, if and only if their way
    does not come back to a record while it passes over records; in a directory of up to 2³² - 65535 bytes,
    this is so if and only if no record that is passed over has length 0. -/
theorem scans_terminate_iff (dir : BlockIo) :
    (∀ (fs : Ext2) (p : Nat → UInt8), Terminates (findOneRound fs dir p) 0 ↔ NeverBack dir (Misses dir p)) ∧
    ((∀ (σ : Type) (work : Entry → σ → Nat × σ) (kept : σ), Terminates (entriesRound dir work) (0, kept)) ↔
      NeverBack dir (Readable dir)) ∧
    (dir.sizeInBytes ≤ 4294901761 → ∀ pass, (pass = Readable dir ∨ ∃ p, pass = Misses dir p) →
      (NeverBack dir pass ↔ ∀ k, (∀ j, j ≤ k → pass ((nextRecord dir)^[j] 0)) →
        lengthAt dir ((nextRecord dir)^[k] 0) ≠ 0)) := by
  have hmisses : ∀ p o, Misses dir p o → o ∈ {o : Nat | o < dir.sizeInBytes} := fun _ _ h => h.1
  have hreadable : ∀ o, Readable dir o → o ∈ {o : Nat | o < dir.sizeInBytes} := fun _ h => h.1
  refine ⟨?_, ?_, ?_⟩
  · intro fs p
    have hpass : ∀ o, Misses dir p o → ∃ o', findOneRound fs dir p o = .inl o' ∧ o' = nextRecord dir o :=
      fun o h => ⟨_, findOneRound_pass h, rfl⟩
    constructor
    · intro h
      exact noReturn_of_terminates (fun o => o) hpass h
    · intro h
      refine terminates_of_noReturn (fun o => o) (inside_finite dir) (hmisses p) ?_ ?_ h
      · intro o o' hround
        by_cases ho : Misses dir p o
        · rw [findOneRound_pass ho] at hround
          exact (Sum.inl.inj hround).symm
        · obtain ⟨r, hr⟩ := findOneRound_leaves fs ho
          rw [hr] at hround
          cases hround
      · intro o ho
        exact findOneRound_leaves fs ho
  · constructor
    · intro hall
      refine noReturn_of_terminates Prod.fst (fun s hs => ?_) (hall Nat countEntry 0)
      exact entriesRound_pass (fun _ _ => rfl) hs
    · intro h σ work kept
      exact terminates_of_noReturn Prod.fst (inside_finite dir) hreadable
        (fun _ _ hround => entriesRound_goes hround) (fun _ hs => entriesRound_leaves hs) h
  · intro hsmall pass hpass
    refine neverBack_iff hsmall ?_
    rcases hpass with rfl | ⟨p, rfl⟩
    · exact hreadable
    · exact hmisses p

/-- A directory whose only record has length 0. -/
def zeroDir : BlockIo := ⟨1024, 12, fun _ _ => 0⟩

/-- **The defect**: neither scan ends. -/
theorem scans_hang : ¬ Terminates (findOneRound smallFs zeroDir nameA) 0 ∧
    ¬ Terminates (entriesRound zeroDir countEntry) (0, 0) := by
  have hread : readRecord zeroDir 0 = some (0, 0, 0) := by
    rw [readRecord, u32_of_lt (by decide), u32_of_lt (by decide), u32_of_lt (by decide),
      BlockIo.readNumber_eq (by decide) (by decide), BlockIo.readNumber_eq (by decide) (by decide),
      BlockIo.readNumber_eq (by decide) (by decide)]
    decide
  have hsame : sameName zeroDir 0 0 nameA 0 = some false := by
    rw [sameName, if_neg (by decide), Option.bind_some, if_pos (by decide)]
  have hname : zeroDir.readThing (u32 (0 + 8)) (0 : UInt8).toNat = some [] := by
    rw [u32_of_lt (by decide), BlockIo.readThing_eq (by decide) (by decide)]
    rfl
  have hback : (nextRecord zeroDir)^[0] 0 = (nextRecord zeroDir)^[1] 0 := by
    rw [Function.iterate_zero, Function.iterate_one, nextRecord_eq hread, u32_of_lt (by decide)]
    rfl
  have honly : ∀ {pass : Nat → Prop}, pass 0 → ∀ k, k < 1 → pass ((nextRecord zeroDir)^[k] 0) := by
    intro pass hpass k hk
    obtain rfl : k = 0 := by omega
    exact hpass
  constructor
  · intro h
    have hnever := noReturn_of_terminates (fun o => o)
      (fun (o : Nat) (ho : Misses zeroDir nameA o) => ⟨_, findOneRound_pass ho, rfl⟩) h
    exact hnever 0 1 Nat.one_pos (honly ⟨by decide, 0, 0, 0, hread, hsame⟩) hback
  · intro h
    have hnever := noReturn_of_terminates Prod.fst
      (fun (s : Nat × Nat) (hs : Readable zeroDir s.1) => entriesRound_pass (fun _ _ => rfl) hs) h
    exact hnever 0 1 Nat.one_pos (honly ⟨by decide, 0, 0, 0, [], hread, hname⟩) hback

end BadApple.Ext2
