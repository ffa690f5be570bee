/-
  The buffers of `read` and `write` (kernel/sys.cc).

  1. **The check** — `address_valid` compares `addr + size`, a 32-bit sum, with the largest 32-bit word; so
     all it rejects is a buffer that begins below the user's memory.
  2. **The copy** — `read` and `write` go through the buffer byte by byte, and at the end of the address
     space on at 0.
  3. **The result** — `buffers_iff`: a buffer that passes lies in the user's memory, and the call keeps to
     it, if and only if it does not run over the end of the address space.
-/
import BadApple.Sys.Arguments
import BadApple.Sys.ReadFile

namespace BadApple

open Effects

namespace Sys

variable {m : Machine} {P : Access → Prop} {fd buf nbyte a : Nat}

/-! ## The check -/

/-- `address_valid` lets every buffer pass that does not begin below the user's memory. -/
theorem addressValid_iff (buf nbyte : Nat) : addressValid buf nbyte = true ↔ 0x80000000 ≤ buf := by
  have hsum := u32_lt (buf + nbyte)
  rw [addressValid, Bool.and_eq_true, decide_eq_true_eq, decide_eq_true_eq]
  omega

/-- Every byte of the buffer, computed without wrap-around, is in the user's memory. -/
def BufferInUser (buf nbyte : Nat) : Prop :=
  ∀ k, k < nbyte → 0x80000000 ≤ buf + k ∧ buf + k < 4294967296

theorem bufferInUser_iff (hlow : 0x80000000 ≤ buf) (hbuf : buf < 4294967296) :
    BufferInUser buf nbyte ↔ buf + nbyte ≤ 4294967296 := by
  constructor
  · intro h
    by_contra hover
    have hlast := (h (nbyte - 1) (by omega)).2
    omega
  · intro h k hk
    omega

/-! ## The copy -/

/-- Bytes that are stored in the user's memory. -/
theorem logs_storeBytes_inUser (hstore : ∀ a, 0x80000000 ≤ a → P (.store a)) (l : List UInt8) (a : Nat)
    (m : Machine) (hlow : 0x80000000 ≤ a) (hbound : a + l.length ≤ 4294967296) :
    Logs P (storeBytes a l) m := by
  refine logs_storeBytes_at l a m (fun hne => ?_) fun k hk => ?_
  · have hpos := List.length_pos_of_ne_nil hne
    omega
  · rw [u32_of_lt (by omega)]
    exact hstore _ (by omega)

/-- `read` keeps to a buffer that does not run over the end of the address space. -/
theorem logs_read_inUser (htable : ∀ t i, P (.table t i)) (hstore : ∀ a, 0x80000000 ≤ a → P (.store a))
    (hbuf : buf < 0x80000000 ∨ buf + nbyte ≤ 4294967296) : Logs P (read fd buf nbyte) m := by
  rw [read]
  by_cases hbad : (!addressValid buf nbyte || decide (fd ≥ pcbArrSize)) = true
  · rw [if_pos hbad]
    exact Logs.pure
  · rw [if_neg hbad]
    have hlow : 0x80000000 ≤ buf := by
      by_contra hlow
      apply hbad
      rw [Bool.eq_false_iff.2 fun h => hlow ((addressValid_iff buf nbyte).1 h)]
      rfl
    refine Logs.bind (spec_index (htable _ _)) ?_
    rintro v _ ⟨-, rfl⟩
    cases v with
    | none => exact Logs.pure
    | some r =>
      refine Logs.bind spec_getState ?_
      rintro _ _ ⟨rfl, rfl⟩
      cases (m.files r).node with
      | none => exact Logs.pure
      | some node =>
        refine Logs.bind (Q := fun _ _ => True) ?_ ?_
        · refine Logs.bind spec_getState ?_
          rintro _ _ ⟨rfl, rfl⟩
          cases node with
          | ext2 i =>
            have hlen := (m.fs.node i).io.readAll_length nbyte (m.files r).offset
            refine Logs.bind (logs_storeBytes_inUser hstore _ buf m hlow (by omega)) ?_
            exact fun _ _ _ => Logs.pure
          | _ => exact Logs.pure
        · exact fun _ _ _ => Logs.bind spec_setOffset fun _ _ _ => Logs.pure

/-- `write` keeps to such a buffer too. -/
theorem logs_write_inUser (htable : ∀ t i, P (.table t i)) (hload : ∀ a, 0x80000000 ≤ a → P (.load a))
    (hbuf : 0x80000000 ≤ nbyte ∨ buf < 0x80000000 ∨ buf + nbyte ≤ 4294967296) :
    Logs P (write fd buf nbyte) m := by
  rw [write]
  by_cases hbad : (decide (nbyte ≥ 0x80000000) || !addressValid buf nbyte || decide (fd ≥ pcbArrSize)) = true
  · rw [if_pos hbad]
    exact Logs.pure
  · rw [if_neg hbad]
    obtain ⟨hsmall, hlow⟩ : nbyte < 0x80000000 ∧ 0x80000000 ≤ buf := by
      rw [← addressValid_iff buf nbyte]
      cases hvalid : addressValid buf nbyte <;> simp [hvalid] at hbad ⊢
      exact hbad.1
    have hread : Spec P (loadBytes nbyte buf) m (fun _ m' => m = m') fun _ _ => True :=
      spec_loadBytes_inUser hload (fun _ => trivial) nbyte buf hlow (by omega)
    refine Logs.bind (spec_index (htable _ _)) ?_
    rintro v _ ⟨-, rfl⟩
    cases v with
    | none => exact Logs.pure
    | some r =>
      refine Logs.bind spec_getState ?_
      rintro _ _ ⟨rfl, rfl⟩
      cases (m.files r).node with
      | none => exact Logs.pure
      | some node =>
        refine Logs.bind (Q := fun _ _ => True) ?_ ?_
        · cases node with
          | stdout => exact Logs.bind hread fun _ _ _ => Logs.pure
          | stderr => exact Logs.bind hread fun _ _ _ => Logs.pure
          | _ => exact Logs.pure
        · exact fun _ _ _ => Logs.bind spec_setOffset fun _ _ _ => Logs.pure

/-! ## The result -/

/-- What is promised of `read`: a buffer that passes the check is in the user's memory, and nothing below it
    is touched. -/
def ReadKeepsToUser (fd buf nbyte : Nat) (m : Machine) : Prop :=
  (addressValid buf nbyte = true → BufferInUser buf nbyte) ∧ ∀ x ∈ (read fd buf nbyte m).log, AboveKernel x

/-- What is promised of `write`, the length of which is signed. -/
def WriteKeepsToUser (fd buf nbyte : Nat) (m : Machine) : Prop :=
  (nbyte < 0x80000000 → addressValid buf nbyte = true → BufferInUser buf nbyte) ∧
    ∀ x ∈ (write fd buf nbyte m).log, AboveKernel x

/-- **Buffers**: for every machine, descriptor, buffer and length, `read` and `write` keep to the user's
    memory if and only if the buffer is rejected or does not run over the end of the address space. -/
theorem buffers_iff (m : Machine) (fd : Nat) {buf : Nat} (hbuf : buf < 4294967296) (nbyte : Nat) :
    (ReadKeepsToUser fd buf nbyte m ↔ buf < 0x80000000 ∨ buf + nbyte ≤ 4294967296) ∧
    (WriteKeepsToUser fd buf nbyte m ↔
      0x80000000 ≤ nbyte ∨ buf < 0x80000000 ∨ buf + nbyte ≤ 4294967296) := by
  have htables : ∀ t i, AboveKernel (.table t i) := fun _ _ => trivial
  have hpasses : ∀ {n : Nat},
      (0x80000000 ≤ buf → BufferInUser buf n) ↔ buf < 0x80000000 ∨ buf + n ≤ 4294967296 := by
    intro n
    constructor
    · intro h
      by_cases hlow : 0x80000000 ≤ buf
      · exact Or.inr ((bufferInUser_iff hlow hbuf).1 (h hlow))
      · exact Or.inl (Nat.lt_of_not_le hlow)
    · rintro (hrejected | hfits) hlow
      · omega
      · exact (bufferInUser_iff hlow hbuf).2 hfits
  constructor
  · unfold ReadKeepsToUser
    rw [addressValid_iff, hpasses]
    exact ⟨fun h => h.1, fun h => ⟨h, (logs_read_inUser htables (fun _ h => h) h).log⟩⟩
  · unfold WriteKeepsToUser
    rw [addressValid_iff, hpasses]
    constructor
    · intro h
      by_cases hsmall : nbyte < 0x80000000
      · exact Or.inr (h.1 hsmall)
      · exact Or.inl (Nat.le_of_not_lt hsmall)
    · intro h
      exact ⟨fun hsmall => h.resolve_left (by omega), (logs_write_inUser htables (fun _ h => h) h).log⟩

/-- The main result for one buffer on the stack. -/
theorem buffers_iff_stack :
    (ReadKeepsToUser 3 0x87FFFF00 16 fileProcess ↔ 0x87FFFF00 < 0x80000000 ∨ 0x87FFFF00 + 16 ≤ 4294967296) ∧
    (WriteKeepsToUser 3 0x87FFFF00 16 fileProcess ↔
      0x80000000 ≤ 16 ∨ 0x87FFFF00 < 0x80000000 ∨ 0x87FFFF00 + 16 ≤ 4294967296) :=
  buffers_iff fileProcess 3 (by decide) 16

/-- The first process when it has opened a file: it has the pages of its stack, and no others. -/
def stackProcess : Machine := { fileProcess with mapped := fun _ => false }

/-- **The defect**: two bytes at the last address of the address space pass the check, though the second is not
    in the user's memory.  Were the page of the first there, the second would be stored at 0. -/
theorem buffers_wrap : ¬ ReadKeepsToUser 3 0xFFFFFFFF 2 stackProcess ∧
    (.store 0 ∈ (read 3 0xFFFFFFFF 2 fileProcess).log ∧ fileProcess.mem 0 = 0 ∧
      (read 3 0xFFFFFFFF 2 fileProcess).state.mem 0 = 66) := by
  refine ⟨?_, by decide +kernel, rfl, by decide +kernel⟩
  rintro ⟨hcheck, -⟩
  have hin := hcheck (by decide +kernel)
  rw [bufferInUser_iff (by decide) (by decide)] at hin
  exact absurd hin (by decide)

end Sys

end BadApple
