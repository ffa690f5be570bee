/-
  Where `ELF::load` writes (kernel/elf.cc, kernel/machine.S).

  1. **What is written** — for a segment, the bytes that the file has of those asked for, and then zeros:
     `bzero` takes the difference of two unsigned words for a signed count.
  2. **The defect** — the check looks at the sum of address and size, as a 32-bit word, and never at `filesz`.
     So a segment may wrap around, more may be copied than there is room for, and when `filesz` is larger
     than `memsz` by more than 2³¹, the zeros run through all that is above and then below the segment.
  3. **Specification** — `InSegments io a`: a segment of the file that lies in the user range has `a`.
  4. **The result** — `writes_inside_iff`: only such addresses are written, whatever the state of the address
     space, exactly if all that spills from a segment (`Spills`) falls into such a segment again.
-/
import BadApple.Elf.Load

namespace BadApple.Elf

open Effects
open Sys (Access Logs storeBytes sub)

/-! ## What is written -/

/-- **An address of a segment to load** that lies in the user range. -/
def InSegments (io : BlockIo) (a : Nat) : Prop :=
  ∃ hdr i ph, header io = some hdr ∧ i < hdr.phnum ∧ programHeader io hdr i = some ph ∧ ph.type = 1 ∧
    ph.InUserRange ∧ ph.Has a

/-- How many bytes are copied, `size` being the size of the file. -/
def ProgramHeader.available (ph : ProgramHeader) (size : Nat) : Nat := min ph.filesz (size - ph.offset)

/-- How many bytes are zeroed. -/
def ProgramHeader.zeros (ph : ProgramHeader) : Nat := Machine.rounds (sub ph.memsz ph.filesz)

/-- Byte `k` from `vaddr` on is written. -/
def ProgramHeader.Writes (ph : ProgramHeader) (size k : Nat) : Prop :=
  k < ph.available size ∨ (ph.filesz ≤ k ∧ k < ph.filesz + ph.zeros)

/-- **Byte `k` from `vaddr` on spills**: it is copied from beyond the segment, or it is a zero below the
    segment; of a segment that wraps around, it is any byte that is written. -/
def ProgramHeader.Spills (ph : ProgramHeader) (size k : Nat) : Prop :=
  if ph.vaddr + ph.memsz < 4294967296 then
    (ph.memsz ≤ k ∧ k < ph.available size) ∨
      (ph.memsz + 2147483648 < ph.filesz ∧ ph.filesz ≤ k ∧ k < 4294967296)
  else ph.Writes size k

/-- `load` goes on to the next header. -/
def ProgramHeader.Passes (ph : ProgramHeader) : Prop := ph.type = 1 → ph.rejected = false

/-- **A segment that is loaded**: its header is accepted, and so are those before it. -/
def Reached (io : BlockIo) (ph : ProgramHeader) : Prop :=
  ∃ hdr i, header io = some hdr ∧ i < hdr.phnum ∧ programHeader io hdr i = some ph ∧
    (∀ j, j < i → ∃ q, programHeader io hdr j = some q ∧ q.Passes) ∧ ph.type = 1 ∧ ph.rejected = false

variable {io : BlockIo} {hdr : ElfHeader} {ph : ProgramHeader} {m : Sys.Machine} {size k i j n a : Nat}
  {x : Access}

/-- The fields of a header are words. -/
theorem programHeader_lt (h : programHeader io hdr i = some ph) :
    ph.vaddr < 4294967296 ∧ ph.filesz < 4294967296 ∧ ph.memsz < 4294967296 := by
  obtain ⟨bytes, -, rfl⟩ := Option.map_eq_some_iff.1 h
  exact ⟨field_lt _ _, field_lt _ _, field_lt _ _⟩

/-- **The count of `bzero`**: what is missing, unless that is a negative number as a signed word.  It is
    a positive one again if `filesz` is larger by more than 2³¹. -/
theorem zeros_cases (hfile : ph.filesz < 4294967296) (hmem : ph.memsz < 4294967296) :
    (ph.filesz ≤ ph.memsz ∧ ph.zeros ≤ ph.memsz - ph.filesz) ∨
    (ph.memsz < ph.filesz ∧ ph.filesz ≤ ph.memsz + 2147483648 ∧ ph.zeros = 0) ∨
    (ph.memsz + 2147483648 < ph.filesz ∧ ph.filesz + ph.zeros = ph.memsz + 4294967296) := by
  unfold ProgramHeader.zeros sub
  by_cases hle : ph.filesz ≤ ph.memsz
  · refine .inl ⟨hle, ?_⟩
    rw [u32_of_wrap (by omega) (by omega)]
    by_cases hsmall : ph.memsz - ph.filesz < 2147483648
    · rw [Machine.rounds_of_lt (by omega)]
      omega
    · rw [Machine.rounds_of_ge (by omega) (by omega)]
      omega
  · rw [u32_of_lt (by omega)]
    by_cases hmuch : ph.memsz + 2147483648 < ph.filesz
    · refine .inr (.inr ⟨hmuch, ?_⟩)
      rw [Machine.rounds_of_lt (by omega)]
      omega
    · refine .inr (.inl ⟨by omega, by omega, ?_⟩)
      rw [Machine.rounds_of_ge (by omega) (by omega)]

/-- What spills is written. -/
theorem ProgramHeader.Spills.writes (h : ph.Spills size k) (hfile : ph.filesz < 4294967296)
    (hmem : ph.memsz < 4294967296) : ph.Writes size k := by
  unfold Spills at h
  split at h
  · rcases h with ⟨-, hcopied⟩ | ⟨hmuch, hle, hlt⟩
    · exact .inl hcopied
    · refine .inr ⟨hle, ?_⟩
      rcases zeros_cases hfile hmem with ⟨_, _⟩ | ⟨_, _, _⟩ | ⟨_, _⟩ <;> omega
  · exact h

/-- **What is written and does not spill** is in the segment, and that lies in the user range. -/
theorem ProgramHeader.Writes.inside (h : ph.Writes size k) (hspills : ¬ ph.Spills size k)
    (haccepted : ph.rejected = false) (hlt : ph.vaddr < 4294967296 ∧ ph.filesz < 4294967296 ∧
      ph.memsz < 4294967296) : ph.InUserRange ∧ ph.Has (u32 (ph.vaddr + k)) := by
  obtain ⟨hvaddr, hfile, hmem⟩ := hlt
  unfold Spills at hspills
  by_cases hwrap : ph.vaddr + ph.memsz < 4294967296
  · rw [if_pos hwrap] at hspills
    unfold rejected at haccepted
    rw [u32_of_lt hwrap, Bool.or_eq_false_iff, decide_eq_false_iff_not, decide_eq_false_iff_not] at haccepted
    refine ⟨⟨by omega, by omega⟩, ?_⟩
    -- either before the end of the segment, or once around
    have hwhere : k < ph.memsz ∨ (4294967296 ≤ k ∧ k < 4294967296 + ph.memsz) := by
      rcases h with hcopied | ⟨hle, hzero⟩
      · omega
      · rcases zeros_cases hfile hmem with ⟨_, _⟩ | ⟨_, _, _⟩ | ⟨_, _⟩ <;> omega
    rcases hwhere with hk | ⟨hk, hk'⟩
    · rw [u32_of_lt (by omega)]
      exact ⟨by omega, by omega⟩
    · rw [u32_of_wrap (by omega) (by omega)]
      exact ⟨by omega, by omega⟩
  · rw [if_neg hwrap] at hspills
    exact absurd h hspills

/-- **When nothing spills**: a segment that does not wrap around keeps to itself exactly if there are not more
    bytes to copy than it has room for, and `filesz` is not larger by more than 2³¹. -/
theorem not_spills_iff (hwrap : ph.vaddr + ph.memsz < 4294967296) (hfile : ph.filesz < 4294967296) :
    (∀ k, ¬ ph.Spills size k) ↔ ph.available size ≤ ph.memsz ∧ ph.filesz ≤ ph.memsz + 2147483648 := by
  unfold ProgramHeader.Spills
  simp only [if_pos hwrap]
  constructor
  · intro h
    constructor
    · have hfirst := h ph.memsz
      omega
    · have hfirst := h ph.filesz
      omega
  · rintro ⟨hcopy, hzero⟩ k
    omega

/-- What is read of a file is what there is. -/
theorem readAll_available (hbs : 0 < io.blockSize) :
    (io.readAll ph.offset ph.filesz).length = ph.available io.sizeInBytes := by
  unfold ProgramHeader.available
  by_cases hoff : ph.offset ≤ io.sizeInBytes
  · rw [BlockIo.readAll_eq hbs _ _ hoff, BlockIo.bytesFrom_length]
  · rw [BlockIo.readAll]
    by_cases h0 : ph.filesz = 0
    · rw [if_pos h0, h0, Nat.zero_min, List.length_nil]
    · rw [if_neg h0, BlockIo.read, if_pos (by omega)]
      show 0 = _
      omega

/-! ## Nothing else is written -/

/-- What `load` can touch: a byte that is written for a segment that is loaded. -/
def Wrote (io : BlockIo) (x : Access) : Prop :=
  ∃ ph k, Reached io ph ∧ ph.Writes io.sizeInBytes k ∧ x = .store (u32 (ph.vaddr + k))

/-- **One segment.** -/
theorem logs_loadSegment (hbs : 0 < io.blockSize) (hvaddr : ph.vaddr < 4294967296)
    (hwrote : ph.type = 1 → ph.rejected = false → Reached io ph) :
    Spec (Wrote io) (loadSegment io ph) m (fun _ _ => ph.Passes) fun _ _ => True := by
  by_cases hload : ph.type = 1
  · by_cases haccepted : ph.rejected = false
    · have hreached := hwrote hload haccepted
      rw [loadSegment_eq hload haccepted]
      refine Spec.bind Sys.spec_modify fun _ _ _ => ?_
      refine Spec.bind (Q := fun _ _ => True) (Sys.logs_storeBytes_at _ _ _ (fun _ => hvaddr) ?_) ?_
      · intro k hk
        rw [readAll_available hbs] at hk
        exact ⟨ph, k, hreached, .inl hk, rfl⟩
      · intro _ m' _
        refine (Sys.logs_storeBytes_at (P := Wrote io) _ _ m' (fun _ => u32_lt _) ?_).mono (fun _ h => h)
          (fun _ _ _ _ => haccepted) fun _ _ h => h
        intro k hk
        rw [List.length_replicate] at hk
        refine ⟨ph, ph.filesz + k, hreached, .inr ⟨Nat.le_add_right _ _, Nat.add_lt_add_left hk _⟩, ?_⟩
        rw [u32_add, Nat.add_assoc]
    · rw [loadSegment_rejected hload (eq_true_of_ne_false haccepted)]
      exact Spec.stop trivial
  · rw [loadSegment_skip hload]
    exact Spec.pure fun h => absurd h hload

/-- **The loop**, when the headers before `i` are passed. -/
theorem logs_loadSegments (hbs : 0 < io.blockSize) (hvalid : header io = some hdr) : ∀ (n i : Nat)
    (m : Sys.Machine), i + n = hdr.phnum →
    (∀ j, j < i → ∃ q, programHeader io hdr j = some q ∧ q.Passes) →
    Logs (Wrote io) (loadSegments io hdr.phentsize n (hdr.at i)) m := by
  intro n
  induction n with
  | zero => exact fun _ _ _ _ => Logs.pure
  | succ n ih =>
    intro i m hi hbefore
    cases hph : programHeader io hdr i with
    | none =>
      rw [loadSegments_none hph]
      exact Logs.stop
    | some ph =>
      rw [loadSegments_succ hph]
      refine Logs.bind (logs_loadSegment hbs (programHeader_lt hph).1 fun hload haccepted => ?_) ?_
      · exact ⟨hdr, i, hvalid, by omega, hph, hbefore, hload, haccepted⟩
      · intro _ m' hpasses
        refine ih (i + 1) m' (by omega) fun j hj => ?_
        rcases Nat.lt_succ_iff_lt_or_eq.1 hj with hlt | rfl
        · exact hbefore j hlt
        · exact ⟨ph, hph, hpasses⟩

/-- **All that `load` touches.** -/
theorem logs_load (file : Nat) : ∀ x ∈ (load file m).log, Wrote (m.fs.node file).io x := by
  cases hvalid : header (m.fs.node file).io with
  | none =>
    rw [load_invalid hvalid]
    simp
  | some hdr =>
    rw [load_eq hvalid]
    have hloop := logs_loadSegments (m.fs.node file).blockSize_pos hvalid hdr.phnum 0 m (Nat.zero_add _)
      fun j hj => absurd hj (Nat.not_lt_zero j)
    exact (Logs.bind hloop fun _ _ _ => Logs.pure).log

/-! ## All of it is written -/

/-- Every access succeeds. -/
def Open (m : Sys.Machine) : Prop := ∀ a, m.mapped a = true

theorem Open.covered (h : Open m) (a : Nat) : m.covered a = true := by
  rw [Sys.Machine.covered, h a, Bool.true_or]

/-- Then bytes are stored, -/
theorem spec_storeBytes_open (l : List UInt8) (a : Nat) (h : Open m) :
    Spec (fun _ => True) (storeBytes a l) m (fun _ m' => Open m') fun _ _ => False := by
  refine (Sys.spec_storeBytes_keeps l a m).mono (fun _ h => h) ?_ ?_
  · rintro _ _ ⟨mem, rfl⟩
    exact h
  · rintro _ _ ⟨-, ⟨b, hb⟩, -⟩
    exact hb (h.covered b)

/-- and a byte is touched when those before it can be stored. -/
theorem touches_storeBytes : ∀ (l : List UInt8) (a k : Nat) (m : Sys.Machine), a < 4294967296 → k < l.length →
    (∀ j, j < k → m.covered (u32 (a + j)) = true) → Touches (storeBytes a l) m (.store (u32 (a + k))) := by
  intro l
  induction l with
  | nil => exact fun _ _ _ _ hk => absurd hk (Nat.not_lt_zero _)
  | cons b l ih =>
    intro a k m ha hk hcov
    cases k with
    | zero =>
      rw [Nat.add_zero, u32_of_lt ha]
      exact Touches.left (List.mem_singleton_self _)
    | succ k =>
      have hfirst := hcov 0 (Nat.succ_pos _)
      rw [Nat.add_zero, u32_of_lt ha] at hfirst
      refine Touches.next (Touches.getState ?_)
      rw [if_pos hfirst]
      apply Touches.modify
      rw [← u32_next a k]
      refine ih _ k _ (u32_lt _) (Nat.lt_of_succ_lt_succ hk) fun j hj => ?_
      rw [u32_next]
      exact hcov (j + 1) (Nat.succ_lt_succ hj)

/-- **One segment** is loaded, -/
theorem spec_loadSegment_open (h : Open m) (hpasses : ph.Passes) :
    Spec (fun _ => True) (loadSegment io ph) m (fun _ m' => Open m') fun _ _ => False := by
  by_cases hload : ph.type = 1
  · rw [loadSegment_eq hload (hpasses hload)]
    refine Spec.bind Sys.spec_modify ?_
    rintro _ _ rfl
    refine Spec.bind (spec_storeBytes_open _ _ h) ?_
    exact fun _ m' h' => spec_storeBytes_open _ _ h'
  · rw [loadSegment_skip hload]
    exact Spec.pure h

/-- with all that is written for it. -/
theorem touches_loadSegment (hbs : 0 < io.blockSize) (h : Open m) (hvaddr : ph.vaddr < 4294967296)
    (hload : ph.type = 1) (haccepted : ph.rejected = false) (hwrites : ph.Writes io.sizeInBytes k) :
    Touches (loadSegment io ph) m (.store (u32 (ph.vaddr + k))) := by
  rw [loadSegment_eq hload haccepted]
  apply Touches.modify
  generalize hm' : { m with
    vme := ph.requests.foldl (fun v size => (v.addEntry size none 0 false).2) m.vme } = m'
  have h' : Open m' := by
    rw [← hm']
    exact h
  rcases hwrites with hcopied | ⟨hle, hzero⟩
  · refine Touches.left (touches_storeBytes _ _ _ _ hvaddr ?_ fun _ _ => h'.covered _)
    rw [readAll_available hbs]
    exact hcopied
  · obtain ⟨_, hresult, hopen⟩ := (spec_storeBytes_open _ _ h').returns
    refine Touches.right hresult rfl ?_
    rw [show ph.vaddr + k = ph.vaddr + ph.filesz + (k - ph.filesz) by omega,
      ← u32_add (ph.vaddr + ph.filesz)]
    refine touches_storeBytes _ _ _ _ (u32_lt _) ?_ fun _ _ => hopen.covered _
    rw [List.length_replicate]
    show k - ph.filesz < ph.zeros
    omega

/-- **The loop** comes to every segment that is reached. -/
theorem touches_loadSegments : ∀ (n i : Nat) (m : Sys.Machine), Open m → i ≤ j → j < i + n →
    (∀ l, l < j → ∃ q, programHeader io hdr l = some q ∧ q.Passes) → programHeader io hdr j = some ph →
    (∀ m', Open m' → Touches (loadSegment io ph) m' x) →
    Touches (loadSegments io hdr.phentsize n (hdr.at i)) m x := by
  intro n
  induction n with
  | zero =>
    intro i m _ h1 h2
    omega
  | succ n ih =>
    intro i m hopen h1 h2 hbefore hph htouches
    rcases Nat.eq_or_lt_of_le h1 with rfl | hlt
    · rw [loadSegments_succ hph]
      exact Touches.left (htouches m hopen)
    · obtain ⟨q, hq, hpasses⟩ := hbefore i hlt
      rw [loadSegments_succ hq]
      have hspec : Spec (fun _ => True) (loadSegment io q) m (fun _ m' => Open m') fun _ _ => False :=
        spec_loadSegment_open hopen hpasses
      obtain ⟨_, hresult, hopen'⟩ := hspec.returns
      exact Touches.right hresult rfl (ih (i + 1) _ hopen' hlt (by omega) hbefore hph htouches)

/-- **All that `load` touches** when it can. -/
theorem touches_load {file : Nat} (hopen : Open m) (hreached : Reached (m.fs.node file).io ph)
    (hwrites : ph.Writes (m.fs.node file).sizeInBytes k) :
    Touches (load file) m (.store (u32 (ph.vaddr + k))) := by
  obtain ⟨hdr, i, hvalid, hi, hph, hbefore, hload, haccepted⟩ := hreached
  rw [Touches, load_eq hvalid]
  refine Touches.left (touches_loadSegments _ 0 m hopen (Nat.zero_le i) (by omega) hbefore hph fun m' hm' => ?_)
  exact touches_loadSegment (m.fs.node file).blockSize_pos hm' (programHeader_lt hph).1 hload haccepted hwrites

/-! ## The result -/

/-- **`load` writes only to addresses of segments that lie in the user range exactly if what spills from
    a segment that it loads falls into such a segment.** -/
theorem writes_inside_iff (fs : FileSystem) (file : Nat) :
    (∀ m : Sys.Machine, m.fs = fs → ∀ a, Access.store a ∈ (load file m).log →
      InSegments (fs.node file).io a) ↔
    ∀ ph k, Reached (fs.node file).io ph → ph.Spills (fs.node file).sizeInBytes k →
      InSegments (fs.node file).io (u32 (ph.vaddr + k)) := by
  constructor
  · intro hinside ph k hreached hspills
    have hlt : ph.filesz < 4294967296 ∧ ph.memsz < 4294967296 := by
      obtain ⟨hdr, i, -, -, hph, -⟩ := hreached
      exact (programHeader_lt hph).2
    refine hinside { newProcess (fs.node file) with fs := fs, mapped := fun _ => true } rfl _ ?_
    exact touches_load (fun _ => rfl) hreached (hspills.writes hlt.1 hlt.2)
  · rintro hspills m rfl a ha
    obtain ⟨ph, k, hreached, hwrites, heq⟩ := logs_load file _ ha
    rw [Access.store.inj heq]
    by_cases hsp : ph.Spills (m.fs.node file).sizeInBytes k
    · exact hspills ph k hreached hsp
    · obtain ⟨hdr, i, hvalid, hi, hph, -, hload, haccepted⟩ := hreached
      obtain ⟨huser, hhas⟩ := hwrites.inside hsp haccepted (programHeader_lt hph)
      exact ⟨hdr, i, ph, hvalid, hi, hph, hload, huser, hhas⟩

/-- A segment of four bytes, for which the file has eight. -/
def largeSegment : ProgramHeader := ⟨1, 84, 0x80000000, 8, 4⟩

def largeProgram : Node := programFile [largeSegment] [65, 66, 67, 68, 69, 70, 71, 72]

/-- In a new address space, the fifth byte is written behind the segment. -/
theorem writes_behind : Access.store 0x80000004 ∈ (load 5 (newProcess largeProgram)).log ∧
    ¬ InSegments largeProgram.io 0x80000004 := by
  have hbs := largeProgram.blockSize_pos
  have hvalid : header largeProgram.io = some (programHdr [largeSegment]) := by
    rw [header_eq hbs (by decide +kernel)]
    decide +kernel
  have hph : programHeader largeProgram.io (programHdr [largeSegment]) 0 = some largeSegment := by
    rw [programHeader_eq hbs (by decide +kernel)]
    decide +kernel
  constructor
  · rw [load_eq hvalid]
    refine Touches.left (p := loadSegments largeProgram.io 32 1 _) ?_
    rw [show (32 : Nat) = (programHdr [largeSegment]).phentsize from rfl, loadSegments_succ hph]
    apply Touches.left
    rw [loadSegment_eq rfl (by decide +kernel)]
    refine Touches.modify (Touches.left ?_)
    rw [BlockIo.readAll_eq hbs _ _ (by decide +kernel)]
    have haddr : (0x80000004 : Nat) = u32 (0x80000000 + 4) := (u32_of_lt (by decide)).symm
    rw [haddr]
    refine touches_storeBytes _ _ 4 _ (by decide) (by decide +kernel) ?_
    decide +kernel
  · rintro ⟨hdr, i, ph, hvalid', hi, hph', -, -, hhas⟩
    rw [hvalid] at hvalid'
    obtain rfl := Option.some.inj hvalid'
    have hi0 : i = 0 := Nat.lt_one_iff.1 hi
    rw [hi0, hph] at hph'
    obtain rfl := Option.some.inj hph'
    exact absurd hhas.2 (by decide)

end BadApple.Elf
