/-
  What `read` and `write` do to the offset of an open file (kernel/sys.cc).

  1. **The calls** — both add to the offset what the node returns, as a `uint32_t`; the node's -1 for an
     error is added like a count.
  2. **What should happen** — `OffsetMoves`: a call that returns a negative value leaves the offset, any
     other moves it by what it returns.
  3. **The result** — `offsets_iff`: so it is if and only if the node returns no error and less than `2 ^
     31` bytes, and the offset does not wrap; and in runs of such calls the offset never goes back.
-/
import BadApple.Sys.ReadFile

namespace BadApple

open Function (update)

open Effects

namespace Sys

/-! ## The calls -/

/-- A call that reads from or writes to an open file; its length is a 32-bit word, which `write` takes as a
    signed one. -/
inductive FileCall where
  | read (buf nbyte : Nat)
  | write (buf nbyte : Nat)

namespace FileCall

/-- The call on descriptor `fd`. -/
def run (fd : Nat) : FileCall → Handler Nat
  | read buf nbyte => Sys.read fd buf nbyte
  | write buf nbyte => Sys.write fd buf nbyte

/-- How many bytes are asked for. -/
def nbyte : FileCall → Nat
  | read _ nbyte => nbyte
  | write _ nbyte => nbyte

/-- The call is rejected for its buffer or its length. -/
def Rejected : FileCall → Prop
  | read buf nbyte => addressValid buf nbyte = false
  | write buf nbyte => 0x80000000 ≤ nbyte ∨ addressValid buf nbyte = false

/-- What the node returns, as a `uint32_t`. -/
def returns (fs : FileSystem) (node : FileNode) (offset : Nat) : FileCall → Nat
  | read _ nbyte =>
    match node with
    | .ext2 i => ((fs.node i).io.readAllCount offset nbyte 0).getD minusOne
    | _ => 0
  | write _ nbyte =>
    match node with
    | .stdout | .stderr => nbyte
    | _ => minusOne

/-- **The condition**: the call is rejected or there is no node; or it reads within a file, less than `2 ^ 31`
    bytes, or from a terminal; or it writes to a terminal and the offset does not wrap. -/
def Fits (fs : FileSystem) (file : OpenFile) (call : FileCall) : Prop :=
  call.Rejected ∨
    match file.node, call with
    | none, _ => True
    | some (.ext2 i), read _ nbyte =>
      (file.offset ≤ (fs.node i).sizeInBytes ∨ nbyte = 0) ∧
        min nbyte ((fs.node i).sizeInBytes - file.offset) < 0x80000000
    | some _, read _ _ => True
    | some .stdout, write _ nbyte => file.offset + nbyte < 4294967296
    | some .stderr, write _ nbyte => file.offset + nbyte < 4294967296
    | some _, write _ _ => False

end FileCall

variable {m m' : Machine} {fd r v : Nat} {call : FileCall} {P : Access → Prop}

/-- The descriptor refers to an open file; offsets and sizes are words. -/
structure OpenedAt (m : Machine) (fd r : Nat) : Prop where
  fd_lt : fd < pcbArrSize
  fdt : m.pcb.fdt fd = some r
  offset : (m.files r).offset < 4294967296
  size : ∀ i, (m.fs.node i).sizeInBytes < 4294967296

/-- Looking the descriptor up. -/
theorem OpenedAt.spec_index (h : OpenedAt m fd r) :
    Spec (fun _ => True) (index .fdt fd) m (fun v m' => v = some r ∧ m = m') fun _ _ => True := by
  refine (Sys.spec_index trivial).mono (fun _ h => h) ?_ (fun _ _ h => h)
  rintro v _ ⟨hv, rfl⟩
  rw [Machine.element, if_pos h.fd_lt, h.fdt] at hv
  exact ⟨hv.symm, rfl⟩

/-- The PCB, the open files and the file system are the same. -/
def SameFiles (m m' : Machine) : Prop := m'.pcb = m.pcb ∧ m'.files = m.files ∧ m'.fs = m.fs

/-- Storing bytes changes no open file. -/
theorem spec_storeBytes_files (l : List UInt8) (a : Nat) (m : Machine) :
    Spec (fun _ => True) (storeBytes a l) m (fun _ m' => SameFiles m m') fun _ _ => True := by
  refine (spec_storeBytes_keeps l a m).mono (fun _ h => h) ?_ fun _ _ _ => trivial
  rintro _ _ ⟨mem, rfl⟩
  exact ⟨rfl, rfl, rfl⟩

/-- What a call that returns has done: nothing, if it is rejected or there is no node; else it has added
    what the node returned. -/
def Moved (m : Machine) (r : Nat) (call : FileCall) (v : Nat) (m' : Machine) : Prop :=
  m'.pcb = m.pcb ∧ m'.fs = m.fs ∧
    ((call.Rejected ∨ (m.files r).node = none) ∧ v = minusOne ∧ m'.files r = m.files r ∨
    ¬ call.Rejected ∧ ∃ node, (m.files r).node = some node ∧ v = call.returns m.fs node (m.files r).offset ∧
      m'.files r = ⟨some node, u32 ((m.files r).offset + v)⟩)

/-- The offset of the file is set. -/
theorem moved_setOffset {node : FileNode} {m₁ : Machine} (hnot : ¬ call.Rejected)
    (hnode : (m.files r).node = some node) (hv : v = call.returns m.fs node (m.files r).offset)
    (hsame : SameFiles m m₁) :
    Spec (fun _ => True) (setOffset r (u32 ((m.files r).offset + v)) >>= fun _ => pure v) m₁ (Moved m r call)
      fun _ _ => True := by
  obtain ⟨hpcb, hfiles, hfs⟩ := hsame
  refine Spec.bind spec_setOffset ?_
  rintro _ _ rfl
  refine Spec.pure ⟨hpcb, hfs, Or.inr ⟨hnot, node, hnode, hv, ?_⟩⟩
  show update m₁.files r _ r = _
  rw [Function.update_self, hfiles, hnode]

theorem moved_of_rejected (h : call.Rejected ∨ (m.files r).node = none) : Moved m r call minusOne m :=
  ⟨rfl, rfl, Or.inl ⟨h, rfl, rfl⟩⟩

/-- **One call.** -/
theorem spec_call (h : OpenedAt m fd r) :
    Spec (fun _ => True) (call.run fd) m (Moved m r call) fun _ _ => True := by
  have hfd := h.fd_lt
  cases call with
  | read buf nbyte =>
    show Spec _ (read fd buf nbyte) m _ _
    rw [read]
    by_cases hvalid : addressValid buf nbyte = true
    · rw [if_neg (by rw [hvalid, decide_eq_false (by omega)]; decide)]
      have hnot : ¬ (FileCall.read buf nbyte).Rejected := by
        show ¬ addressValid buf nbyte = false
        rw [hvalid]
        decide
      refine Spec.bind h.spec_index ?_
      rintro _ _ ⟨rfl, rfl⟩
      refine Spec.bind spec_getState ?_
      rintro _ _ ⟨rfl, rfl⟩
      cases hnode : (m.files r).node with
      | none => exact Spec.pure (moved_of_rejected (Or.inr hnode))
      | some node =>
        refine Spec.bind (Q := fun v m' => v = (FileCall.read buf nbyte).returns m.fs node (m.files r).offset ∧
          SameFiles m m') ?_ ?_
        · refine Spec.bind spec_getState ?_
          rintro _ _ ⟨rfl, rfl⟩
          cases node with
          | ext2 i => exact Spec.bind (spec_storeBytes_files _ _ _) fun _ _ hs => Spec.pure ⟨rfl, hs⟩
          | _ => exact Spec.pure ⟨rfl, rfl, rfl, rfl⟩
        · rintro v m₁ ⟨hv, hsame⟩
          exact moved_setOffset hnot hnode hv hsame
    · rw [if_pos (by rw [Bool.eq_false_iff.2 hvalid]; rfl)]
      exact Spec.pure (moved_of_rejected (Or.inl (Bool.eq_false_iff.2 hvalid)))
  | write buf nbyte =>
    show Spec _ (write fd buf nbyte) m _ _
    rw [write]
    by_cases hrejected : (FileCall.write buf nbyte).Rejected
    · have hbad :
          (decide (nbyte ≥ 0x80000000) || !addressValid buf nbyte || decide (fd ≥ pcbArrSize)) = true := by
        rcases hrejected with hlong | hvalid
        · rw [decide_eq_true hlong]
          rfl
        · rw [hvalid, Bool.or_assoc]
          simp
      rw [if_pos hbad]
      exact Spec.pure (moved_of_rejected (Or.inl hrejected))
    · obtain ⟨hshort, hvalid⟩ := not_or.1 hrejected
      rw [Bool.not_eq_false] at hvalid
      rw [if_neg (by rw [decide_eq_false hshort, hvalid, decide_eq_false (by omega)]; decide)]
      refine Spec.bind h.spec_index ?_
      rintro _ _ ⟨rfl, rfl⟩
      refine Spec.bind spec_getState ?_
      rintro _ _ ⟨rfl, rfl⟩
      cases hnode : (m.files r).node with
      | none => exact Spec.pure (moved_of_rejected (Or.inr hnode))
      | some node =>
        have hload : Spec (fun _ => True) (loadBytes nbyte buf) m (fun _ m' => m = m') fun _ _ => True :=
          spec_loadBytes (fun _ => trivial) (fun _ _ => trivial) _ _
        refine Spec.bind (Q := fun v m' => v = (FileCall.write buf nbyte).returns m.fs node (m.files r).offset ∧
          m = m') ?_ ?_
        · cases node with
          | stdout => exact Spec.bind hload fun _ _ hm => Spec.pure ⟨rfl, hm⟩
          | stderr => exact Spec.bind hload fun _ _ hm => Spec.pure ⟨rfl, hm⟩
          | _ => exact Spec.pure ⟨rfl, rfl⟩
        · rintro v _ ⟨hv, rfl⟩
          exact moved_setOffset hrejected hnode hv ⟨rfl, rfl, rfl⟩

/-! ## What should happen -/

/-- The offset is moved by what is returned, and not at all if that is negative. -/
def OffsetMoves (m m' : Machine) (r v : Nat) : Prop :=
  (m'.files r).offset = (m.files r).offset + if v < 0x80000000 then v else 0

/-- **A 32-bit sum** moves the offset so if and only if what is added is not negative and the sum does not
    wrap. -/
theorem sum_moves_iff {offset : Nat} (hoffset : offset < 4294967296) (hv : v < 4294967296) :
    u32 (offset + v) = offset + (if v < 0x80000000 then v else 0) ↔ v < 0x80000000 ∧ offset + v < 4294967296 := by
  rw [u32_eq]
  by_cases hneg : v < 0x80000000
  · rw [if_pos hneg]
    omega
  · rw [if_neg hneg]
    omega

/-- What a node returns is a word. -/
theorem FileCall.returns_lt {fs : FileSystem} (hsize : ∀ i, (fs.node i).sizeInBytes < 4294967296)
    (hnbyte : call.nbyte < 4294967296) (node : FileNode) (offset : Nat) :
    call.returns fs node offset < 4294967296 := by
  have hminus : minusOne < 4294967296 := by decide
  cases call with
  | read buf nbyte =>
    cases node with
    | ext2 i =>
      show ((fs.node i).io.readAllCount offset nbyte 0).getD minusOne < 4294967296
      have hlt := hsize i
      by_cases hpast : (fs.node i).sizeInBytes < offset ∧ 0 < nbyte
      · rw [(BlockIo.readAllCount_past hpast.1 hpast.2).1]
        exact hminus
      · by_cases hzero : nbyte = 0
        · rw [BlockIo.readAllCount, if_pos hzero]
          decide
        · rw [BlockIo.readAllCount_eq (fs.node i).blockSize_pos _ _ _
            (show offset ≤ (fs.node i).sizeInBytes by omega), Option.getD_some]
          have hsame : (fs.node i).sizeInBytes = (fs.node i).io.sizeInBytes := rfl
          omega
    | _ => exact (by decide : 0 < 4294967296)
  | write buf nbyte =>
    cases node with
    | stdout => exact hnbyte
    | stderr => exact hnbyte
    | _ => exact hminus

/-- What a node returns is no error, and moves the offset without a wrap, if and only if the call fits. -/
theorem FileCall.fits_iff {fs : FileSystem} (hsize : ∀ i, (fs.node i).sizeInBytes < 4294967296)
    {file : OpenFile} {node : FileNode} (hoffset : file.offset < 4294967296) (hnode : file.node = some node)
    (hnot : ¬ call.Rejected) :
    call.Fits fs file ↔
      call.returns fs node file.offset < 0x80000000 ∧
        file.offset + call.returns fs node file.offset < 4294967296 := by
  have hminus : ¬ minusOne < 0x80000000 := by decide
  unfold FileCall.Fits
  rw [or_iff_right hnot, hnode]
  cases call with
  | read buf nbyte =>
    cases node with
    | ext2 i =>
      have hlt := hsize i
      have hsame : (fs.node i).sizeInBytes = (fs.node i).io.sizeInBytes := rfl
      show _ ↔ ((fs.node i).io.readAllCount file.offset nbyte 0).getD minusOne < 0x80000000 ∧
        file.offset + ((fs.node i).io.readAllCount file.offset nbyte 0).getD minusOne < 4294967296
      simp only
      by_cases hzero : nbyte = 0
      · rw [BlockIo.readAllCount, if_pos hzero, Option.getD_some, hzero]
        simp [hoffset]
      · by_cases hpast : (fs.node i).sizeInBytes < file.offset
        · rw [(BlockIo.readAllCount_past hpast (by omega)).1]
          exact ⟨fun h => absurd h.1 (by omega), fun h => absurd h.1 hminus⟩
        · rw [BlockIo.readAllCount_eq (fs.node i).blockSize_pos _ _ _
            (show file.offset ≤ (fs.node i).sizeInBytes by omega), Option.getD_some]
          omega
    | _ =>
      refine iff_of_true trivial ⟨show 0 < 0x80000000 by decide, ?_⟩
      exact hoffset
  | write buf nbyte =>
    have hshort : nbyte < 0x80000000 := Nat.lt_of_not_le (not_or.1 hnot).1
    cases node with
    | stdout => exact ⟨fun h => ⟨hshort, h⟩, fun h => h.2⟩
    | stderr => exact ⟨fun h => ⟨hshort, h⟩, fun h => h.2⟩
    | _ => exact iff_of_false id fun h => hminus h.1

/-- **A call that returns** moves the offset as it should if and only if it fits. -/
theorem moves_iff (h : OpenedAt m fd r) (hnbyte : call.nbyte < 4294967296) (hmoved : Moved m r call v m') :
    OffsetMoves m m' r v ↔ call.Fits m.fs (m.files r) := by
  unfold OffsetMoves
  obtain ⟨-, -, ⟨hrejected, rfl, hfile⟩ | ⟨hnot, node, hnode, rfl, hfile⟩⟩ := hmoved
  · rw [hfile]
    refine iff_of_true rfl ?_
    rcases hrejected with hrejected | hnone
    · exact Or.inl hrejected
    · right
      rw [hnone]
      trivial
  · rw [hfile, FileCall.fits_iff h.size h.offset hnode hnot]
    exact sum_moves_iff h.offset (FileCall.returns_lt h.size hnbyte node _)

/-! ## Runs -/

/-- A call on the descriptor that returns; or something else happens, which leaves the descriptor and its
    open file alone. -/
def FileStep (fd r : Nat) (m : Machine) : Option FileCall → Machine → Prop
  | some call, m' => (∃ v, (call.run fd m).result = .ok v) ∧ (call.run fd m).state = m'
  | none, m' => KeepsFile fd r m m'

/-- The call fits. -/
def StepFits (r : Nat) (m : Machine) : Option FileCall → Prop
  | some call => call.nbyte < 4294967296 ∧ call.Fits m.fs (m.files r)
  | none => True

/-- **The offset never goes back**, in runs of calls that fit. -/
theorem offset_monotone (h : OpenedAt m fd r)
    (hrun : Runs.Guarded (fun s => s = m) (FileStep fd r) (StepFits r) m') :
    OpenedAt m' fd r ∧ (m.files r).offset ≤ (m'.files r).offset := by
  apply Runs.Guarded.invariant (I := fun s => OpenedAt s fd r ∧ (m.files r).offset ≤ (s.files r).offset)
    ?_ ?_ hrun
  · rintro s rfl
    exact ⟨h, Nat.le_refl _⟩
  · rintro s call s' - ⟨hs, hle⟩ hfits hstep
    cases call with
    | none =>
      obtain ⟨hfdt, hfile, hfs⟩ := hstep
      refine ⟨⟨hs.fd_lt, hfdt.trans hs.fdt, ?_, ?_⟩, ?_⟩
      · rw [hfile]
        exact hs.offset
      · rw [hfs]
        exact hs.size
      · rw [hfile]
        exact hle
    | some call =>
      obtain ⟨⟨v, hv⟩, rfl⟩ := hstep
      have hmoved := (spec_call hs).ok v hv
      have hmoves := (moves_iff hs hfits.1 hmoved).2 hfits.2
      obtain ⟨hpcb, hfs, hfile⟩ := hmoved
      refine ⟨⟨hs.fd_lt, ?_, ?_, ?_⟩, ?_⟩
      · rw [hpcb]
        exact hs.fdt
      · rcases hfile with ⟨-, -, hfile⟩ | ⟨-, node, -, -, hfile⟩
        · rw [hfile]
          exact hs.offset
        · rw [hfile]
          exact u32_lt _
      · rw [hfs]
        exact hs.size
      · rw [hmoves]
        omega

/-! ## The result -/

/-- **Offsets**: for every open file, buffer and length, a call of `read` or `write` that returns leaves the
    offset if it returns a negative value, and moves it by what it returns otherwise, if and only if it
    fits; and in every run of calls that fit the offset never goes back. -/
theorem offsets_iff (h : OpenedAt m fd r) :
    (∀ (call : FileCall) v, call.nbyte < 4294967296 → (call.run fd m).result = .ok v →
      (OffsetMoves m (call.run fd m).state r v ↔ call.Fits m.fs (m.files r))) ∧
    ∀ m', Runs.Guarded (fun s => s = m) (FileStep fd r) (StepFits r) m' →
      (m.files r).offset ≤ (m'.files r).offset :=
  ⟨fun _ v hnbyte hv => moves_iff h hnbyte ((spec_call h).ok v hv), fun _ hrun => (offset_monotone h hrun).2⟩

/-- The process with descriptor 3 on a file of three bytes, after a `seek` to 4. -/
def pastEnd : Machine := { fileProcess with files := update fileProcess.files 3 ⟨some (.ext2 5), 4⟩ }

/-- Before the `seek`, a call for two bytes returns 2 and moves the offset by 2; no run of calls that fit
    brings the offset below what the `seek` has made it. -/
theorem offsets_iff_pastEnd :
    (read 3 0x87FFFF00 2 fileProcess).result = .ok 2 ∧
    ((read 3 0x87FFFF00 2 fileProcess).state.files 3).offset = 2 ∧
    ∀ m', Runs.Guarded (fun s => s = pastEnd) (FileStep 3 3) (StepFits 3) m' → 4 ≤ (m'.files 3).offset := by
  have hfile : OpenedAt fileProcess 3 3 := ⟨by decide, rfl, by decide, fun _ => show 3 < 4294967296 by decide⟩
  have hpast : OpenedAt pastEnd 3 3 := ⟨by decide, rfl, by decide, fun _ => show 3 < 4294967296 by decide⟩
  have hread : (read 3 0x87FFFF00 2 fileProcess).result = .ok 2 := by decide +kernel
  have hfits : (FileCall.read 0x87FFFF00 2).Fits fileProcess.fs (fileProcess.files 3) :=
    Or.inr ⟨Or.inl (by decide), by decide⟩
  exact ⟨hread, ((offsets_iff hfile).1 (.read 0x87FFFF00 2) 2 (by decide) hread).2 hfits, (offsets_iff hpast).2⟩

/-- **The defect**: a `read` past the end returns -1 and moves the offset back by one, and the next one
    succeeds. -/
theorem offset_back :
    (read 3 0x87FFFF00 1 pastEnd).result = .ok minusOne ∧
    ¬ OffsetMoves pastEnd (read 3 0x87FFFF00 1 pastEnd).state 3 minusOne ∧
    (read 3 0x87FFFF00 1 (read 3 0x87FFFF00 1 pastEnd).state).result = .ok 0 := by
  unfold OffsetMoves
  refine ⟨?_, ?_, ?_⟩ <;> decide +kernel

end Sys

end BadApple
