/-
  The tables of the PCB: which elements the system calls touch (kernel/sys.cc, kernel/processes.cc).

  1. **Specification** — `InTables`: an index into a table is below `PCB_ARR_SIZE`.
  2. **The defects** — the slot search of `fork` reads `children[PCB_ARR_SIZE]`; that of `sem` reads
     `sdt[PCB_ARR_SIZE]` when the table is full, since it tests the element before the index; `mmap` does
     not test the descriptor at all.
  3. **The result** — `tableIndices_iff`: all others test what they use; a call stays in the tables exactly
     if it is none of these three (`IndicesFit`), and so does a run.
-/
import BadApple.Sys.Runs

namespace BadApple

open Effects

open Runs (Guarded)

namespace Sys

variable {m : Machine} {P : Access → Prop}

/-- An access that stays in its table. -/
def InTables : Access → Prop
  | .table _ i => i < pcbArrSize
  | _ => True

/-- **The condition**: the calls that stay in the tables. -/
def IndicesFit (m : Machine) : Call → Prop
  | .fork => False
  | .sem => ∃ i, i < pcbArrSize ∧ m.pcb.sdt i = none
  | .naiveMmap _ _ file _ => file < pcbArrSize
  | _ => True

theorem allowsTables_inTables : AllowsTables InTables := fun _ _ h => h

theorem allowsMemory_inTables : AllowsMemory InTables := ⟨fun _ => trivial, fun _ => trivial⟩

/-! ## The slot search of `fork` -/

/-- The very first element that `fork` touches lies behind the table. -/
theorem fork_touches : Touches fork m (.table .children pcbArrSize) := by
  rw [fork]
  apply Touches.left
  show Touches (childLoop (99 + 1) 0) m _
  rw [childLoop]
  apply Touches.left
  exact List.mem_singleton.2 rfl

/-! ## The slot search of `sem` -/

/-- The loop stops in front of a free slot, and has stayed in the table. -/
theorem spec_semLoop (hT : AllowsTables P) : ∀ (fuel id : Nat), id + fuel = pcbArrSize →
    (∃ i, id ≤ i ∧ i < pcbArrSize ∧ m.pcb.sdt i = none) →
    Spec P (semLoop fuel id) m (fun i m' => (i < pcbArrSize ∧ m.pcb.sdt i = none ∧
      ∀ j, id ≤ j → j < i → m.pcb.sdt j ≠ none) ∧ m = m') fun _ _ => True := by
  intro fuel
  induction fuel with
  | zero =>
    rintro id hid ⟨i, hle, hlt, -⟩
    omega
  | succ fuel ih =>
    rintro id hid ⟨i, hle, hlt, hfree⟩
    have hidlt : id < pcbArrSize := by omega
    refine Spec.bind (spec_index (hT .sdt id hidlt)) ?_
    rintro v _ ⟨hv, rfl⟩
    rw [Machine.element, if_pos hidlt] at hv
    cases v with
    | none =>
      refine Spec.pure ⟨⟨hidlt, hv, ?_⟩, rfl⟩
      intro j h1 h2
      omega
    | some s =>
      have hne : id ≠ i := by
        rintro rfl
        rw [hfree] at hv
        cases hv
      refine (ih (id + 1) (by omega) ⟨i, by omega, hlt, hfree⟩).mono (fun _ h => h) ?_ (fun _ _ h => h)
      rintro k _ ⟨⟨hk, hnone, hbelow⟩, rfl⟩
      refine ⟨⟨hk, hnone, ?_⟩, rfl⟩
      intro j h1 h2
      by_cases hj : j = id
      · rw [hj, hv]
        simp
      · exact hbelow j (by omega) h2

/-- In a full table the loop reads on behind it. -/
theorem semLoop_touches : ∀ (fuel id : Nat), id + fuel = pcbArrSize →
    (∀ i, id ≤ i → i < pcbArrSize → m.pcb.sdt i ≠ none) →
    Touches (semLoop fuel id) m (.table .sdt pcbArrSize) := by
  intro fuel
  induction fuel with
  | zero =>
    intro id hid _
    rw [semLoop]
    apply Touches.left
    rw [show id = pcbArrSize by omega]
    exact List.mem_singleton.2 rfl
  | succ fuel ih =>
    intro id hid hfull
    have hidlt : id < pcbArrSize := by omega
    have hv : m.element .sdt id = m.pcb.sdt id := by
      rw [Machine.element, if_pos hidlt]
    rw [semLoop]
    refine Touches.right (index_result _ _ _) (index_state _ _ _) ?_
    rw [hv]
    cases hs : m.pcb.sdt id with
    | none => exact absurd hs (hfull id (Nat.le_refl _) hidlt)
    | some s => exact ih (id + 1) (by omega) fun i h1 h2 => hfull i (by omega) h2

/-- **`sem`** stays in the table exactly if there is a free slot. -/
theorem logs_sem_iff : (∀ x ∈ (sem m).log, InTables x) ↔ ∃ i, i < pcbArrSize ∧ m.pcb.sdt i = none := by
  constructor
  · intro hlog
    by_contra hfull
    have htouch : Touches sem m (.table .sdt pcbArrSize) := by
      rw [sem]
      apply Touches.left
      refine semLoop_touches _ _ rfl ?_
      intro i _ hi hnone
      exact hfull ⟨i, hi, hnone⟩
    exact htouch.not_log (Nat.lt_irrefl _) hlog
  · rintro ⟨i, hi, hfree⟩
    refine Spec.log (Q := fun _ _ => True) (E := fun _ _ => True) ?_
    refine Logs.bind (spec_semLoop allowsTables_inTables _ _ rfl ⟨i, Nat.zero_le _, hi, hfree⟩) ?_
    rintro id _ ⟨⟨hid, -, -⟩, rfl⟩
    rw [if_neg (Nat.ne_of_lt hid)]
    refine Logs.bind spec_getState ?_
    rintro _ _ ⟨rfl, rfl⟩
    refine Logs.bind spec_modify ?_
    rintro _ _ rfl
    exact Logs.bind (spec_setIndex hid) fun _ _ _ => Logs.pure

/-! ## The descriptor of `mmap` -/

/-- **`mmap`** stays in the table exactly if the descriptor is below its bound. -/
theorem logs_naiveMmap_iff {size file offset : Nat} {isShared : Bool} :
    (∀ x ∈ (naiveMmap size isShared file offset m).log, InTables x) ↔ file < pcbArrSize := by
  constructor
  · intro hlog
    have htouch : Touches (naiveMmap size isShared file offset) m (.table .fdt file) := by
      rw [naiveMmap]
      apply Touches.left
      exact List.mem_singleton.2 rfl
    by_contra hbig
    exact htouch.not_log hbig hlog
  · intro hfile
    exact (logs_naiveMmap hfile).log

/-! ## The result -/

theorem logs_userString_inTables (p : Nat) : Logs InTables (userString p) m :=
  (spec_userString allowsMemory_inTables p).mono (fun _ h => h) (fun _ _ _ => trivial) (fun _ _ h => h)

theorem logs_execl_inTables (path argv : Nat) : Logs InTables (execl path argv) m := by
  have hM := allowsMemory_inTables
  refine logs_execl (S := fun _ => True) (R := fun _ => True) ?_ ?_ ?_
  · exact (spec_userString hM path).mono (fun _ h => h) (fun _ _ h => ⟨trivial, h⟩) (fun _ _ h => h)
  · intro _ _ _ _
    exact (spec_checkArgs hM argv _ _).mono (fun _ h => h) (fun _ _ h => ⟨fun _ _ => trivial, h⟩) (fun _ _ h => h)
  · intro argc _
    exact (spec_copyArgs hM argv argc 0).mono (fun _ h => h) (fun _ _ _ => trivial) (fun _ _ h => h)

/-- What a call touches lies in the tables exactly if it is none of the three. -/
theorem handle_inTables_iff (call : Call) : (∀ x ∈ (handle call m).log, InTables x) ↔ IndicesFit m call := by
  have hT := allowsTables_inTables
  have hM := allowsMemory_inTables
  have hfits : ∀ {p : Handler Nat}, Logs InTables p m → ((∀ x ∈ (p m).log, InTables x) ↔ True) :=
    fun h => iff_of_true h.log trivial
  cases call with
  | exit => exact hfits Logs.stop
  | write fd buf nbyte => exact hfits (logs_write hT hM fd buf nbyte)
  | fork => exact iff_of_false (fork_touches.not_log (Nat.lt_irrefl _)) (fun h => h)
  | sem => exact logs_sem_iff
  | up id => exact hfits (logs_useSem hT id)
  | down id => exact hfits (logs_useSem hT id)
  | close fd => exact hfits (logs_close hT fd)
  | shutdown => exact hfits Logs.stop
  | wait id status => exact hfits (logs_wait hT fun _ _ => trivial)
  | execl path argv => exact hfits (logs_execl_inTables path argv)
  | open_ path => exact hfits (logs_open hT fun _ => logs_userString_inTables path)
  | len fd => exact hfits (logs_len hT fd)
  | read fd buf nbyte => exact hfits (logs_read hT hM fd buf nbyte)
  | seek fd offset => exact hfits (logs_seek hT fd offset)
  | chdir path => exact hfits (logs_chdir (logs_userString_inTables path))
  | naiveMmap size isShared file offset => exact logs_naiveMmap_iff
  | naiveUnmap p => exact hfits (Logs.bind (logs_naiveUnmap p) fun _ _ _ => Logs.pure)
  | vga => exact hfits Logs.pure
  | unknown => exact hfits Logs.pure

/-- What an interrupt touches lies in the tables exactly if the call it asks for fits. -/
theorem sysHandler_inTables_iff (eax userSp : Nat) :
    (∀ x ∈ (sysHandler eax userSp m).log, InTables x) ↔
      ∀ call, requested eax userSp m = some call → IndicesFit m call := by
  rw [sysHandler_log_iff fun _ _ => trivial]
  constructor
  · exact fun h call hcall => (handle_inTables_iff call).1 (h call hcall)
  · exact fun h call hcall => (handle_inTables_iff call).2 (h call hcall)

/-- **An interrupt stays in the tables exactly if the call it asks for fits; and in a run of calls that fit
    nothing has ever been touched outside them.** -/
theorem tableIndices_iff (m : Machine) (eax userSp : Nat) :
    ((∀ x ∈ (sysHandler eax userSp m).log, InTables x) ↔
      ∀ call, requested eax userSp m = some call → IndicesFit m call) ∧
    ∀ h, Guarded NewHistory (fun h e h' => h.step e = some h') (Asks IndicesFit) h →
      ∀ x ∈ h.touched, InTables x := by
  constructor
  · exact sysHandler_inTables_iff eax userSp
  · intro h hrun
    exact touched_of_guarded (fun _ _ => trivial) (fun m call => (handle_inTables_iff call).2) hrun

/-- The first process calls `fork`: the slot search reads `children[PCB_ARR_SIZE]`. -/
theorem fork_outOfTable :
    NewHistory ⟨firstProcess, [], none⟩ ∧
    requested 2 0x87FFFFF0 firstProcess = some .fork ∧
    ¬ ∀ x ∈ (sysHandler 2 0x87FFFFF0 firstProcess).log, InTables x := by
  refine ⟨⟨rfl, rfl⟩, rfl, ?_⟩
  rw [sysHandler_inTables_iff]
  intro hall
  exact hall .fork rfl

end Sys

end BadApple
