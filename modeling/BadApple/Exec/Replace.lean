/-
  When `execl` replaces a program, and when it only fails (kernel/sys.cc, kernel/elf.cc).

  1. **The defect** — the address space is cleared before the program is looked at, and a file that is no
     valid program is a kernel panic then.  Where there is no room, the page fault ends the process; a path
     or an argument that cannot be read does so before.  So does a kernel that runs out of heap or of frames,
     with a panic; and one argument more than its stack has room for is written over the thread's own data.
  2. **Two parts** — what is `Prepared` is what comes back of the first part (`reading_run`), and the second
     comes to its end exactly if the program is `Startable` (`ends_replace`).
  3. **The result** — `execl_answers_iff`: a call replaces the program, or leaves all as it was and returns -1,
     exactly if `Answers`.
-/
import BadApple.Exec.Load

namespace BadApple

open Effects Memory

namespace Exec

open Gheith (Heap)

open Sys (Handler Machine Access CString Looked StringAt WordAt bytesAt minusOne FileNode)
open Elf (ElfHeader ProgramHeader)

variable {k : Kernel} {m m' : Machine} {mem : Mem} {sizes : List Nat} {hdr : ElfHeader} {phs : List ProgramHeader}
  {args : List (List UInt8)} {path argv program : Nat} {r : Option (Nat × List (List UInt8))}

/-! ## Before the address space is cleared -/

/-- **What is prepared comes back.** -/
theorem reading_run (hpath : path < 4294967296) (h : Prepared k (within m k.pages) path argv r) :
    (k.reading (prepare k path argv) m).result = .ok r ∧
      ∀ x ∈ (k.reading (prepare k path argv) m).log, StoresAbove x := by
  have hspec := spec_reading k m argv hpath
  cases hresult : (k.reading (prepare k path argv) m).result with
  | ok r' =>
    obtain rfl := h.found.unique (hspec.ok r' hresult).1.found
    exact ⟨rfl, hspec.log⟩
  | error e => exact absurd h (hspec.error e hresult r)

/-- Then nothing is changed if it is nothing that can be started, -/
theorem execl_none (hpath : path < 4294967296) (h : Prepared k (within m k.pages) path argv none) :
    Unchanged k m path argv := by
  have hrun : execl k path argv m = ⟨(k.reading (prepare k path argv) m).log ++ [], .ok (.returned minusOne), m⟩ := by
    unfold execl
    rw [bind_run, Run.andThen, (reading_run hpath h).1]
    rfl
  unfold Unchanged
  rw [hrun]
  exact ⟨rfl, rfl, rfl, rfl⟩

/-- and otherwise the program is replaced. -/
theorem execl_some (hpath : path < 4294967296)
    (h : Prepared k (within m k.pages) path argv (some (program, args))) :
    execl k path argv m = ⟨(k.reading (prepare k path argv) m).log ++ (replace k program args m).log,
      (replace k program args m).result, (replace k program args m).state⟩ := by
  unfold execl
  rw [bind_run, Run.andThen, (reading_run hpath h).1]
  rfl

/-! ## Replacing -/

/-- The stack is asked for last. -/
theorem exactly_mmapStack : Exactly (k.Stores m) mmapStack (asking m sizes mem) True
    fun stackStart m' => u32 (stackStart + stackSize - 16) = stackPointer sizes ∧
      asking m (sizes ++ [stackSize]) mem = m' := by
  have hbump := Bump.ask sizes bump_fresh
  obtain ⟨-, hstart, -, -⟩ := hbump.1.addEntry stackSize
  rw [hbump.2.1] at hstart
  have hfinal : asking m (sizes ++ [stackSize]) mem = { asking m sizes mem with
      vme := ((asking m sizes mem).vme.addEntry stackSize none 0 false).2 } := by
    unfold asking
    rw [ask_append]
    rfl
  refine (Exactly.bind (Exactly.getState (Q := fun s m' => asking m sizes mem = s ∧ s = m') ⟨rfl, rfl⟩)
    ?_).congr (and_iff_right trivial)
  rintro _ _ ⟨rfl, rfl⟩
  refine (Exactly.bind (Exactly.modify (Q := fun _ m' => asking m (sizes ++ [stackSize]) mem = m') hfinal)
    ?_).congr (and_iff_right trivial)
  rintro _ _ rfl
  refine Exactly.pure ⟨?_, rfl⟩
  show u32 (((ask Elf.freshVme sizes).addEntry stackSize none 0 false).1 + stackSize - 16) = _
  rw [hstart]
  rfl

/-- All writes of `load_args` have a word for an address. -/
theorem loadArgs_addr (userEsp : Nat) (argv : List CString) :
    ∀ w ∈ (Sys.loadArgs userEsp argv).2, w.addr < 4294967296 := by
  have hloop : ∀ (esp : Nat) (argv : List CString) (i next : Nat), ∀ w ∈ Sys.loadArgsLoop esp argv i next,
      w.addr < 4294967296 := by
    intro esp argv
    induction argv with
    | nil => exact fun _ _ w hw => absurd hw List.not_mem_nil
    | cons arg argv ih =>
      intro i next w hw
      rcases List.mem_cons.1 hw with rfl | hw
      · exact u32_lt _
      rcases List.mem_cons.1 hw with rfl | hw
      · exact u32_lt _
      · exact ih _ _ w hw
  intro w hw
  rcases List.mem_cons.1 hw with rfl | hw
  · exact Sys.sub_lt _ _
  rcases List.mem_cons.1 hw with rfl | hw
  · exact u32_lt _
  · exact hloop _ _ _ _ w hw

/-- What is left when the program goes on in user mode. -/
structure Leaves (m : Machine) (hdr : ElfHeader) (phs : List ProgramHeader) (o : Outcome) (m' : Machine) :
    Prop where
  switched : ∃ esp, o = .switched hdr.entry esp
  asked : ∃ mem, asking m (requests (Elf.loadsOf phs) ++ [stackSize]) mem = m'

/-- **A program with all of its headers** is started exactly if there is room for it and for its arguments. -/
theorem exactly_start (hvalid : Elf.header (m.fs.node program).io = some hdr)
    (htable : (List.range hdr.phnum).mapM (Elf.programHeader (m.fs.node program).io hdr) = some phs) :
    Exactly (k.Stores m) (start k program args) (asking m [] m.mem)
      (Placeable k m (m.fs.node program).io.sizeInBytes [] (Elf.loadsOf phs) ∧
        (args.length + 1) + args.length ≤ k.stackWords ∧
        ∀ w ∈ (Sys.loadArgs (stackPointer (requests (Elf.loadsOf phs))) (args.map cString)).2,
          ∀ a ∈ Sys.written w, Room k m (requests (Elf.loadsOf phs) ++ [stackSize]) a)
      (Leaves m hdr phs) := by
  refine (exactly_load hvalid htable).bind ?_
  rintro _ _ ⟨rfl, mem, rfl⟩
  refine (exactly_mmapStack.bind ?_).congr (and_iff_right trivial)
  rintro stackStart _ ⟨hesp, rfl⟩
  simp only [hesp]
  by_cases hroom : k.stackWords < (args.length + 1) + args.length
  · rw [if_pos hroom]
    exact Exactly.stop.congr (iff_of_false id fun h => Nat.not_le_of_lt hroom h.1)
  · rw [if_neg hroom]
    have hargs : Exactly (k.Stores m) (loadArgs (stackPointer (requests (Elf.loadsOf phs))) (args.map cString))
        (asking m (requests (Elf.loadsOf phs) ++ [stackSize]) mem) (_ ∧ True)
        fun _ m' => ∃ mem', asking m (requests (Elf.loadsOf phs) ++ [stackSize]) mem' = m' :=
      (exactly_storeAll _ mem (loadArgs_addr _ _)).bind fun _ _ h => Exactly.pure h
    refine ((hargs.congr (and_iff_left trivial)).bind (d := True) fun esp _ h => ?_).congr ?_
    · exact Exactly.pure ⟨⟨esp, rfl⟩, h⟩
    · rw [and_true]
      exact (and_iff_right (Nat.le_of_not_lt hroom)).symm

/-- The second part comes to its end if nothing in it meets the limits of the kernel. -/
theorem replace_limited (hloads : k.loads = true) :
    replace k program args m = limited (k.gets fun a => m.mapped a && !isUser a) .panic (start k program args)
      (asking m [] m.mem) := by
  unfold replace
  rw [if_pos hloads]
  rfl

/-- What the kernel has to load a program with. -/
theorem Kernel.loads_of_ends (h : Ends StoresAbove (replace k program args) m) : k.loads = true := by
  by_contra hloads
  obtain ⟨⟨o, ho⟩, -⟩ := h
  unfold replace at ho
  rw [if_neg hloads] at ho
  cases ho

/-- **When the second part comes to its end**, -/
theorem ends_replace : Ends StoresAbove (replace k program args) m ↔
    ∃ hdr phs, Startable k m (m.fs.node program).io hdr phs args := by
  have hlimited : k.loads = true → (Ends StoresAbove (replace k program args) m ↔
      Ends (k.Stores m) (start k program args) (asking m [] m.mem)) := by
    intro hloads
    rw [Ends, replace_limited hloads]
    exact ends_limited
  constructor
  · intro hends
    have hloads := Kernel.loads_of_ends hends
    have hstart := (hlimited hloads).1 hends
    by_contra hnot
    refine not_ends_load (fun hdr phs hvalid htable => ?_) (ends_bind.1 hstart).1
    obtain ⟨hsegments, hroom, hstack⟩ := (exactly_start hvalid htable).ends.1 hstart
    exact hnot ⟨hdr, phs, hvalid, htable, hsegments, hstack, hloads, hroom⟩
  · rintro ⟨hdr, phs, hvalid, htable, hsegments, hstack, hloads, hroom⟩
    exact (hlimited hloads).2 ((exactly_start hvalid htable).ends.2 ⟨hsegments, hroom, hstack⟩)

/-- and what it leaves then. -/
theorem replace_leaves (h : Startable k m (m.fs.node program).io hdr phs args) :
    ∃ o, (replace k program args m).result = .ok o ∧ Leaves m hdr phs o (replace k program args m).state ∧
      ∀ x ∈ (replace k program args m).log, StoresAbove x := by
  obtain ⟨⟨o, ho⟩, hlog⟩ := ends_replace.2 ⟨hdr, phs, h⟩
  refine ⟨o, ho, ?_, hlog⟩
  have hends := (exactly_start h.valid h.table).ends.2 ⟨h.segments, h.array, h.stack⟩
  rw [replace_limited h.loads] at ho ⊢
  have hsame := limited_of_ok ho
  rw [hsame] at ho ⊢
  exact (exactly_start h.valid h.table).ok o hends ho

/-- It never returns. -/
theorem replace_switches {o : Outcome} (h : (replace k program args m).result = .ok o) :
    ∃ pc esp, o = .switched pc esp := by
  have hspec : Spec (fun _ => True) (start k program args) (asking m [] m.mem)
      (fun o _ => ∃ pc esp, o = .switched pc esp) fun _ _ => True := by
    refine Spec.any.bind fun _ _ _ => Spec.any.bind fun stackStart _ _ => ?_
    by_cases hroom : k.stackWords < (args.length + 1) + args.length
    · simp only [if_pos hroom]
      exact Spec.stop trivial
    · simp only [if_neg hroom]
      exact Spec.any.bind fun _ _ _ => Spec.pure ⟨_, _, rfl⟩
  by_cases hloads : k.loads = true
  · rw [replace_limited hloads] at h
    rw [limited_of_ok h] at h
    exact hspec.ok o h
  · unfold replace at h
    rw [if_neg hloads] at h
    cases h

/-! ## The result -/

/-- A process that ends in the first part is not replaced, and is told nothing. -/
theorem not_right_of_error {e : Sys.Stop} (h : (k.reading (prepare k path argv) m).result = .error e) :
    ¬ (Replaced k m path argv ∨ Unchanged k m path argv) := by
  have hrun : (execl k path argv m).result = .error e := by
    unfold execl
    rw [bind_run, Run.andThen, h]
  rintro (⟨_, _, _, hreplaced⟩ | ⟨hok, -⟩)
  · obtain ⟨esp, hok⟩ := hreplaced.switched
    rw [hrun] at hok
    cases hok
  · rw [hrun] at hok
    cases hok

/-- Where there is a program, it is that which comes to its end: there is no way back. -/
theorem ends_of_right (hpath : path < 4294967296)
    (hprepared : Prepared k (within m k.pages) path argv (some (program, args)))
    (h : Replaced k m path argv ∨ Unchanged k m path argv) :
    Ends StoresAbove (replace k program args) m := by
  have hrun := execl_some hpath hprepared
  rcases h with ⟨_, _, _, hreplaced⟩ | ⟨hok, -⟩
  · obtain ⟨esp, hok⟩ := hreplaced.switched
    have hlog := hreplaced.kernel
    rw [hrun] at hok hlog
    exact ⟨⟨_, hok⟩, fun x hx => hlog x (List.mem_append_right _ hx)⟩
  · rw [hrun] at hok
    obtain ⟨pc, esp, hswitch⟩ := replace_switches hok
    cases hswitch

/-- **A program that can be started** replaces the old one. -/
theorem replacedBy (hpath : path < 4294967296)
    (hprepared : Prepared k (within m k.pages) path argv (some (program, args)))
    (h : Startable k m (m.fs.node program).io hdr phs args) : ReplacedBy k m path argv program hdr phs := by
  obtain ⟨_, hok, ⟨⟨esp, rfl⟩, mem, hstate⟩, hlog⟩ := replace_leaves h
  have hrun := execl_some hpath hprepared
  refine ⟨hprepared.found.1, h.valid, h.table, ⟨esp, by rw [hrun, hok]⟩, ?_, ?_, ?_⟩
  · rw [hrun, ← hstate]
    rfl
  · intro a ha
    rw [hrun, ← hstate]
    show (m.mapped a && !isUser a) = false
    rw [ha, Bool.not_true, Bool.and_false]
  · intro x hx
    rw [hrun] at hx
    rcases List.mem_append.1 hx with hx | hx
    · exact (reading_run hpath hprepared).2 x hx
    · exact hlog x hx

/-- **`execl` replaces the program, or returns -1 and leaves all as it was, if and only if `Answers`.** -/
theorem execl_answers_iff (k : Kernel) (m : Machine) (path argv : Nat) (hpath : path < 4294967296) :
    Replaced k m path argv ∨ Unchanged k m path argv ↔ Answers k m path argv := by
  have hspec := spec_reading k m argv hpath
  constructor
  · intro hright
    cases hresult : (k.reading (prepare k path argv) m).result with
    | error e => exact absurd hright (not_right_of_error hresult)
    | ok r =>
      have hprepared := (hspec.ok r hresult).1
      cases r with
      | none => exact Or.inl hprepared
      | some p => exact Or.inr ⟨p.1, p.2, hprepared, ends_replace.1 (ends_of_right hpath hprepared hright)⟩
  · rintro (hnone | ⟨program, args, hprepared, hdr, phs, hstartable⟩)
    · exact Or.inr (execl_none hpath hnone)
    · exact Or.inl ⟨program, hdr, phs, replacedBy hpath hprepared hstartable⟩

/-- What can be read of a process. -/
theorem covered_within (m : Machine) (pages : Nat → Bool) (a : Nat) :
    (within m pages).covered a = (m.covered a && (m.mapped a || pages a)) := by
  show ((m.covered a && (m.mapped a || pages a)) || ite _ _ _) = _
  have hnone : (ite (0xF0000000 ≤ a) ((within m pages).sharedVme.get a).isSome
      (if 0x80000000 ≤ a then ((within m pages).vme.get a).isSome else false)) = false := by
    split
    · rfl
    · split <;> rfl
  rw [hnone, Bool.or_false]

/-- The heap of a kernel that has just been started, with 4 KiB. -/
def smallHeap : Heap := (Heap.heapInit 0x1000 0x1000 fun _ => 0).getD (.initial 0x1000 0 fun _ => 0)

/-- A kernel with that heap, and what else a call takes. -/
def smallKernel : Kernel := ⟨64, smallHeap, fun _ => true, fun _ => true, true, true⟩

/-- Where there are only zeros, the path is empty, which is the root, and there are no arguments. -/
theorem prepared_of_zeros (hmem : m.mem = fun _ => 0) (hfirst : m.covered 0x80000000 = true)
    (hlast : m.covered 0x80000003 = true) (hcwd : m.pcb.cwd = none) (hroot : m.fs.root = 2) :
    Prepared smallKernel m 0x80000000 0x80000000 (some (2, [])) := by
  have hzero : u32 0x80000000 = 0x80000000 := u32_of_lt (by decide)
  refine ⟨rfl, ⟨⟨0, ⟨fun k hk => absurd hk (Nat.not_lt_zero k), ?_, by rw [hmem]⟩, ?_⟩, FirstArgs.nil, ?_, ?_⟩, ?_⟩
  · rw [Nat.add_zero, hzero]
    exact hfirst
  · rw [hcwd, Option.getD_none, hroot]
    show (m.fs.findLoop m.stack 0 2 (Path.parse [])).2 = .node 2
    rw [show Path.parse [] = [] from rfl, FileSystem.findLoop]
  · show WordAt m (u32 0x80000000)
    rw [hzero]
    exact ⟨hfirst, hlast⟩
  · rw [pointer, hmem]
    rfl
  · rintro _ hsome
    obtain rfl := Option.some.inj hsome
    exact ⟨by decide, rfl⟩

/-- An array with one argument, `"a"`, behind an empty path. -/
def callerMem : Mem := fun a =>
  if a = 0x80000010 then 0x20 else if a = 0x80000013 then 0x80 else if a = 0x80000020 then 0x61 else 0

/-- A new process that can read everywhere, and has that array. -/
def caller : Machine := { Elf.newProcess Elf.twoProgram with mapped := fun _ => true, mem := callerMem }

theorem caller_covered (a : Nat) : (within caller smallKernel.pages).covered a = true := by
  rw [covered_within]
  rfl

/-- The array is read, and its argument is copied. -/
theorem caller_prepared : Prepared smallKernel (within caller smallKernel.pages) 0x80000000 0x80000010
    (some (2, [[0x61]])) := by
  have hword : ∀ a, WordAt (within caller smallKernel.pages) a := fun a => ⟨caller_covered _, caller_covered _⟩
  have hpointer : pointer (within caller smallKernel.pages) 0x80000010 0 = 0x80000020 := by decide +kernel
  refine ⟨rfl, ⟨⟨0, ⟨fun k hk => absurd hk (Nat.not_lt_zero k), caller_covered _, by decide +kernel⟩, ?_⟩,
    ?_, hword _, by decide +kernel⟩, ?_⟩
  · show (caller.fs.findLoop caller.stack 0 2 (Path.parse [])).2 = .node 2
    rw [show Path.parse [] = [] from rfl, FileSystem.findLoop]
  · intro i hi
    obtain rfl : i = 0 := Nat.lt_one_iff.1 hi
    show ArgIs _ _ 0 [0x61]
    refine ⟨hword _, ?_, ?_, ?_, ?_⟩
    · rw [hpointer]
      decide
    · rw [hpointer]
      refine ⟨fun k hk => ⟨caller_covered _, ?_⟩, caller_covered _, by decide +kernel⟩
      obtain rfl : k = 0 := Nat.lt_one_iff.1 hk
      decide +kernel
    · rw [hpointer]
      decide +kernel
    · rw [hpointer]
      decide +kernel
  · rintro _ hsome
    obtain rfl := Option.some.inj hsome
    exact ⟨by decide, by decide +kernel⟩

/-- Of a segment with room for its bytes, no more than that is written. -/
theorem writes_lt {ph : ProgramHeader} {size i : Nat} (hsize : ph.filesz ≤ ph.memsz)
    (hword : ph.memsz < 4294967296) (h : ph.Writes size i) : i < ph.memsz := by
  have havailable : ph.available size ≤ ph.filesz := Nat.min_le_left _ _
  have hzeros := Elf.zeros_cases (Nat.lt_of_le_of_lt hsize hword) hword
  rcases h with hcopied | ⟨hle, hlt⟩
  · omega
  · omega

/-- The first request covers both segments, and so does what remains of it the stack. -/
theorem caller_startable : Startable smallKernel caller Elf.twoProgram.io
    (Elf.programHdr Elf.twoSegments) Elf.twoSegments [[0x61]] := by
  have hgap : grow 0x80000000 0x3001 = 0x80004000 := by decide +kernel
  have hlow : ∀ sizes a, 0x80000000 ≤ a → a < 0x80004000 →
      Room smallKernel caller (0x3001 :: sizes) a := by
    intro sizes a h1 h2
    refine ⟨h1, Or.inr rfl, ?_⟩
    rw [if_pos (by omega), Covers, hgap]
    exact Or.inl ⟨h1, h2⟩
  have hloads : Elf.loadsOf Elf.twoSegments = Elf.twoSegments := by decide
  refine ⟨Elf.twoProgram_loadable.valid, Elf.twoProgram_loadable.table, ?_, ?_, rfl, by decide⟩
  · rw [hloads]
    refine ⟨⟨by decide +kernel, fun i hi => ?_⟩, ⟨by decide +kernel, fun i hi => ?_⟩, trivial⟩
    · have hlt := writes_lt (by decide) (by decide) hi
      simp only at hlt ⊢
      rw [u32_of_lt (by omega)]
      exact hlow _ _ (by omega) (by omega)
    · have hlt := writes_lt (by decide) (by decide) hi
      simp only at hlt ⊢
      rw [u32_of_lt (by omega)]
      exact hlow _ _ (by omega) (by omega)
  · have hstack : grow 0x80006000 stackSize = 0x88006000 := by decide +kernel
    have hwritten : ∀ w ∈ (Sys.loadArgs (stackPointer (requests (Elf.loadsOf Elf.twoSegments)))
        ([[0x61]].map cString)).2, ∀ a ∈ Sys.written w, 0x80006000 ≤ a ∧ a < 0x88006000 := by decide +kernel
    intro w hw a ha
    obtain ⟨h1, h2⟩ := hwritten w hw a ha
    refine ⟨by omega, Or.inr rfl, ?_⟩
    rw [if_pos (by omega), hloads]
    have htop : grow (grow (grow 0x80000000 0x3001) 6) 2 = 0x80006000 := by decide +kernel
    show Covers 0x80000000 [0x3001, 6, 2, stackSize] a
    refine Or.inr (Or.inr (Or.inr (Or.inl ?_)))
    rw [htop, hstack]
    exact ⟨h1, h2⟩

/-- A program is replaced. -/
theorem execl_answers_iff_two : Replaced smallKernel caller 0x80000000 0x80000010 ∨
    Unchanged smallKernel caller 0x80000000 0x80000010 :=
  (execl_answers_iff smallKernel caller 0x80000000 0x80000010 (by decide)).2
    (Or.inr ⟨2, [[0x61]], caller_prepared, _, _, caller_startable⟩)

/-- The root is no program: the first process ends in a panic if it calls `execl` with an empty path, although
    the kernel lacks nothing. -/
theorem execl_panics : ¬ ∀ k m path argv, path < 4294967296 →
    Replaced k m path argv ∨ Unchanged k m path argv := by
  intro hall
  have hinvalid : Elf.header (Sys.firstProcess.fs.node 2).io = none := by
    unfold Elf.header
    rw [show (Sys.firstProcess.fs.node 2).io.readThing 0 Elf.elfHeaderSize = none by decide +kernel]
    rfl
  have hcovered : ∀ a, Sys.firstProcess.covered a = true →
      (within Sys.firstProcess smallKernel.pages).covered a = true := by
    intro a ha
    rw [covered_within, ha]
    exact (Bool.true_and _).trans (Bool.or_true _)
  have hprepared : Prepared smallKernel (within Sys.firstProcess smallKernel.pages) 0x80000000 0x80000000
      (some (2, [])) :=
    prepared_of_zeros rfl (hcovered _ (by decide +kernel)) (hcovered _ (by decide +kernel)) rfl rfl
  have hright := (execl_answers_iff smallKernel Sys.firstProcess 0x80000000 0x80000000 (by decide)).1
    (hall _ _ _ _ (by decide))
  rcases hright with hnone | ⟨program, args, hother, hdr, phs, hstartable⟩
  · cases hnone.found.unique hprepared.found
  · have hsame := hother.found.unique hprepared.found
    obtain ⟨rfl, -⟩ := Prod.mk.inj (Option.some.inj hsame)
    have hvalid := hstartable.valid
    rw [hinvalid] at hvalid
    cases hvalid

end Exec

end BadApple
