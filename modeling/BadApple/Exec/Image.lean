/-
  What a program finds when it is started (kernel/sys.cc, kernel/kernel.cc, kernel/elf.cc).

  1. **Alike** — `execl` and `kernelMain` load a program, ask for a stack behind it, put the arguments on the
     stack and go on in user mode: `launch` is what both do, up to where they go on.
  2. **Room** — the requests of the program and of the stack are granted one after the other (`Runnable`), so
     the stack comes to lie above every segment, and `load_args` writes to nothing but the stack.  If the
     kernel has what that takes (`Kernel.Provides`), the program is `Startable`.
  3. **The result** — `execl_starts`: the strings that the old program's `argv` points to are those that the
     new program finds, and its segments are those of the file; `kernelMain_starts` says the same of `init`,
     which the kernel starts with plenty of everything.
-/
import Mathlib.Data.List.TakeWhile
import BadApple.Exec.Replace

namespace BadApple

open Effects Memory

namespace Exec

open Sys (Handler Machine Access CString Looked FileNode storeBytes)
open Elf (ElfHeader ProgramHeader)

variable {k : Kernel} {m m' : Machine} {mem : Mem} {io : BlockIo} {hdr : ElfHeader} {phs : List ProgramHeader}
  {argv : List CString} {args : List (List UInt8)} {path program a : Nat} {v : VME FileNode}
  {sizes rest : List Nat} {ws : List Write}

/-! ## Model -/

/-- A program is loaded, with its stack and its arguments, and then `go` is called with the entry point and
    the stack pointer. -/
def launch {α : Type} (program : Nat) (argv : List CString) (go : Nat → Nat → Handler α) : Handler α := do
  let e ← Elf.load program
  let stackStart ← mmapStack
  let userEsp := u32 (stackStart + stackSize - 16)
  let userEsp ← loadArgs userEsp argv
  go e userEsp

/-- `"/sbin/init"`. -/
def initPath : List UInt8 := [47, 115, 98, 105, 110, 47, 105, 110, 105, 116]

/-- `kernelMain`, when the file system is there. -/
def kernelMain : Handler Outcome := do
  let m ← getState
  match ← Sys.find m.fs.root initPath with
  | none => stop .null
  | some init =>
    launch init [Sys.initArg] fun e userEsp =>
      if userEsp % 16 = 0 then pure (.switched e userEsp) else stop .panic

/-- `execl` launches the program, if there is room for `length`. -/
theorem start_eq (hroom : (args.length + 1) + args.length ≤ k.stackWords) :
    start k program args = launch program (args.map cString) fun e userEsp => pure (.switched e userEsp) := by
  unfold start
  simp only [if_neg (Nat.not_lt.2 hroom)]
  rfl

/-! ## What is started -/

/-- **A program that can be run** with these arguments: as `Elf.Loadable`, with room for the stack behind it,
    and the arguments take up no more than the stack. -/
structure Runnable (io : BlockIo) (hdr : ElfHeader) (phs : List ProgramHeader) (argv : List CString) :
    Prop where
  valid : Elf.header io = some hdr
  table : (List.range hdr.phnum).mapM (Elf.programHeader io hdr) = some phs
  fits : ∀ ph ∈ Elf.loadsOf phs, Elf.Fits io ph
  apart : (Elf.loadsOf phs).Pairwise Elf.Apart
  granted : Elf.Granted Elf.freshVme (requests (Elf.loadsOf phs) ++ [stackSize])
  image : Sys.image argv ≤ 33554416

/-- **The program is started**: it has its segments and its arguments, and a stack from `bottom` on; the
    tables, the open files and the file system are those of `m`. -/
structure Started (m : Machine) (io : BlockIo) (phs : List ProgramHeader) (argv : List CString)
    (bottom esp : Nat) (m' : Machine) : Prop where
  segments : ∀ ph ∈ Elf.loadsOf phs, Elf.Loaded io ph m' ∧ ph.vaddr + ph.memsz ≤ bottom
  stack : ∀ a, bottom ≤ a → a < bottom + stackSize → m'.covered a = true
  inside : bottom ≤ esp ∧ esp + Sys.image argv ≤ bottom + stackSize - 16
  aligned : esp % 16 = 0
  arguments : Sys.decode m'.mem esp = argv.map CString.bytes
  kept : { m with vme := m'.vme, mem := m'.mem } = m'

/-! ## Requests -/

/-- Requests are granted one after the other. -/
theorem granted_append : ∀ (sizes : List Nat) (v : VME FileNode),
    Elf.Granted v (sizes ++ rest) ↔ Elf.Granted v sizes ∧ Elf.Granted (ask v sizes) rest := by
  intro sizes
  induction sizes with
  | nil => exact fun v => ⟨fun h => ⟨trivial, h⟩, fun h => h.2⟩
  | cons size sizes ih =>
    intro v
    constructor
    · rintro ⟨hne, hlt, hrest⟩
      obtain ⟨hfirst, hlast⟩ := (ih _).1 hrest
      exact ⟨⟨hne, hlt, hfirst⟩, hlast⟩
    · rintro ⟨⟨hne, hlt, hfirst⟩, hlast⟩
      exact ⟨hne, hlt, (ih _).2 ⟨hfirst, hlast⟩⟩

/-- Pages are handed out whole. -/
theorem grow_aligned {top : Nat} (size : Nat) (h : top % 4096 = 0) : grow top size % 4096 = 0 := by
  unfold grow
  by_cases hfits : u32 (top + size) ≤ 0xF0000000
  · rw [if_pos hfits, u32_eq, u32_eq]
    omega
  · rw [if_neg hfits]
    exact h

theorem foldl_grow_aligned : ∀ (sizes : List Nat) {top : Nat}, top % 4096 = 0 →
    sizes.foldl grow top % 4096 = 0 := by
  intro sizes
  induction sizes with
  | nil => exact fun h => h
  | cons size sizes ih => exact fun h => ih (grow_aligned size h)

/-- **The room for all segments** reaches to the end of each. -/
theorem filled_requests : ∀ (phs : List ProgramHeader) {v : VME FileNode}, Elf.Filled v →
    Elf.Granted v (requests phs ++ rest) → (∀ ph ∈ phs, 0x80000000 ≤ ph.vaddr) →
    Elf.Filled (ask v (requests phs)) ∧ Elf.Granted (ask v (requests phs)) rest ∧
      v.avail ≤ (ask v (requests phs)).avail ∧
      ∀ ph ∈ phs, ph.vaddr + ph.memsz ≤ (ask v (requests phs)).avail := by
  intro phs
  induction phs with
  | nil => exact fun hF hgranted _ => ⟨hF, hgranted, Nat.le_refl _, fun _ h => absurd h List.not_mem_nil⟩
  | cons ph phs ih =>
    intro v hF hgranted hstart
    rw [requests_cons, List.append_assoc] at hgranted
    obtain ⟨v', hv', hF', hgranted', hgrows, hreach⟩ := hF.requests (hstart ph List.mem_cons_self) hgranted
    obtain ⟨hfilled, hrest, hgrows', hall⟩ :=
      ih hF' hgranted' fun q hq => hstart q (List.mem_cons_of_mem _ hq)
    have hask : ask v (requests (ph :: phs)) = ask v' (requests phs) := by
      rw [requests_cons, ask_append]
      exact congrArg (ask · _) hv'
    rw [hask]
    refine ⟨hfilled, hrest, Nat.le_trans hgrows hgrows', fun q hq => ?_⟩
    rcases List.mem_cons.1 hq with rfl | hq
    · exact Nat.le_trans hreach hgrows'
    · exact hall q hq

/-- **The stack** lies behind all segments, and there is room for it. -/
structure StackAt (v : VME FileNode) (phs : List ProgramHeader) : Prop where
  filled : Elf.Filled v
  granted : Elf.Granted v [stackSize]
  aligned : v.avail % 4096 = 0
  above : ∀ ph ∈ phs, ph.vaddr + ph.memsz ≤ v.avail
  below : v.avail + stackSize ≤ 0xF0000000

theorem Runnable.stackAt (h : Runnable io hdr phs argv) :
    StackAt (ask Elf.freshVme (requests (Elf.loadsOf phs))) (Elf.loadsOf phs) := by
  obtain ⟨hfilled, hgranted, -, hall⟩ := filled_requests _ Elf.filled_fresh h.granted
    fun ph hph => (h.fits ph hph).user.1
  refine ⟨hfilled, hgranted, ?_, hall, ?_⟩
  · rw [(Bump.ask _ bump_fresh).2.1]
    exact foldl_grow_aligned _ (by decide)
  · obtain ⟨hne, hlt, -⟩ := hgranted
    obtain ⟨-, hstart, -, -⟩ := (Bump.ask (requests (Elf.loadsOf phs)) bump_fresh).1.addEntry stackSize
    by_contra hhigh
    rw [hstart, u32_of_lt hlt, if_neg hhigh] at hne
    exact hne rfl

/-! ## Loading -/

/-- One segment changes the address space and memory only. -/
theorem loadSegment_frame (io : BlockIo) (ph : ProgramHeader) (m : Machine) :
    Spec (fun _ => True) (Elf.loadSegment io ph) m (fun _ m' => ∃ mem, { m with
      vme := ask m.vme (if ph.type = 1 then ph.requests else []), mem := mem } = m') fun _ _ => True := by
  by_cases hload : ph.type = 1
  · by_cases haccepted : ph.rejected = false
    · rw [Elf.loadSegment_eq hload haccepted, if_pos hload]
      refine Spec.bind Sys.spec_modify ?_
      rintro _ _ rfl
      refine Spec.bind ((Sys.spec_storeBytes_keeps _ _ _).mono (fun _ _ => trivial) (fun _ _ h => h)
        fun _ _ _ => trivial) ?_
      rintro _ _ ⟨mem, rfl⟩
      refine (Sys.spec_storeBytes_keeps _ _ _).mono (fun _ _ => trivial) ?_ fun _ _ _ => trivial
      rintro _ _ ⟨mem', rfl⟩
      exact ⟨mem', rfl⟩
    · rw [Elf.loadSegment_rejected hload (eq_true_of_ne_false haccepted)]
      exact Spec.stop trivial
  · rw [Elf.loadSegment_skip hload, if_neg hload]
    exact Spec.pure ⟨m.mem, rfl⟩

/-- So does the loop, and it makes all requests. -/
theorem loadSegments_frame (io : BlockIo) (hdr : ElfHeader) : ∀ (n i : Nat) (m : Machine)
    (phs : List ProgramHeader), (List.range' i n).mapM (Elf.programHeader io hdr) = some phs →
    Spec (fun _ => True) (Elf.loadSegments io hdr.phentsize n (hdr.at i)) m (fun _ m' => ∃ mem, { m with
      vme := ask m.vme (requests (Elf.loadsOf phs)), mem := mem } = m') fun _ _ => True := by
  intro n
  induction n with
  | zero =>
    intro i m phs htable
    obtain rfl : [] = phs := Option.some.inj htable
    exact Spec.pure ⟨m.mem, rfl⟩
  | succ n ih =>
    intro i m phs htable
    cases hph : Elf.programHeader io hdr i with
    | none =>
      rw [List.range'_succ, List.mapM_cons, hph] at htable
      cases htable
    | some ph =>
      obtain ⟨rest, hrest, rfl⟩ := (table_cons hph).1 htable
      rw [Elf.loadSegments_succ hph]
      refine Spec.bind (loadSegment_frame io ph m) ?_
      rintro _ _ ⟨mem, rfl⟩
      refine (ih (i + 1) _ rest hrest).mono (fun _ h => h) ?_ fun _ _ h => h
      rintro _ _ ⟨mem', rfl⟩
      refine ⟨mem', ?_⟩
      by_cases hload : ph.type = 1
      · rw [if_pos hload, loadsOf_cons_load hload, requests_cons, ask_append]
      · rw [if_neg hload, loadsOf_cons_skip hload]
        rfl

/-- **`ELF::load` of what can be run**: the segments are in place, with room for the stack behind them. -/
theorem spec_load {E : Sys.Stop → Machine → Prop} (hfresh : m.vme = Elf.freshVme)
    (h : Runnable (m.fs.node program).io hdr phs argv) :
    Spec (fun _ => True) (Elf.load program) m (fun e m' => e = hdr.entry ∧ StackAt m'.vme (Elf.loadsOf phs) ∧
      (∀ ph ∈ Elf.loadsOf phs, Elf.HasBytes (m.fs.node program).io ph m') ∧
      ∃ v mem, { m with vme := v, mem := mem } = m') E := by
  have hstack := h.stackAt
  obtain ⟨hgranted, -⟩ := (granted_append _ _).1 h.granted
  have htable := h.table
  rw [List.range_eq_range'] at htable
  have hfilled : Elf.Filled m.vme := by
    rw [hfresh]
    exact Elf.filled_fresh
  rw [← hfresh] at hstack hgranted
  have hplaced := @Elf.spec_loadSegments (m.fs.node program).io hdr (m.fs.node program).blockSize_pos
    hdr.phnum 0 m phs [] htable hfilled hgranted h.fits h.apart fun _ h => absurd h List.not_mem_nil
  have hframe := loadSegments_frame (m.fs.node program).io hdr hdr.phnum 0 m phs htable
  refine Spec.of_eq (Elf.load_eq h.valid) ?_
  refine Spec.bind ((hplaced.and hframe).mono (fun _ _ => trivial) (fun _ _ h => h) ?_) ?_
  · rintro e m' ⟨⟨ph, hph, hend⟩, -⟩
    have habove := hstack.above ph hph
    have hbelow := hstack.below
    unfold stackSize at hbelow
    omega
  · rintro _ _ ⟨⟨-, hbytes⟩, mem, rfl⟩
    exact Spec.pure ⟨rfl, hstack, fun ph hph => (hbytes ph hph).2, _, _, rfl⟩

/-! ## The arguments -/

theorem cells_cons {b : UInt8} {l : List UInt8} (ha : a < 4294967296) :
    Sys.cells ⟨a, b :: l⟩ = (a, b) :: Sys.cells ⟨u32 (a + 1), l⟩ := by
  unfold Sys.cells Sys.written Write.places
  simp only
  rw [List.length_cons, List.range'_succ, List.map_cons, List.zip_cons_cons, u32_of_lt ha]
  refine congrArg (fun places => (a, b) :: List.zip places l) ?_
  rw [List.range'_eq_map_range, List.range'_eq_map_range, List.map_map, List.map_map]
  refine List.map_congr_left fun k _ => ?_
  show u32 (a + 1 + k) = u32 (u32 (a + 1) + k)
  rw [u32_add]

/-- Bytes are stored where the addresses, which may wrap around, can be accessed. -/
theorem spec_storeCells {E : Sys.Stop → Machine → Prop} : ∀ (l : List UInt8) (a : Nat) (m : Machine),
    a < 4294967296 → (∀ x ∈ Sys.written ⟨a, l⟩, m.covered x = true) →
    Spec (fun _ => True) (storeBytes a l) m (fun _ m' =>
      { m with mem := storeCells m.mem (Sys.cells ⟨a, l⟩) } = m') E := by
  intro l
  induction l with
  | nil => exact fun _ _ _ _ => Spec.pure rfl
  | cons b l ih =>
    intro a m ha hcovered
    have hwritten : Sys.written ⟨a, b :: l⟩ = a :: Sys.written ⟨u32 (a + 1), l⟩ := by
      rw [← Sys.cells_fst, ← Sys.cells_fst, cells_cons ha]
      rfl
    rw [hwritten] at hcovered
    refine Spec.bind (Spec.touch (Q := fun _ m' => m = m') trivial rfl) ?_
    rintro _ _ rfl
    refine Spec.bind Sys.spec_getState ?_
    rintro _ _ ⟨rfl, rfl⟩
    rw [if_pos (hcovered a List.mem_cons_self)]
    refine Spec.bind Sys.spec_modify ?_
    rintro _ _ rfl
    rw [cells_cons ha]
    exact ih _ _ (u32_lt _) fun x hx => hcovered x (List.mem_cons_of_mem _ hx)

/-- **All writes**, one after the other. -/
theorem spec_storeAll {E : Sys.Stop → Machine → Prop} : ∀ (ws : List Write) (m : Machine),
    (∀ w ∈ ws, w.addr < 4294967296) → (∀ w ∈ ws, ∀ x ∈ Sys.written w, m.covered x = true) →
    Spec (fun _ => True) (storeAll ws) m (fun _ m' => { m with mem := Sys.perform m.mem ws } = m') E := by
  intro ws
  induction ws with
  | nil => exact fun _ _ _ => Spec.pure rfl
  | cons w ws ih =>
    intro m haddr hcovered
    refine Spec.bind (spec_storeCells w.bytes w.addr m (haddr w List.mem_cons_self)
      (hcovered w List.mem_cons_self)) ?_
    rintro _ _ rfl
    have hrest := ih { m with mem := storeCells m.mem (Sys.cells w) }
      (fun v hv => haddr v (List.mem_cons_of_mem _ hv)) fun v hv => hcovered v (List.mem_cons_of_mem _ hv)
    refine hrest.mono (fun _ h => h) ?_ fun _ _ h => h
    rintro _ _ rfl
    unfold Sys.perform storeCells
    rw [List.flatMap_cons, List.foldl_append]

/-- What is in no write stays. -/
theorem perform_of_not_written (h : ∀ w ∈ ws, a ∉ Sys.written w) : Sys.perform mem ws a = mem a := by
  refine storeCells_outside fun hmem => ?_
  rw [List.map_flatMap] at hmem
  obtain ⟨w, hw, ha⟩ := List.mem_flatMap.1 hmem
  rw [Sys.cells_fst] at ha
  exact h w hw ha

/-- **Arguments that fit** into a stack are put there, -/
theorem loadArgs_fits {bottom : Nat} (himage : Sys.image argv ≤ 33554416) (haligned : bottom % 4096 = 0)
    (hbelow : bottom + stackSize ≤ 0xF0000000) : Sys.Loads (bottom + stackSize - 16) argv ∧
      bottom ≤ (Sys.loadArgs (bottom + stackSize - 16) argv).1 ∧
      (Sys.loadArgs (bottom + stackSize - 16) argv).1 + Sys.image argv ≤ bottom + stackSize - 16 := by
  unfold stackSize at hbelow ⊢
  have htaken : Sys.taken argv = 4 * ((Sys.image argv + 15) / 16 * 16) := u32_of_lt (by omega)
  have hshort : ∀ s ∈ argv, s.bytes.length + 1 < 2147483648 := by
    intro s hs
    obtain ⟨before, after, rfl⟩ := List.append_of_mem hs
    unfold Sys.image at himage
    rw [Sys.total_append, Sys.total_cons] at himage
    omega
  have hesp : (Sys.loadArgs (bottom + 134217728 - 16) argv).1 = bottom + 134217728 - 16 - Sys.taken argv := by
    rw [Sys.loadArgs_eq (by omega)]
    exact Sys.sub_of_le (by omega) (by omega)
  rw [hesp]
  refine ⟨?_, by omega, by omega⟩
  exact (Sys.loadArgs_iff (bottom + 134217728 - 16) argv (by omega) (by omega) (by omega)).2
    ⟨by omega, by omega, hshort⟩

/-- and found there, and nothing below it changes. -/
theorem spec_loadArgs {E : Sys.Stop → Machine → Prop} {bottom : Nat} (himage : Sys.image argv ≤ 33554416)
    (haligned : bottom % 4096 = 0) (hbelow : bottom + stackSize ≤ 0xF0000000)
    (hcovered : ∀ x, bottom ≤ x → x < bottom + stackSize → m.covered x = true) :
    Spec (fun _ => True) (loadArgs (u32 (bottom + stackSize - 16)) argv) m (fun esp m' =>
      (bottom ≤ esp ∧ esp + Sys.image argv ≤ bottom + stackSize - 16) ∧ esp % 16 = 0 ∧
      Sys.decode m'.mem esp = argv.map CString.bytes ∧ (∀ x, x < bottom → m'.mem x = m.mem x) ∧
      { m with mem := m'.mem } = m') E := by
  obtain ⟨hloads, hlow, hhigh⟩ := loadArgs_fits himage haligned hbelow
  have hword : bottom + stackSize - 16 < 4294967296 := by omega
  rw [u32_of_lt hword]
  refine Spec.bind (spec_storeAll _ m (loadArgs_addr _ _) fun w hw x hx => ?_) ?_
  · obtain ⟨h1, h2⟩ := (hloads m.mem).inside w hw x hx
    exact hcovered x (by omega) (by omega)
  · rintro _ _ rfl
    refine Spec.pure ⟨⟨hlow, hhigh⟩, (hloads m.mem).aligned, (hloads m.mem).decoded, fun x hx => ?_, rfl⟩
    refine perform_of_not_written fun w hw hx' => ?_
    have hinside := ((hloads m.mem).inside w hw x hx').1
    omega

/-! ## What the kernel provides -/

/-- **What the kernel needs to start a program** with these arguments: a frame for each page that is written,
    and room for `length`. -/
structure Kernel.Provides (k : Kernel) (phs : List ProgramHeader) (args : List (List UInt8)) : Prop where
  loads : k.loads = true
  array : (args.length + 1) + args.length ≤ k.stackWords
  segments : ∀ ph ∈ Elf.loadsOf phs, ∀ i, i < ph.memsz → k.frames (ph.vaddr + i) = true
  stack : ∀ w ∈ (Sys.loadArgs (stackPointer (requests (Elf.loadsOf phs))) (args.map cString)).2,
    ∀ a ∈ Sys.written w, k.frames a = true

/-- Below what comes next there is room. -/
theorem room_of_filled (hF : Elf.Filled (ask Elf.freshVme sizes)) (hlow : 0x80000000 ≤ a)
    (hbelow : a < (ask Elf.freshVme sizes).avail) (huser : a < 0xF0000000) (hframe : k.frames a = true) :
    Room k m sizes a := by
  refine (covered_asking k m sizes m.mem a).1 ⟨⟨hlow, Or.inr hframe⟩, ?_⟩
  exact Elf.covered_of_get hlow huser (hF.covered a hlow hbelow)

/-- **Segments that get their room** can be put where they belong. -/
theorem placeable_of_granted : ∀ (phs : List ProgramHeader) (sizes : List Nat),
    Elf.Filled (ask Elf.freshVme sizes) → Elf.Granted (ask Elf.freshVme sizes) (requests phs ++ rest) →
    (∀ ph ∈ phs, Elf.Fits io ph ∧ ph.vaddr + ph.memsz < 0xF0000000) →
    (∀ ph ∈ phs, ∀ i, i < ph.memsz → k.frames (ph.vaddr + i) = true) →
    Placeable k m io.sizeInBytes sizes phs := by
  intro phs
  induction phs with
  | nil => exact fun _ _ _ _ _ => trivial
  | cons ph phs ih =>
    intro sizes hF hgranted hfits hframes
    obtain ⟨hfit, hend⟩ := hfits ph List.mem_cons_self
    have hstart := hfit.user.1
    rw [requests_cons, List.append_assoc] at hgranted
    obtain ⟨v', hv', hF', hgranted', -, hreach⟩ := hF.requests hstart hgranted
    have hask : ask Elf.freshVme (sizes ++ ph.requests) = v' := (ask_append _ _ _).trans hv'
    rw [← hask] at hF' hgranted' hreach
    refine ⟨⟨?_, fun i hi => ?_⟩, ih _ hF' hgranted' (fun q hq => hfits q (List.mem_cons_of_mem _ hq))
      fun q hq => hframes q (List.mem_cons_of_mem _ hq)⟩
    · unfold ProgramHeader.rejected
      rw [u32_of_lt (by omega), Bool.or_eq_false_iff, decide_eq_false_iff_not, decide_eq_false_iff_not]
      omega
    · have hlt := writes_lt hfit.size (by omega) hi
      rw [u32_of_lt (by omega)]
      exact room_of_filled hF' (by omega) (by omega) (by omega) (hframes ph List.mem_cons_self i hlt)

/-- **A program that can be run** can be started by a kernel with what that takes. -/
theorem Runnable.startable (h : Runnable io hdr phs (args.map cString)) (hk : k.Provides phs args) :
    Startable k m io hdr phs args := by
  have hstack := h.stackAt
  have hbelow := hstack.below
  obtain ⟨hfilled, hreach⟩ := hstack.filled.addEntry hstack.granted
  have hask : ask Elf.freshVme (requests (Elf.loadsOf phs) ++ [stackSize]) =
      ((ask Elf.freshVme (requests (Elf.loadsOf phs))).addEntry stackSize none 0 false).2 := ask_append _ _ _
  have hbottom : stackPointer (requests (Elf.loadsOf phs)) =
      (ask Elf.freshVme (requests (Elf.loadsOf phs))).avail + stackSize - 16 := by
    have htop : (requests (Elf.loadsOf phs)).foldl grow 0x80000000 =
        (ask Elf.freshVme (requests (Elf.loadsOf phs))).avail := (Bump.ask _ bump_fresh).2.1.symm
    unfold stackPointer
    rw [htop]
    unfold stackSize at hbelow ⊢
    generalize (ask Elf.freshVme (requests (Elf.loadsOf phs))).avail = bottom at hbelow ⊢
    have hsum : u32 (bottom + 134217728) = bottom + 134217728 := u32_of_lt (by omega)
    rw [hsum, if_pos hbelow]
    exact u32_of_lt (by omega)
  obtain ⟨hloads, hlow, hhigh⟩ := loadArgs_fits h.image hstack.aligned hbelow
  refine ⟨h.valid, h.table, ?_, fun w hw a ha => ?_, hk.loads, hk.array⟩
  · refine placeable_of_granted _ [] Elf.filled_fresh h.granted (fun ph hph => ⟨h.fits ph hph, ?_⟩) hk.segments
    have habove := hstack.above ph hph
    unfold stackSize at hbelow
    omega
  · have hframe := hk.stack w hw a ha
    rw [hbottom] at hw
    obtain ⟨h1, h2⟩ := (hloads m.mem).inside w hw a ha
    have hstart := hstack.filled.start_le
    rw [← hask] at hfilled hreach
    exact room_of_filled hfilled (by omega) (by omega) (by omega) hframe

/-! ## The result -/

/-- The stack is asked for where `StackAt` says it is. -/
theorem spec_mmapStack {E : Sys.Stop → Machine → Prop} (h : StackAt m.vme phs) :
    Spec (fun _ => True) mmapStack m (fun start m' => start = m.vme.avail ∧
      (∀ a, 0x80000000 ≤ a → a < m.vme.avail + stackSize → (m'.vme.get a).isSome) ∧
      { m with vme := m'.vme } = m') E := by
  obtain ⟨hfilled, hreach⟩ := h.filled.addEntry h.granted
  have hbump : Bump m.vme := ⟨h.filled.limit, h.filled.noneFree⟩
  have hbelow := h.below
  refine Spec.bind Sys.spec_getState ?_
  rintro _ _ ⟨rfl, rfl⟩
  refine Spec.bind Sys.spec_modify ?_
  rintro _ _ rfl
  refine Spec.pure ⟨?_, fun a hlow hhigh => hfilled.covered a hlow (Nat.lt_of_lt_of_le hhigh hreach), rfl⟩
  rw [(hbump.addEntry stackSize).2.1, u32_of_lt (by omega), if_pos hbelow]

/-- **A program that can be run is started**, whatever is done with the entry point and the stack pointer. -/
theorem spec_launch {α : Type} {go : Nat → Nat → Handler α} {Q : α → Machine → Prop}
    {E : Sys.Stop → Machine → Prop} (hfresh : m.vme = Elf.freshVme)
    (h : Runnable (m.fs.node program).io hdr phs argv)
    (hgo : ∀ bottom esp m', Started m (m.fs.node program).io phs argv bottom esp m' →
      Spec (fun _ => True) (go hdr.entry esp) m' Q E) :
    Spec (fun _ => True) (launch program argv go) m Q E := by
  refine Spec.bind (spec_load hfresh h) ?_
  rintro _ m₁ ⟨rfl, hstack, hbytes, v, mem, hm₁⟩
  refine Spec.bind (spec_mmapStack hstack) ?_
  rintro _ m₂ ⟨rfl, hget, hm₂⟩
  have hlow := hstack.filled.start_le
  have hbelow := hstack.below
  have hroom : ∀ m' : Machine, m'.vme = m₂.vme → ∀ x, m₁.vme.avail ≤ x → x < m₁.vme.avail + stackSize →
      m'.covered x = true := by
    intro m' hvme x hx hx'
    refine Elf.covered_of_get (by omega) (by omega) ?_
    rw [hvme]
    exact hget x (by omega) hx'
  refine Spec.bind (spec_loadArgs h.image hstack.aligned hbelow (hroom m₂ rfl)) ?_
  rintro esp m₃ ⟨hinside, haligned, hdecoded, hrest, hm₃⟩
  have hvme : m₃.vme = m₂.vme := by rw [← hm₃]
  have hmem : m₂.mem = m₁.mem := by rw [← hm₂]
  refine hgo m₁.vme.avail esp m₃ ⟨fun ph hph => ⟨fun k hk => ⟨?_, ?_⟩, hstack.above ph hph⟩, hroom m₃ hvme,
    hinside, haligned, hdecoded, ?_⟩
  · have hstart := (h.fits ph hph).user.1
    have hend := hstack.above ph hph
    rw [hvme]
    exact hget _ (by omega) (by omega)
  · have hend := hstack.above ph hph
    rw [hrest _ (by omega), hmem]
    exact hbytes ph hph k hk
  · rw [← hm₃, ← hm₂, ← hm₁]

/-- The arguments that pass the check have no NUL in them. -/
theorem Found.cString_bytes (h : Found m path a (some (program, args))) :
    (args.map cString).map CString.bytes = args := by
  rw [List.map_map]
  refine (List.map_congr_left fun s hs => ?_).trans (List.map_id args)
  obtain ⟨i, hi, rfl⟩ := List.mem_iff_getElem.1 hs
  have harg := h.2.1 i hi
  refine List.takeWhile_eq_self_iff.2 fun b hb => decide_eq_true ?_
  rw [harg.bytes] at hb
  obtain ⟨i, hi, rfl⟩ := List.mem_map.1 hb
  exact (harg.string.1 i (List.mem_range.1 hi)).2

/-- **`execl` starts the program** that `path` names, if it can be run with the arguments that `argv` points
    to, and the kernel has what it takes to copy them and to start it: nothing of the old address space is
    left, and the new program finds these arguments. -/
theorem execl_starts (k : Kernel) (m : Machine) (path argv program : Nat) (args : List (List UInt8))
    (hdr : ElfHeader) (phs : List ProgramHeader) (hpath : path < 4294967296)
    (hprepared : Prepared k (within m k.pages) path argv (some (program, args)))
    (hrunnable : Runnable (m.fs.node program).io hdr phs (args.map cString)) (hk : k.Provides phs args) :
    ∃ bottom esp m', (execl k path argv m).result = .ok (.switched hdr.entry esp) ∧
      (execl k path argv m).state = m' ∧ Sys.decode m'.mem esp = args ∧ (∀ a, isUser a → m'.mapped a = false) ∧
      Started { m with mapped := m'.mapped } (m.fs.node program).io phs (args.map cString) bottom esp m' := by
  have hspec : Spec (fun _ => True) (start k program args) (asking m [] m.mem) (fun o m' => ∃ bottom esp,
      o = .switched hdr.entry esp ∧ Sys.decode m'.mem esp = args ∧ (∀ a, isUser a → m'.mapped a = false) ∧
      Started { m with mapped := m'.mapped } (m.fs.node program).io phs (args.map cString) bottom esp m')
      fun _ _ => False := by
    rw [start_eq hk.array]
    refine spec_launch rfl hrunnable fun bottom esp m' hstarted => Spec.pure ⟨bottom, esp, rfl, ?_, ?_, ?_⟩
    · rw [hstarted.arguments, hprepared.found.cString_bytes]
    · intro a ha
      rw [← hstarted.kept]
      show (m.mapped a && !isUser a) = false
      rw [ha, Bool.not_true, Bool.and_false]
    · have hmapped : m'.mapped = fun a => m.mapped a && !isUser a := by
        rw [← hstarted.kept]
        rfl
      refine { hstarted with kept := ?_ }
      rw [hmapped]
      exact hstarted.kept
  obtain ⟨o, hok, bottom, esp, rfl, hrest⟩ := hspec.returns
  -- nothing on the way meets the limits of the kernel
  obtain ⟨o', hok', -, -⟩ := replace_leaves (hrunnable.startable (m := m) hk)
  have hrun : replace k program args m = start k program args (asking m [] m.mem) := by
    rw [replace_limited hk.loads] at hok' ⊢
    exact limited_of_ok hok'
  rw [execl_some hpath hprepared, hrun]
  exact ⟨bottom, esp, _, hok, rfl, hrest⟩

/-- The two segments are 6 and 2 bytes long, and the image of one argument is short. -/
theorem caller_runnable : Runnable Elf.twoProgram.io (Elf.programHdr Elf.twoSegments) Elf.twoSegments
    ([[0x61]].map cString) :=
  ⟨Elf.twoProgram_loadable.valid, Elf.twoProgram_loadable.table, Elf.twoProgram_loadable.fits,
    Elf.twoProgram_loadable.apart, by decide +kernel, by decide⟩

/-- The program that was looked up runs. -/
theorem execl_starts_two : ∃ bottom esp m', (execl smallKernel 0x80000000 0x80000010 caller).result =
      .ok (.switched 0x80000000 esp) ∧
    (execl smallKernel 0x80000000 0x80000010 caller).state = m' ∧ Sys.decode m'.mem esp = [[0x61]] ∧
    (∀ a, isUser a → m'.mapped a = false) ∧
    Started { caller with mapped := m'.mapped } Elf.twoProgram.io Elf.twoSegments ([[0x61]].map cString)
      bottom esp m' :=
  execl_starts smallKernel caller 0x80000000 0x80000010 2 [[0x61]] _ _ (by decide) caller_prepared
    caller_runnable ⟨rfl, by decide, fun _ _ _ _ => rfl, fun _ _ _ _ => rfl⟩

/-- **`kernelMain` starts `init`**, if `/sbin/init` is a program that can be run: its only argument is `init`,
    and the stack pointer passes the assertion.  The reads of the file come back, and there are free frames for
    the pages that are written. -/
theorem kernelMain_starts (m : Machine) (program : Nat) (hdr : ElfHeader) (phs : List ProgramHeader)
    (hfresh : m.vme = Elf.freshVme) (hfind : m.fs.find m.stack m.fs.root initPath = .node program)
    (hrunnable : Runnable (m.fs.node program).io hdr phs [Sys.initArg]) :
    ∃ bottom esp, (kernelMain m).result = .ok (.switched hdr.entry esp) ∧
      Started m (m.fs.node program).io phs [Sys.initArg] bottom esp (kernelMain m).state := by
  have hspec : Spec (fun _ => True) kernelMain m (fun o m' => ∃ bottom esp, o = .switched hdr.entry esp ∧
      Started m (m.fs.node program).io phs [Sys.initArg] bottom esp m') fun _ _ => False := by
    refine Spec.bind Sys.spec_getState ?_
    rintro _ _ ⟨rfl, rfl⟩
    refine Spec.bind (Sys.spec_find fun hstops => ?_) ?_
    · rw [hfind] at hstops
      cases hstops
    rintro found _ ⟨hfound, rfl⟩
    rw [hfind] at hfound
    cases found with
    | none => cases hfound
    | some init =>
      obtain rfl : program = init := Lookup.node.inj hfound
      refine spec_launch hfresh hrunnable fun bottom esp m' hstarted => ?_
      rw [if_pos hstarted.aligned]
      exact Spec.pure ⟨bottom, esp, rfl, hstarted⟩
  obtain ⟨o, hok, bottom, esp, rfl, hstarted⟩ := hspec.returns
  exact ⟨bottom, esp, hok, hstarted⟩

/-- A directory `/sbin` with `init` in it. -/
def bootFs : FileSystem where
  root := 2
  node := fun n => if n = 5 then Elf.twoProgram else Sys.emptyFs.node n
  findOne := fun dir name =>
    if dir = 2 ∧ name = [115, 98, 105, 110] then .node 3
    else if dir = 3 ∧ name = [105, 110, 105, 116] then .node 5
    else .null

theorem bootFs_find (stack : Nat → Nat → UInt8) : bootFs.find stack 2 initPath = .node 5 := by
  show (bootFs.findLoop stack 0 2 (Path.parse initPath)).2 = .node 5
  rw [show Path.parse initPath = [[47], [115, 98, 105, 110], [105, 110, 105, 116]] by decide +kernel,
    FileSystem.findLoop]
  show (bootFs.findLoop stack 0 2 [[115, 98, 105, 110], [105, 110, 105, 116]]).2 = .node 5
  rw [FileSystem.findLoop]
  show (bootFs.findLoop stack 0 3 [[105, 110, 105, 116]]).2 = .node 5
  rw [FileSystem.findLoop]
  show (bootFs.findLoop stack 0 5 []).2 = .node 5
  rw [FileSystem.findLoop]

/-- The first thread, with that file system. -/
theorem kernelMain_starts_two : ∃ bottom esp,
    (kernelMain { Sys.firstProcess with vme := Elf.freshVme, fs := bootFs }).result =
      .ok (.switched 0x80000000 esp) ∧
    Started { Sys.firstProcess with vme := Elf.freshVme, fs := bootFs } Elf.twoProgram.io Elf.twoSegments
      [Sys.initArg] bottom esp (kernelMain { Sys.firstProcess with vme := Elf.freshVme, fs := bootFs }).state :=
  kernelMain_starts { Sys.firstProcess with vme := Elf.freshVme, fs := bootFs } 5 _ _ rfl (bootFs_find _)
    ⟨caller_runnable.valid, caller_runnable.table, caller_runnable.fits, caller_runnable.apart,
      caller_runnable.granted, by decide⟩

end Exec

end BadApple
