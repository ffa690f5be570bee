/-
  Where `ELF::load` puts a program (kernel/elf.cc, kernel/vme.cc).

  1. **Files** — `Loadable io hdr phs`: `hdr` and `phs` are the headers of the file, the segments to load
     lie apart in the user range, their bytes are in the file, and the address space has room for all that
     `load` asks for.
  2. **Room** — `load` asks for the gap below the segment and for the segment, and never where it wants
     them.  It works since all room is handed out from the bottom of the range upwards: `Filled`, everything
     below `avail` is covered.  Gap and segment together reach to the end of the segment, whatever came
     before.
  3. **Bytes** — each segment writes its own addresses, so that those of other segments stay.
  4. **The result** — `load_spec`: when `load` returns, every segment has its room and its bytes.
-/
import BadApple.Elf.Model
import BadApple.Sys.ReadFile

namespace BadApple

open Effects
open Sys (FileNode storeBytes sub)

namespace Elf

/-! ## Files -/

/-- The addresses of a segment. -/
def ProgramHeader.Has (ph : ProgramHeader) (a : Nat) : Prop := ph.vaddr ≤ a ∧ a < ph.vaddr + ph.memsz

/-- The segment lies in the user range, without wrapping around. -/
def ProgramHeader.InUserRange (ph : ProgramHeader) : Prop :=
  0x80000000 ≤ ph.vaddr ∧ ph.vaddr + ph.memsz ≤ 0xF0000000

/-- Two segments have no address in common. -/
def Apart (p q : ProgramHeader) : Prop := ∀ a, ¬ (p.Has a ∧ q.Has a)

/-- A segment in the user range that has room for its bytes, and these are in the file. -/
structure Fits (io : BlockIo) (ph : ProgramHeader) : Prop where
  user : ph.InUserRange
  size : ph.filesz ≤ ph.memsz
  data : ∀ k, k < ph.filesz → ph.offset + k < io.sizeInBytes

/-- What `load` asks for: the gap below the segment, if there is one, and the segment. -/
def ProgramHeader.requests (ph : ProgramHeader) : List Nat :=
  if ph.vaddr > 0x80000000 then [ph.vaddr - 0x80000000, ph.memsz] else [ph.memsz]

/-- All requests succeed, one after the other, and the sum that is compared to the limit does not wrap. -/
def Granted : VME FileNode → List Nat → Prop
  | _, [] => True
  | v, size :: rest => (v.addEntry size none 0 false).1 ≠ 0 ∧ v.avail + size < 4294967296 ∧
    Granted (v.addEntry size none 0 false).2 rest

/-- The address space of a new process. -/
def freshVme : VME FileNode := VME.new 0x80000000 0xF0000000

/-- The segments to load. -/
def loadsOf (phs : List ProgramHeader) : List ProgramHeader := phs.filter fun ph => ph.type = 1

/-- **A program that can be loaded**, its headers being `hdr` and `phs`. -/
structure Loadable (io : BlockIo) (hdr : ElfHeader) (phs : List ProgramHeader) : Prop where
  valid : header io = some hdr
  table : (List.range hdr.phnum).mapM (programHeader io hdr) = some phs
  fits : ∀ ph ∈ loadsOf phs, Fits io ph
  apart : (loadsOf phs).Pairwise Apart
  granted : Granted freshVme ((loadsOf phs).flatMap ProgramHeader.requests)

/-- **A segment is loaded**: there is room for it, and in it the bytes of the file, and zeros. -/
def Loaded (io : BlockIo) (ph : ProgramHeader) (m : Sys.Machine) : Prop :=
  ∀ k, k < ph.memsz → (m.vme.get (ph.vaddr + k)).isSome ∧
    m.mem (ph.vaddr + k) = if k < ph.filesz then io.byte (ph.offset + k) else 0

/-! ## Room -/

variable {v : VME FileNode} {size : Nat} {sizes rest : List Nat}

/-- **Everything below `avail` is covered**, and nothing is free. -/
structure Filled (v : VME FileNode) : Prop where
  limit : v.limit = 0xF0000000
  noneFree : v.freeEntries = []
  start_le : 0x80000000 ≤ v.avail
  avail_lt : v.avail < 0xF0001000
  covered : ∀ a, 0x80000000 ≤ a → a < v.avail → (v.get a).isSome

/-- Covered is what some entry covers. -/
theorem get_isSome {a : Nat} : (v.get a).isSome ↔ ∃ e ∈ v.entries, VME.covers a e = true := by
  unfold VME.get
  rw [List.find?_isSome]

theorem filled_fresh : Filled freshVme :=
  ⟨rfl, rfl, Nat.le_refl _, by decide, fun a h1 h2 => absurd (Nat.lt_of_lt_of_le h2 h1) (Nat.lt_irrefl _)⟩

/-- **One request** that succeeds covers so much more. -/
theorem Filled.addEntry (hF : Filled v) (hgranted : Granted v (size :: rest)) :
    Filled (v.addEntry size none 0 false).2 ∧
      v.avail + size ≤ (v.addEntry size none 0 false).2.avail := by
  obtain ⟨hne, hlt, -⟩ := hgranted
  obtain ⟨hlimit, hnone, hstart, havail, hcov⟩ := hF
  have hfree : ∀ f ∈ v.freeEntries, 0 < f.start := by simp [hnone]
  rcases VME.addEntry_cases v size none 0 false hfree (by omega) with ⟨va, fs, htake, -⟩ | ⟨-, hle, -, heq⟩ |
    ⟨-, -, heq⟩
  · rw [hnone] at htake
    cases htake
  · rw [u32_of_lt hlt, hlimit] at hle
    have hpages : VME.requiredPages size = (size + 4095) / 4096 := by
      unfold VME.requiredPages
      rw [frameSize_eq, u32_of_lt (by omega)]
      rfl
    have hmul : u32 (4096 * ((size + 4095) / 4096)) = 4096 * ((size + 4095) / 4096) := u32_of_lt (by omega)
    rw [heq]
    simp only [hpages, frameSize_eq, hmul]
    rw [u32_of_lt (by omega)]
    refine ⟨⟨hlimit, hnone, ?_, ?_, fun a h1 h2 => ?_⟩, ?_⟩
    · show 0x80000000 ≤ v.avail + 4096 * ((size + 4095) / 4096)
      omega
    · show v.avail + 4096 * ((size + 4095) / 4096) < 0xF0001000
      omega
    · rw [get_isSome]
      simp only at h2
      by_cases hold : a < v.avail
      · obtain ⟨e, he, hc⟩ := get_isSome.1 (hcov a h1 hold)
        exact ⟨e, (VME.insertEntrySorted_perm _ _).mem_iff.2 (List.mem_cons_of_mem _ he), hc⟩
      · refine ⟨_, (VME.insertEntrySorted_perm _ _).mem_iff.2 List.mem_cons_self, ?_⟩
        rw [VME.covers, decide_eq_true_eq, VMEEntry.stop, frameSize_eq]
        simp only
        rw [Nat.mul_comm, hmul, u32_of_lt (by omega)]
        omega
    · omega
  · rw [heq] at hne
    exact absurd rfl hne

instance decidableGranted : ∀ (v : VME FileNode) (sizes : List Nat), Decidable (Granted v sizes)
  | _, [] => .isTrue trivial
  | v, size :: rest =>
    have := decidableGranted (v.addEntry size none 0 false).2 rest
    inferInstanceAs (Decidable (_ ∧ _ ∧ _))

/-! ## One segment -/

variable {io : BlockIo} {ph q : ProgramHeader} {phs done : List ProgramHeader} {hdr : ElfHeader}
  {m m' : Sys.Machine}

/-- The bytes of a segment that is loaded. -/
def HasBytes (io : BlockIo) (ph : ProgramHeader) (m : Sys.Machine) : Prop :=
  ∀ k, k < ph.memsz → m.mem (ph.vaddr + k) = if k < ph.filesz then io.byte (ph.offset + k) else 0

/-- Room up to the end of a segment, and its bytes. -/
def Placed (io : BlockIo) (ph : ProgramHeader) (m : Sys.Machine) : Prop :=
  ph.vaddr + ph.memsz ≤ m.vme.avail ∧ HasBytes io ph m

/-- What is placed is loaded. -/
theorem Placed.loaded (h : Placed io ph m) (hF : Filled m.vme) (hstart : 0x80000000 ≤ ph.vaddr) :
    Loaded io ph m := by
  intro k hk
  obtain ⟨hreach, hbytes⟩ := h
  exact ⟨hF.covered _ (by omega) (by omega), hbytes k hk⟩

/-- What is placed stays so when other segments are loaded. -/
theorem Placed.other (h : Placed io q m) (hgrows : m.vme.avail ≤ m'.vme.avail)
    (hother : ∀ a, ¬ ph.Has a → m'.mem a = m.mem a) (hapart : Apart q ph) :
    Placed io q m' := by
  obtain ⟨hreach, hbytes⟩ := h
  refine ⟨Nat.le_trans hreach hgrows, fun k hk => ?_⟩
  have hhas : q.Has (q.vaddr + k) := ⟨Nat.le_add_right _ _, by omega⟩
  rw [hother _ fun hph => hapart _ ⟨hhas, hph⟩]
  exact hbytes k hk

/-- **The room for a segment** reaches to its end. -/
theorem Filled.requests (hF : Filled v) (hstart : 0x80000000 ≤ ph.vaddr)
    (hgranted : Granted v (ph.requests ++ rest)) :
    ∃ v', ph.requests.foldl (fun v size => (v.addEntry size none 0 false).2) v = v' ∧ Filled v' ∧
      Granted v' rest ∧ v.avail ≤ v'.avail ∧ ph.vaddr + ph.memsz ≤ v'.avail := by
  have hlow := hF.start_le
  unfold ProgramHeader.requests at hgranted ⊢
  by_cases hgap : ph.vaddr > 0x80000000
  · rw [if_pos hgap] at hgranted ⊢
    obtain ⟨hF₁, hle₁⟩ := hF.addEntry hgranted
    obtain ⟨hF₂, hle₂⟩ := hF₁.addEntry hgranted.2.2
    exact ⟨_, rfl, hF₂, hgranted.2.2.2.2, by simp only [List.foldl_cons, List.foldl_nil]; omega,
      by simp only [List.foldl_cons, List.foldl_nil]; omega⟩
  · rw [if_neg hgap] at hgranted ⊢
    obtain ⟨hF₁, hle₁⟩ := hF.addEntry hgranted
    exact ⟨_, rfl, hF₁, hgranted.2.2, by simp only [List.foldl_cons, List.foldl_nil]; omega,
      by simp only [List.foldl_cons, List.foldl_nil]; omega⟩

theorem mmap_run (size : Nat) (m : Sys.Machine) :
    mmap size m = ⟨[], .ok (), { m with vme := (m.vme.addEntry size none 0 false).2 }⟩ := rfl

/-- The requests of a segment, one after the other. -/
theorem loadSegment_eq (hload : ph.type = 1) (haccepted : ph.rejected = false) :
    loadSegment io ph = (modify fun m : Sys.Machine => { m with
        vme := ph.requests.foldl (fun v size => (v.addEntry size none 0 false).2) m.vme } :
          Sys.Handler Unit) >>= fun _ =>
      storeBytes ph.vaddr (io.readAll ph.offset ph.filesz) >>= fun _ =>
        bzero (u32 (ph.vaddr + ph.filesz)) (sub ph.memsz ph.filesz) := by
  unfold loadSegment ProgramHeader.requests
  rw [if_pos hload, haccepted, if_neg (by decide)]
  funext m
  by_cases hgap : ph.vaddr > 0x80000000
  · rw [if_pos hgap, if_pos hgap]
    simp only [bind_run, mmap_run, modify_run, andThen_ok, List.nil_append, List.foldl_cons, List.foldl_nil]
  · rw [if_neg hgap, if_neg hgap]
    simp only [bind_run, mmap_run, modify_run, andThen_ok, List.nil_append, List.foldl_cons, List.foldl_nil]

/-- An address of the user range can be accessed if there is an entry for it. -/
theorem covered_of_get {a : Nat} (hlow : 0x80000000 ≤ a) (hhigh : a < 0xF0000000)
    (hget : (m.vme.get a).isSome) : m.covered a = true := by
  unfold Sys.Machine.covered
  rw [if_neg (by omega), if_pos hlow, hget, Bool.or_true]

/-- What the bytes of the file leave in a segment, and then the zeros. -/
theorem placed_bytes (io : BlockIo) (mem : Memory.Mem) (hsize : ph.filesz ≤ ph.memsz) :
    (∀ k, k < ph.memsz → Memory.store (Memory.store mem ph.vaddr (io.bytesFrom ph.offset ph.filesz))
        (ph.vaddr + ph.filesz) (List.replicate (ph.memsz - ph.filesz) 0) (ph.vaddr + k) =
      if k < ph.filesz then io.byte (ph.offset + k) else 0) ∧
    ∀ a, ¬ ph.Has a → Memory.store (Memory.store mem ph.vaddr (io.bytesFrom ph.offset ph.filesz))
        (ph.vaddr + ph.filesz) (List.replicate (ph.memsz - ph.filesz) 0) a = mem a := by
  constructor
  · intro k hk
    by_cases hfile : k < ph.filesz
    · rw [if_pos hfile, Memory.same_store (k := 1) (Or.inr (by omega)) _ (Nat.le_refl _) (by omega),
        Memory.store_at, List.getD_eq_getElem?_getD, BlockIo.bytesFrom, List.getElem?_map,
        List.getElem?_range hfile]
      rfl
    · rw [if_neg hfile, show ph.vaddr + k = ph.vaddr + ph.filesz + (k - ph.filesz) by omega, Memory.store_at,
        List.getD_eq_getElem?_getD, List.getElem?_replicate, if_pos (by omega)]
      rfl
  · intro a ha
    have hout : a < ph.vaddr ∨ ph.vaddr + ph.memsz ≤ a := by
      by_contra hin
      exact ha ⟨by omega, by omega⟩
    rw [Memory.same_store (k := 1) ?_ _ (Nat.le_refl a) (by omega),
      Memory.same_store (k := 1) ?_ _ (Nat.le_refl a) (by omega)]
    · rw [BlockIo.bytesFrom_length]
      omega
    · rw [List.length_replicate]
      omega

/-- The bytes of a segment are read. -/
theorem readAll_data (hbs : 0 < io.blockSize) (hdata : ∀ k, k < ph.filesz → ph.offset + k < io.sizeInBytes) :
    io.readAll ph.offset ph.filesz = io.bytesFrom ph.offset ph.filesz := by
  by_cases h0 : ph.filesz = 0
  · rw [h0, BlockIo.readAll]
    rfl
  · have hlast := hdata (ph.filesz - 1) (by omega)
    rw [BlockIo.readAll_eq hbs _ _ (by omega), Nat.min_eq_left (by omega)]

/-- **One segment**: it gets its room and its bytes, and nothing else changes. -/
theorem spec_loadSegment {E : Sys.Stop → Sys.Machine → Prop} (hbs : 0 < io.blockSize) (hF : Filled m.vme)
    (hload : ph.type = 1) (hfits : Fits io ph) (hlast : ph.vaddr + ph.memsz ≠ 0xF0000000)
    (hgranted : Granted m.vme (ph.requests ++ rest)) :
    Spec (fun _ => True) (loadSegment io ph) m (fun _ m' => Filled m'.vme ∧ Granted m'.vme rest ∧
      m.vme.avail ≤ m'.vme.avail ∧ Placed io ph m' ∧ ∀ a, ¬ ph.Has a → m'.mem a = m.mem a) E := by
  obtain ⟨⟨hstart, hend⟩, hsize, hdata⟩ := hfits
  have haccepted : ph.rejected = false := by
    unfold ProgramHeader.rejected
    rw [u32_of_lt (by omega), Bool.or_eq_false_iff, decide_eq_false_iff_not, decide_eq_false_iff_not]
    omega
  have hzeros : Machine.rounds (sub ph.memsz ph.filesz) = ph.memsz - ph.filesz := by
    unfold sub
    rw [u32_of_wrap (by omega) (by omega), Machine.rounds_of_lt (by omega)]
    omega
  obtain ⟨v', hv', hF', hgranted', hgrows, hreach⟩ := hF.requests hstart hgranted
  have hcovered : ∀ mem k, k < ph.memsz →
      Sys.Machine.covered { m with vme := v', mem := mem } (ph.vaddr + k) = true :=
    fun mem k hk => covered_of_get (by omega) (by omega) (hF'.covered _ (by omega) (by omega))
  rw [loadSegment_eq hload haccepted]
  refine Spec.bind Sys.spec_modify ?_
  rintro _ _ rfl
  rw [hv', readAll_data hbs hdata]
  refine Spec.bind (Sys.spec_storeBytes_eq (P := fun _ => True) (fun _ => trivial) _ _ _ ?_ fun k hk => ?_) ?_
  · rw [BlockIo.bytesFrom_length]
    omega
  · rw [BlockIo.bytesFrom_length] at hk
    exact hcovered _ k (by omega)
  rintro _ _ rfl
  unfold bzero
  rw [hzeros, u32_of_lt (by omega)]
  obtain ⟨hbytes, hother⟩ := placed_bytes io m.mem hsize
  refine (Sys.spec_storeBytes_eq (P := fun _ => True) (fun _ => trivial) _ _ _ ?_ fun k hk => ?_).mono
    (fun _ _ => trivial) ?_ fun _ _ h => h
  · rw [List.length_replicate]
    omega
  · rw [List.length_replicate] at hk
    rw [Nat.add_assoc]
    exact hcovered _ _ (by omega)
  rintro _ _ rfl
  exact ⟨hF', hgranted', hgrows, ⟨hreach, hbytes⟩, hother⟩

/-! ## All segments -/

/-- A segment that ends where the user range ends is not accepted. -/
theorem loadSegment_last (hload : ph.type = 1) (hend : ph.vaddr + ph.memsz = 0xF0000000) :
    loadSegment io ph = stop .panic := by
  apply loadSegment_rejected hload
  unfold ProgramHeader.rejected
  rw [hend, u32_of_lt (by decide), Bool.or_eq_true, decide_eq_true_eq, decide_eq_true_eq]
  exact Or.inr (Nat.le_refl _)

/-- **The loop**, when `done` are loaded already. -/
theorem spec_loadSegments (hbs : 0 < io.blockSize) : ∀ (n i : Nat) (m : Sys.Machine)
    (phs done : List ProgramHeader), (List.range' i n).mapM (programHeader io hdr) = some phs →
    Filled m.vme → Granted m.vme ((loadsOf phs).flatMap ProgramHeader.requests) →
    (∀ ph ∈ loadsOf phs, Fits io ph) → (done ++ loadsOf phs).Pairwise Apart →
    (∀ ph ∈ done, Placed io ph m) →
    Spec (fun _ => True) (loadSegments io hdr.phentsize n (hdr.at i)) m
      (fun _ m' => Filled m'.vme ∧ ∀ ph ∈ done ++ loadsOf phs, Placed io ph m')
      fun _ _ => ∃ ph ∈ loadsOf phs, ph.vaddr + ph.memsz = 0xF0000000 := by
  intro n
  induction n with
  | zero =>
    intro i m phs done htable hF _ _ _ hdone
    have hnil : [] = phs := Option.some.inj htable
    subst hnil
    refine Spec.pure ⟨hF, ?_⟩
    rw [loadsOf, List.filter_nil, List.append_nil]
    exact hdone
  | succ n ih =>
    intro i m phs done htable hF hgranted hfits hapart hdone
    rw [List.range'_succ, List.mapM_cons] at htable
    obtain ⟨ph, hph, htable⟩ := Option.bind_eq_some_iff.1 htable
    obtain ⟨rest, hrest, htable⟩ := Option.bind_eq_some_iff.1 htable
    cases htable
    rw [loadSegments_succ hph]
    by_cases hload : ph.type = 1
    · have hcons : loadsOf (ph :: rest) = ph :: loadsOf rest := by
        unfold loadsOf
        rw [List.filter_cons, if_pos (by rw [hload]; rfl)]
      rw [hcons] at hgranted hfits hapart ⊢
      by_cases hlast : ph.vaddr + ph.memsz = 0xF0000000
      · rw [loadSegment_last hload hlast]
        exact Spec.bind (Q := fun _ _ => False) (Spec.stop ⟨ph, List.mem_cons_self, hlast⟩)
          fun _ _ h => h.elim
      · rw [List.flatMap_cons] at hgranted
        refine Spec.bind (spec_loadSegment hbs hF hload (hfits ph List.mem_cons_self) hlast hgranted) ?_
        rintro _ m' ⟨hF', hgranted', hgrows, hplaced, hother⟩
        have hnext := ih (i + 1) m' rest (done ++ [ph]) hrest hF' hgranted'
          (fun q hq => hfits q (List.mem_cons_of_mem _ hq)) (by rw [List.append_assoc]; exact hapart) ?_
        · rw [List.append_assoc] at hnext
          refine hnext.mono_error ?_
          rintro _ _ ⟨q, hq, hqend⟩
          exact ⟨q, List.mem_cons_of_mem _ hq, hqend⟩
        · intro q hq
          rcases List.mem_append.1 hq with hq | hq
          · refine (hdone q hq).other hgrows hother ?_
            exact (List.pairwise_append.1 hapart).2.2 q hq ph List.mem_cons_self
          · rw [List.mem_singleton.1 hq]
            exact hplaced
    · have hcons : loadsOf (ph :: rest) = loadsOf rest := by
        unfold loadsOf
        rw [List.filter_cons, if_neg (by rw [decide_eq_true_eq]; exact hload)]
      rw [hcons] at hgranted hfits hapart ⊢
      rw [loadSegment_skip hload]
      refine Spec.bind (Spec.pure (Q := fun _ m' => m = m') rfl) ?_
      rintro _ _ rfl
      exact ih (i + 1) m rest done hrest hF hgranted hfits hapart hdone

/-! ## The result -/

/-- **What `load` loads**: when it returns, it returns the entry point, and every segment is loaded, with room
    for all of its addresses.  It does return, unless a segment ends where the user range ends. -/
theorem load_spec {file : Nat} (hfresh : m.vme = freshVme) (h : Loadable (m.fs.node file).io hdr phs) :
    (∀ entry, (load file m).result = .ok entry → entry = hdr.entry ∧
      ∀ ph ∈ loadsOf phs, Loaded (m.fs.node file).io ph (load file m).state) ∧
    ((∀ ph ∈ loadsOf phs, ph.vaddr + ph.memsz ≠ 0xF0000000) → (load file m).result = .ok hdr.entry) := by
  have hbs := (m.fs.node file).blockSize_pos
  rw [load_eq h.valid]
  have hspec : Spec (fun _ => True) (loadSegments (m.fs.node file).io hdr.phentsize hdr.phnum (hdr.at 0) >>=
      fun _ => pure hdr.entry) m
      (fun entry m' => entry = hdr.entry ∧ ∀ ph ∈ loadsOf phs, Loaded (m.fs.node file).io ph m')
      fun _ _ => ∃ ph ∈ loadsOf phs, ph.vaddr + ph.memsz = 0xF0000000 := by
    have hfilled : Filled m.vme := by
      rw [hfresh]
      exact filled_fresh
    have hgranted := h.granted
    rw [← hfresh] at hgranted
    have htable := h.table
    rw [List.range_eq_range'] at htable
    refine Spec.bind (spec_loadSegments hbs _ 0 m phs [] htable hfilled hgranted h.fits h.apart ?_) ?_
    · simp
    · rintro _ m' ⟨hF, hplaced⟩
      exact Spec.pure ⟨rfl, fun ph hph => (hplaced ph hph).loaded hF (h.fits ph hph).user.1⟩
  constructor
  · exact hspec.ok
  · intro hends
    obtain ⟨entry, hresult, rfl, -⟩ := Spec.returns
      (hspec.mono_error fun _ _ ⟨ph, hph, hend⟩ => hends ph hph hend)
    exact hresult

/-! ## A file -/

/-- A block of a kibibyte. -/
def kibibyte : Nat := 1024

theorem kibibyte_pos : 0 < kibibyte := by decide

/-- A file of these bytes. -/
def fileOf (bytes : List UInt8) : Node :=
  ⟨0x8000, fun _ => 0, ⟨kibibyte, bytes.length, fun b i => bytes.getD (b * kibibyte + i) 0⟩, kibibyte_pos⟩

/-- A number, in four bytes. -/
def fourBytes (n : Nat) : List UInt8 := [n, n / 256, n / 65536, n / 16777216].map UInt8.ofNat

/-- The bytes of a program header. -/
def ProgramHeader.bytes (ph : ProgramHeader) : List UInt8 :=
  fourBytes ph.type ++ fourBytes ph.offset ++ fourBytes ph.vaddr ++ fourBytes 0 ++ fourBytes ph.filesz ++
    fourBytes ph.memsz ++ fourBytes 0 ++ fourBytes 0

/-- A program with these headers, and what follows them. -/
def programFile (phs : List ProgramHeader) (data : List UInt8) : Node :=
  fileOf (elfMagic ++ List.replicate 20 0 ++ fourBytes 0x80000000 ++ fourBytes elfHeaderSize ++
    List.replicate 10 0 ++ (fourBytes programHeaderSize).take 2 ++ (fourBytes phs.length).take 2 ++
    List.replicate 6 0 ++ phs.flatMap ProgramHeader.bytes ++ data)

/-- The header of such a program. -/
def programHdr (phs : List ProgramHeader) : ElfHeader :=
  ⟨elfMagic, 0x80000000, elfHeaderSize, programHeaderSize, phs.length⟩

/-- A process in a new address space that is about to load `program`. -/
def newProcess (program : Node) : Sys.Machine := { Sys.firstProcess with
  vme := freshVme
  fs := { Sys.emptyFs with node := fun _ => program } }

/-- Two segments, the upper one first, and neither fills a page. -/
def twoSegments : List ProgramHeader := [⟨1, 116, 0x80003001, 3, 6⟩, ⟨1, 119, 0x80000000, 2, 2⟩]

def twoProgram : Node := programFile twoSegments [65, 66, 67, 68, 69]

theorem twoProgram_loadable : Loadable twoProgram.io (programHdr twoSegments) twoSegments := by
  have hbs := twoProgram.blockSize_pos
  refine ⟨?_, ?_, ?_, ?_, by decide +kernel⟩
  · rw [header_eq hbs (by decide +kernel)]
    decide +kernel
  · have h0 : programHeader twoProgram.io (programHdr twoSegments) 0 = some ⟨1, 116, 0x80003001, 3, 6⟩ := by
      rw [programHeader_eq hbs (by decide +kernel)]
      decide +kernel
    have h1 : programHeader twoProgram.io (programHdr twoSegments) 1 = some ⟨1, 119, 0x80000000, 2, 2⟩ := by
      rw [programHeader_eq hbs (by decide +kernel)]
      decide +kernel
    show [0, 1].mapM _ = _
    rw [List.mapM_cons, List.mapM_cons, List.mapM_nil, h0, h1]
    rfl
  · have huser : ∀ ph ∈ loadsOf twoSegments, 0x80000000 ≤ ph.vaddr ∧ ph.vaddr + ph.memsz ≤ 0xF0000000 := by
      decide
    have hdata : ∀ ph ∈ loadsOf twoSegments, ∀ k, k < ph.filesz →
        ph.offset + k < twoProgram.io.sizeInBytes := by decide +kernel
    have hsize : ∀ ph ∈ loadsOf twoSegments, ph.filesz ≤ ph.memsz := by decide
    exact fun ph hph => ⟨huser ph hph, hsize ph hph, hdata ph hph⟩
  · refine .cons ?_ (.cons (by simp) .nil)
    intro q hq a
    rw [List.mem_singleton.1 hq, ProgramHeader.Has, ProgramHeader.Has]
    simp only
    omega

theorem load_spec_two : (load 5 (newProcess twoProgram)).result = .ok 0x80000000 ∧
    ∀ ph ∈ twoSegments, Loaded twoProgram.io ph (load 5 (newProcess twoProgram)).state := by
  have hloadable : Loadable ((newProcess twoProgram).fs.node 5).io _ _ := twoProgram_loadable
  obtain ⟨hloaded, hreturns⟩ := load_spec (m := newProcess twoProgram) rfl hloadable
  have hresult := hreturns (by decide)
  exact ⟨hresult, (hloaded _ hresult).2⟩

end Elf

end BadApple
