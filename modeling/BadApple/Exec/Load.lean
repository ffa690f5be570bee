/-
  Loading a program into a new address space (kernel/sys.cc, kernel/elf.cc, kernel/vme.cc).

  1. **Room** — `asking m sizes mem`: the process when its address space is cleared and these requests were
     made.  What can be written to then is known from the requests (`covered_asking`).
  2. **Step by step** — bytes are written exactly if there is room for them, frames included; a segment is loaded exactly if
     there is room for what is written for it; and the loop, with the list of requests so far as what it
     carries along, comes to its end exactly if that is so for all segments.
  3. **The result** — `exactly_load`.
-/
import BadApple.Exec.Arguments

namespace BadApple

open Effects Memory

namespace Exec

open Sys (Handler Machine Access CString Looked StringAt WordAt bytesAt minusOne FileNode storeBytes sub)
open Elf (ElfHeader ProgramHeader)

variable {k : Kernel} {m : Machine} {mem : Mem} {sizes : List Nat} {io : BlockIo} {hdr : ElfHeader} {ph : ProgramHeader}
  {phs : List ProgramHeader} {args : List (List UInt8)} {path argv file a : Nat}

/-! ## Room -/

/-- **The process with a new address space** of which so much has been asked for. -/
def asking (m : Machine) (sizes : List Nat) (mem : Mem) : Machine :=
  { m with vme := ask Elf.freshVme sizes, mapped := fun a => m.mapped a && !isUser a, mem := mem }

theorem ask_append (v : VME FileNode) (sizes sizes' : List Nat) :
    ask v (sizes ++ sizes') = ask (ask v sizes) sizes' := List.foldl_append

/-- An address space that has never been given anything back. -/
structure Bump (v : VME FileNode) : Prop where
  limit : v.limit = 0xF0000000
  noneFree : v.freeEntries = []

theorem bump_fresh : Bump Elf.freshVme := ⟨rfl, rfl⟩

/-- **One request**: it takes what comes next. -/
theorem Bump.addEntry {v : VME FileNode} (h : Bump v) (size : Nat) :
    Bump (v.addEntry size none 0 false).2 ∧
      (v.addEntry size none 0 false).1 = (if u32 (v.avail + size) ≤ 0xF0000000 then v.avail else 0) ∧
      (v.addEntry size none 0 false).2.avail = grow v.avail size ∧
      ∀ a, ((v.addEntry size none 0 false).2.get a).isSome ↔
        (v.avail ≤ a ∧ a < grow v.avail size) ∨ (v.get a).isSome := by
  obtain ⟨hlimit, hfree⟩ := h
  unfold VME.addEntry grow
  rw [hfree, hlimit]
  simp only [VME.takeFree, Option.getD_none, if_true]
  by_cases hfits : u32 (v.avail + size) ≤ 0xF0000000
  · rw [if_neg (Nat.not_lt.2 hfits), if_pos hfits, if_pos hfits]
    refine ⟨⟨rfl, rfl⟩, rfl, rfl, fun a => ?_⟩
    rw [Elf.get_isSome, Elf.get_isSome]
    simp only [(VME.insertEntrySorted_perm _ _).mem_iff, List.mem_cons]
    have hstop : ∀ e : VMEEntry FileNode, e = ⟨v.avail, VME.requiredPages size, size, none, 0, false⟩ →
        (VME.covers a e = true ↔ v.avail ≤ a ∧ a < u32 (v.avail + u32 (4096 * VME.requiredPages size))) := by
      rintro e rfl
      rw [VME.covers, decide_eq_true_eq, VMEEntry.stop, frameSize_eq]
      simp only
      rw [Nat.mul_comm]
    constructor
    · rintro ⟨e, rfl | he, hc⟩
      · exact Or.inl ((hstop _ rfl).1 hc)
      · exact Or.inr ⟨e, he, hc⟩
    · rintro (hc | ⟨e, he, hc⟩)
      · exact ⟨_, Or.inl rfl, (hstop _ rfl).2 hc⟩
      · exact ⟨e, Or.inr he, hc⟩
  · rw [if_pos (Nat.lt_of_not_le hfits), if_neg hfits, if_neg hfits]
    refine ⟨⟨rfl, rfl⟩, rfl, rfl, fun a => ?_⟩
    constructor
    · exact Or.inr
    · rintro (⟨h1, h2⟩ | hc)
      · omega
      · exact hc

/-- **All requests**: what they cover, and what was covered before. -/
theorem Bump.ask : ∀ (sizes : List Nat) {v : VME FileNode}, Bump v → Bump (ask v sizes) ∧
    (Exec.ask v sizes).avail = sizes.foldl grow v.avail ∧
      ∀ a, ((Exec.ask v sizes).get a).isSome ↔ Covers v.avail sizes a ∨ (v.get a).isSome := by
  intro sizes
  induction sizes with
  | nil => exact fun h => ⟨h, rfl, fun a => ⟨Or.inr, fun h => h.resolve_left id⟩⟩
  | cons size sizes ih =>
    intro v h
    obtain ⟨hnext, -, havail, hget⟩ := h.addEntry size
    obtain ⟨hall, hlast, hcovers⟩ := ih hnext
    rw [havail] at hlast hcovers
    refine ⟨hall, hlast, fun a => ?_⟩
    show ((Exec.ask (v.addEntry size none 0 false).2 sizes).get a).isSome ↔ _
    rw [hcovers, hget, Covers]
    constructor
    · rintro (hc | hc | hc)
      · exact Or.inl (Or.inr hc)
      · exact Or.inl (Or.inl hc)
      · exact Or.inr hc
    · rintro ((hc | hc) | hc)
      · exact Or.inr (Or.inl hc)
      · exact Or.inl hc
      · exact Or.inr (Or.inr hc)

/-- **What can be written to**, above the kernel. -/
theorem covered_asking (k : Kernel) (m : Machine) (sizes : List Nat) (mem : Mem) (a : Nat) :
    (0x80000000 ≤ a ∧ k.Backs m a) ∧ (asking m sizes mem).covered a = true ↔ Room k m sizes a := by
  unfold Room
  rw [and_assoc]
  refine and_congr_right fun hlow => and_congr_right fun _ => ?_
  by_cases hhigh : a < 0xF0000000
  · have huser : isUser a = true := decide_eq_true ⟨hlow, hhigh⟩
    have hcovered : (asking m sizes mem).covered a = ((ask Elf.freshVme sizes).get a).isSome := by
      show ((m.mapped a && !isUser a) || _) = _
      rw [huser, if_neg (by omega), if_pos hlow, Bool.not_true, Bool.and_false, Bool.false_or]
      rfl
    rw [hcovered, if_pos hhigh, (Bump.ask sizes bump_fresh).2.2 a]
    exact ⟨fun h => h.resolve_right (by simp [Elf.freshVme, VME.new, VME.get]), Or.inl⟩
  · have huser : isUser a = false := decide_eq_false fun h => hhigh h.2
    have hcovered : (asking m sizes mem).covered a = m.covered a := by
      show ((m.mapped a && !isUser a) || _) = (m.mapped a || _)
      rw [huser, Bool.not_false, Bool.and_true, if_pos (by omega), if_pos (by omega)]
      rfl
    rw [hcovered, if_neg hhigh]

/-! ## Writing -/

/-- What may be touched: nothing of the kernel's is written, nor a page that gets no frame. -/
def Kernel.Stores (k : Kernel) (m : Machine) (x : Access) : Prop :=
  StoresAbove x ∧ k.gets (fun a => m.mapped a && !isUser a) x = true

theorem stores_store (k : Kernel) (m : Machine) (a : Nat) :
    k.Stores m (.store a) ↔ 0x80000000 ≤ a ∧ k.Backs m a := by
  refine and_congr ⟨fun h => h a rfl, ?_⟩ (Bool.or_eq_true _ _).to_iff
  rintro hlow _ heq
  rw [← Access.store.inj heq]
  exact hlow

/-- **Bytes are written** exactly if there is room for them. -/
theorem exactly_storeBytes (k : Kernel) (m : Machine) (sizes : List Nat) :
    ∀ (l : List UInt8) (a : Nat) (mem : Mem), (l ≠ [] → a < 4294967296) →
    Exactly (k.Stores m) (storeBytes a l) (asking m sizes mem)
      (∀ i, i < l.length → Room k m sizes (u32 (a + i))) fun _ m' => ∃ mem', asking m sizes mem' = m' := by
  intro l
  induction l with
  | nil =>
    intro a mem _
    exact (Exactly.pure ⟨mem, rfl⟩).congr (iff_of_true trivial fun i hi => absurd hi (Nat.not_lt_zero i))
  | cons b l ih =>
    intro a mem ha
    replace ha := ha (List.cons_ne_nil b l)
    have hfirst : Exactly (k.Stores m) (touch (.store a) : Handler Unit) (asking m sizes mem)
        (0x80000000 ≤ a ∧ k.Backs m a) fun _ m' => asking m sizes mem = m' :=
      (Exactly.touch (Q := fun _ m' => asking m sizes mem = m') rfl).congr (stores_store k m a)
    have hrest : Exactly (k.Stores m) (storeBytes a (b :: l)) (asking m sizes mem)
        ((0x80000000 ≤ a ∧ k.Backs m a) ∧ True ∧ (asking m sizes mem).covered a = true ∧
          ∀ i, i < l.length → Room k m sizes (u32 (u32 (a + 1) + i)))
        fun _ m' => ∃ mem', asking m sizes mem' = m' := by
      refine Exactly.bind hfirst ?_
      rintro _ _ rfl
      refine Exactly.bind (Exactly.getState (Q := fun s m' => asking m sizes mem = s ∧ s = m') ⟨rfl, rfl⟩) ?_
      rintro _ _ ⟨rfl, rfl⟩
      by_cases hc : (asking m sizes mem).covered a = true
      · rw [if_pos hc]
        refine (Exactly.bind (Exactly.modify (Q := fun _ m' => ∃ mem', asking m sizes mem' = m') ⟨_, rfl⟩)
          ?_).congr (and_congr_left fun _ => iff_of_true trivial hc)
        rintro _ _ ⟨mem', rfl⟩
        exact ih _ mem' fun _ => u32_lt _
      · rw [if_neg hc]
        exact Exactly.stop.congr (iff_of_false id fun h => hc h.1)
    refine hrest.congr ⟨?_, fun hall => ?_⟩
    · rintro ⟨hlow, -, hc, hroom⟩ i hi
      cases i with
      | zero =>
        rw [Nat.add_zero, u32_of_lt ha]
        exact (covered_asking k m sizes mem a).1 ⟨hlow, hc⟩
      | succ i =>
        rw [← u32_next]
        exact hroom i (Nat.lt_of_succ_lt_succ hi)
    · have hzero := hall 0 (Nat.succ_pos _)
      rw [Nat.add_zero, u32_of_lt ha] at hzero
      obtain ⟨hlow, hc⟩ := (covered_asking k m sizes mem a).2 hzero
      refine ⟨hlow, trivial, hc, fun i hi => ?_⟩
      rw [u32_next]
      exact hall (i + 1) (Nat.succ_lt_succ hi)

/-- **Writes, one after the other.** -/
theorem exactly_storeAll : ∀ (ws : List Write) (mem : Mem), (∀ w ∈ ws, w.addr < 4294967296) →
    Exactly (k.Stores m) (storeAll ws) (asking m sizes mem) (∀ w ∈ ws, ∀ a ∈ Sys.written w, Room k m sizes a)
      fun _ m' => ∃ mem', asking m sizes mem' = m' := by
  intro ws
  induction ws with
  | nil => exact fun mem _ => (Exactly.pure ⟨mem, rfl⟩).congr (iff_of_true trivial (by simp))
  | cons w ws ih =>
    intro mem haddr
    have hwritten : (∀ a ∈ Sys.written w, Room k m sizes a) ↔
        ∀ i, i < w.bytes.length → Room k m sizes (u32 (w.addr + i)) := by
      constructor
      · intro hall i hi
        exact hall _ (List.mem_map.2 ⟨_, Write.mem_places.2 ⟨Nat.le_add_right _ i, Nat.add_lt_add_left hi _⟩,
          rfl⟩)
      · intro hall a ha
        obtain ⟨x, hx, rfl⟩ := List.mem_map.1 ha
        obtain ⟨hle, hlt⟩ := Write.mem_places.1 hx
        replace hlt : x < w.addr + w.bytes.length := hlt
        have hroom := hall (x - w.addr) (by omega)
        rwa [Nat.add_sub_cancel' hle] at hroom
    rw [List.forall_mem_cons, hwritten]
    refine Exactly.bind (exactly_storeBytes k m sizes _ _ mem fun _ => haddr w List.mem_cons_self) ?_
    rintro _ _ ⟨mem', rfl⟩
    exact ih mem' fun w' hw' => haddr w' (List.mem_cons_of_mem _ hw')

/-! ## Loading -/

/-- **One segment** is loaded exactly if there is room for what is written. -/
theorem exactly_loadSegment (hbs : 0 < io.blockSize) (hvaddr : ph.vaddr < 4294967296) (hload : ph.type = 1)
    (haccepted : ph.rejected = false) (mem : Mem) :
    Exactly (k.Stores m) (Elf.loadSegment io ph) (asking m sizes mem)
      (∀ i, ph.Writes io.sizeInBytes i → Room k m (sizes ++ ph.requests) (u32 (ph.vaddr + i)))
      fun _ m' => ∃ mem', asking m (sizes ++ ph.requests) mem' = m' := by
  have hask : Exactly (k.Stores m) (modify fun m : Machine => { m with
      vme := ph.requests.foldl (fun v size => (v.addEntry size none 0 false).2) m.vme } : Handler Unit)
      (asking m sizes mem) True fun _ m' => asking m (sizes ++ ph.requests) mem = m' := by
    refine Exactly.modify ?_
    unfold asking
    rw [ask_append]
    rfl
  have hcopy := exactly_storeBytes k m (sizes ++ ph.requests) (io.readAll ph.offset ph.filesz) ph.vaddr mem
    fun _ => hvaddr
  have hzero : ∀ mem', _ := fun mem' => exactly_storeBytes k m (sizes ++ ph.requests)
    (List.replicate ph.zeros 0) (u32 (ph.vaddr + ph.filesz)) mem' fun _ => u32_lt _
  rw [Elf.readAll_available hbs] at hcopy
  rw [List.length_replicate] at hzero
  have hparts : Exactly (k.Stores m) (Elf.loadSegment io ph) (asking m sizes mem) (True ∧
      (∀ i, i < ph.available io.sizeInBytes → Room k m (sizes ++ ph.requests) (u32 (ph.vaddr + i))) ∧
      ∀ i, i < ph.zeros → Room k m (sizes ++ ph.requests) (u32 (u32 (ph.vaddr + ph.filesz) + i)))
      fun _ m' => ∃ mem', asking m (sizes ++ ph.requests) mem' = m' := by
    rw [Elf.loadSegment_eq hload haccepted]
    refine hask.bind ?_
    rintro _ _ rfl
    refine hcopy.bind ?_
    rintro _ _ ⟨mem', rfl⟩
    exact hzero mem'
  refine hparts.congr ?_
  constructor
  · rintro ⟨-, hcopied, hzeros⟩ i (hi | ⟨hle, hlt⟩)
    · exact hcopied i hi
    · have hroom := hzeros (i - ph.filesz) (by omega)
      rwa [u32_add, show ph.vaddr + ph.filesz + (i - ph.filesz) = ph.vaddr + i by omega] at hroom
  · intro hall
    refine ⟨trivial, fun i hi => hall i (Or.inl hi), fun i hi => ?_⟩
    rw [u32_add, Nat.add_assoc]
    exact hall _ (Or.inr ⟨Nat.le_add_right _ _, Nat.add_lt_add_left hi _⟩)

theorem requests_cons (ph : ProgramHeader) (phs : List ProgramHeader) :
    requests (ph :: phs) = ph.requests ++ requests phs := List.flatMap_cons

theorem loadsOf_cons_load (h : ph.type = 1) : Elf.loadsOf (ph :: phs) = ph :: Elf.loadsOf phs := by
  unfold Elf.loadsOf
  rw [List.filter_cons, if_pos (decide_eq_true h)]

theorem loadsOf_cons_skip (h : ph.type ≠ 1) : Elf.loadsOf (ph :: phs) = Elf.loadsOf phs := by
  unfold Elf.loadsOf
  rw [List.filter_cons, if_neg (by rw [decide_eq_true_eq]; exact h)]

/-- `n` program headers are there from `i` on, and what they load can be put where it belongs. -/
def LoopEnds (k : Kernel) (m : Machine) (io : BlockIo) (hdr : ElfHeader) (n i : Nat) (sizes : List Nat) : Prop :=
  ∃ phs, (List.range' i n).mapM (Elf.programHeader io hdr) = some phs ∧
    Placeable k m io.sizeInBytes sizes (Elf.loadsOf phs)

/-- The process after these headers. -/
def LoopLeaves (m : Machine) (io : BlockIo) (hdr : ElfHeader) (n i : Nat) (sizes : List Nat)
    (m' : Machine) : Prop :=
  ∃ phs mem', (List.range' i n).mapM (Elf.programHeader io hdr) = some phs ∧
    asking m (sizes ++ requests (Elf.loadsOf phs)) mem' = m'

variable {i n : Nat} {m' : Machine}

/-- The program headers from `i` on, when there is one. -/
theorem table_cons (h : Elf.programHeader io hdr i = some ph) :
    (List.range' i (n + 1)).mapM (Elf.programHeader io hdr) = some phs ↔
      ∃ rest, (List.range' (i + 1) n).mapM (Elf.programHeader io hdr) = some rest ∧ ph :: rest = phs := by
  rw [List.range'_succ, List.mapM_cons, h]
  constructor
  · intro htable
    obtain ⟨_, hfirst, htable⟩ := Option.bind_eq_some_iff.1 htable
    obtain ⟨rest, hrest, heq⟩ := Option.bind_eq_some_iff.1 htable
    obtain rfl := Option.some.inj hfirst
    exact ⟨rest, hrest, Option.some.inj heq⟩
  · rintro ⟨rest, hrest, rfl⟩
    show ((List.range' (i + 1) n).mapM (Elf.programHeader io hdr)).bind _ = _
    rw [hrest]
    rfl

/-- A segment, and the headers after it. -/
theorem loopEnds_load (h : Elf.programHeader io hdr i = some ph) (hload : ph.type = 1) :
    LoopEnds k m io hdr (n + 1) i sizes ↔ (ph.rejected = false ∧
      ∀ j, ph.Writes io.sizeInBytes j → Room k m (sizes ++ ph.requests) (u32 (ph.vaddr + j))) ∧
        LoopEnds k m io hdr n (i + 1) (sizes ++ ph.requests) := by
  constructor
  · rintro ⟨phs, htable, hplaceable⟩
    obtain ⟨rest, hrest, rfl⟩ := (table_cons h).1 htable
    rw [loadsOf_cons_load hload] at hplaceable
    exact ⟨hplaceable.1, rest, hrest, hplaceable.2⟩
  · rintro ⟨hfirst, rest, hrest, hplaceable⟩
    refine ⟨ph :: rest, (table_cons h).2 ⟨rest, hrest, rfl⟩, ?_⟩
    rw [loadsOf_cons_load hload]
    exact ⟨hfirst, hplaceable⟩

theorem loopLeaves_load (h : Elf.programHeader io hdr i = some ph) (hload : ph.type = 1)
    (hleaves : LoopLeaves m io hdr n (i + 1) (sizes ++ ph.requests) m') :
    LoopLeaves m io hdr (n + 1) i sizes m' := by
  obtain ⟨rest, mem', hrest, hm'⟩ := hleaves
  refine ⟨ph :: rest, mem', (table_cons h).2 ⟨rest, hrest, rfl⟩, ?_⟩
  rw [loadsOf_cons_load hload, requests_cons, ← List.append_assoc]
  exact hm'

/-- A header that is passed over. -/
theorem loopEnds_skip (h : Elf.programHeader io hdr i = some ph) (hskip : ph.type ≠ 1) :
    LoopEnds k m io hdr (n + 1) i sizes ↔ LoopEnds k m io hdr n (i + 1) sizes := by
  constructor
  · rintro ⟨phs, htable, hplaceable⟩
    obtain ⟨rest, hrest, rfl⟩ := (table_cons h).1 htable
    rw [loadsOf_cons_skip hskip] at hplaceable
    exact ⟨rest, hrest, hplaceable⟩
  · rintro ⟨rest, hrest, hplaceable⟩
    refine ⟨ph :: rest, (table_cons h).2 ⟨rest, hrest, rfl⟩, ?_⟩
    rw [loadsOf_cons_skip hskip]
    exact hplaceable

theorem loopLeaves_skip (h : Elf.programHeader io hdr i = some ph) (hskip : ph.type ≠ 1)
    (hleaves : LoopLeaves m io hdr n (i + 1) sizes m') : LoopLeaves m io hdr (n + 1) i sizes m' := by
  obtain ⟨rest, mem', hrest, hm'⟩ := hleaves
  refine ⟨ph :: rest, mem', (table_cons h).2 ⟨rest, hrest, rfl⟩, ?_⟩
  rw [loadsOf_cons_skip hskip]
  exact hm'

/-- **The loop** comes to its end exactly if all program headers are there, and the segments can be put where
    they belong. -/
theorem exactly_loadSegments (k : Kernel) (m : Machine) (hdr : ElfHeader) (hbs : 0 < io.blockSize) :
    ∀ (n i : Nat) (sizes : List Nat) (mem : Mem),
    Exactly (k.Stores m) (Elf.loadSegments io hdr.phentsize n (hdr.at i)) (asking m sizes mem)
      (LoopEnds k m io hdr n i sizes) fun _ m' => LoopLeaves m io hdr n i sizes m' := by
  intro n
  induction n with
  | zero =>
    intro i sizes mem
    refine (Exactly.pure ⟨[], mem, rfl, ?_⟩).congr (iff_of_true trivial ⟨[], rfl, trivial⟩)
    show asking m (sizes ++ []) mem = _
    rw [List.append_nil]
  | succ n ih =>
    intro i sizes mem
    cases hph : Elf.programHeader io hdr i with
    | none =>
      rw [Elf.loadSegments_none hph]
      refine Exactly.stop.congr (iff_of_false id ?_)
      rintro ⟨phs, htable, -⟩
      rw [List.range'_succ, List.mapM_cons, hph] at htable
      cases htable
    | some ph =>
      rw [Elf.loadSegments_succ hph]
      by_cases hload : ph.type = 1
      · rw [loopEnds_load hph hload]
        by_cases haccepted : ph.rejected = false
        · have hvaddr := (Elf.programHeader_lt hph).1
          refine Exactly.mono ?_ fun _ _ => loopLeaves_load hph hload
          refine ((exactly_loadSegment hbs hvaddr hload haccepted mem).congr ?_).bind ?_
          · exact (and_iff_right haccepted).symm
          · rintro _ _ ⟨mem', rfl⟩
            exact ih (i + 1) (sizes ++ ph.requests) mem'
        · rw [Elf.loadSegment_rejected hload (eq_true_of_ne_false haccepted)]
          refine ((Exactly.stop (Q := fun _ _ => False)).congr ?_).bind fun _ _ h => h.elim
          exact iff_of_false id fun h => haccepted h.1
      · rw [loopEnds_skip hph hload, Elf.loadSegment_skip hload]
        refine Exactly.mono ?_ fun _ _ => loopLeaves_skip hph hload
        refine (Exactly.bind (Exactly.pure (Q := fun _ m' => asking m sizes mem = m') rfl) ?_).congr
          (and_iff_right trivial)
        rintro _ _ rfl
        exact ih (i + 1) sizes mem

/-- **`load`** of a file that has an ELF header and all program headers. -/
theorem exactly_load (hvalid : Elf.header (m.fs.node file).io = some hdr)
    (htable : (List.range hdr.phnum).mapM (Elf.programHeader (m.fs.node file).io hdr) = some phs) :
    Exactly (k.Stores m) (Elf.load file) (asking m [] mem)
      (Placeable k m (m.fs.node file).io.sizeInBytes [] (Elf.loadsOf phs))
      fun e m' => e = hdr.entry ∧ ∃ mem', asking m (requests (Elf.loadsOf phs)) mem' = m' := by
  rw [List.range_eq_range'] at htable
  have hloop := exactly_loadSegments k m hdr (m.fs.node file).blockSize_pos hdr.phnum 0 [] mem
  have hload : Exactly (k.Stores m) (Elf.loadSegments (m.fs.node file).io hdr.phentsize hdr.phnum (hdr.at 0) >>=
      fun _ => pure hdr.entry) (asking m [] mem) (LoopEnds k m (m.fs.node file).io hdr hdr.phnum 0 [] ∧ True)
      fun e m' => e = hdr.entry ∧ LoopLeaves m (m.fs.node file).io hdr hdr.phnum 0 [] m' :=
    hloop.bind fun _ _ h => Exactly.pure ⟨rfl, h⟩
  have hrun : Exactly (k.Stores m) (Elf.load file) (asking m [] mem) _ _ :=
    Exactly.of_eq (Elf.load_eq hvalid) hload
  refine (hrun.congr ?_).mono ?_
  · rw [and_true]
    constructor
    · rintro ⟨phs', htable', hplaceable⟩
      rw [htable] at htable'
      obtain rfl := Option.some.inj htable'
      exact hplaceable
    · exact fun hplaceable => ⟨phs, htable, hplaceable⟩
  · rintro _ _ ⟨rfl, phs', mem', htable', rfl⟩
    rw [htable] at htable'
    obtain rfl := Option.some.inj htable'
    exact ⟨rfl, mem', rfl⟩

/-- Of any other it does not come back. -/
theorem not_ends_load (hnone : ∀ hdr phs, Elf.header (m.fs.node file).io = some hdr →
    (List.range hdr.phnum).mapM (Elf.programHeader (m.fs.node file).io hdr) ≠ some phs) :
    ¬ Ends (k.Stores m) (Elf.load file) (asking m [] mem) := by
  cases hvalid : Elf.header (m.fs.node file).io with
  | none =>
    have hrun : Elf.load file (asking m [] mem) = ⟨[], .error .panic, asking m [] mem⟩ :=
      Elf.load_invalid hvalid
    rintro ⟨⟨e, he⟩, -⟩
    rw [hrun] at he
    cases he
  | some hdr =>
    have hloop := exactly_loadSegments k m hdr (m.fs.node file).blockSize_pos hdr.phnum 0 [] mem
    have hrun : Elf.load file (asking m [] mem) = _ := Elf.load_eq hvalid
    intro hends
    unfold Ends at hends
    rw [hrun] at hends
    obtain ⟨phs, htable, -⟩ := hloop.ends.1 (ends_bind.1 hends).1
    rw [← List.range_eq_range'] at htable
    exact hnone hdr phs hvalid htable

end Exec

end BadApple
