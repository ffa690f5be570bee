/-
  Processes with page tables have separate memories.

  1. **The machine** — the processes there are, each with its TCB, over one physical memory.  They read and
     write their user ranges, fault, map and unmap, fork, start over as `execl` does, and are buried by
     whichever process runs when they have stopped.  No request for memory wraps around.
  2. **Invariant** — `Sound`: the address spaces share nothing but the kernel's tables; every page that is
     mapped is one of an entry, and accessible to users.
  3. **Abstraction** — `memories`: frames, tables and faults are forgotten.  The machine refines
     `Separate.Step`: `step_refines`, and `memories_refine` for whole runs.
  4. **Consequences** — what a process reads depends on its own requests only (`reads_determined`); an access
     completes after at most one page fault (`access_completes`).
-/
import BadApple.Lib.Separate
import BadApple.Vmm.Access

namespace BadApple

open Memory

/-! ## Operations on address spaces -/

namespace TCB

/-- `thread`: the address space of a new thread. -/
def create (m : PhysMem) (globalPageDirectory : Nat) : Option (TCB × PhysMem) := do
  let (pd, m) ← m.newPageDirectory globalPageDirectory
  some (⟨pd, Region.user.init⟩, m)

/-- `naive_mmap` of a region that is not shared: its address, or 0. -/
def naiveMmap (t : TCB) (size : Nat) (node : Option BlockIo) (offset : Nat) (user : Bool) : Nat × TCB :=
  let r := t.vme.addEntry size node offset user
  (r.1, { t with vme := r.2 })

/-- `naive_munmap`, in the thread that runs. -/
def naiveMunmap (t : TCB) (m : PhysMem) (p : Nat) (user : Bool) : Option (TCB × PhysMem) :=
  if p < 0xF0000000 then
    let r := t.vme.removeEntry p user
    (r.1.elim (some m) (m.destroyEntry t.pd)).map fun m => ({ t with vme := r.2 }, m)
  else some (t, m)

/-- `CLEAR ADDR SPACE` of `execl`, in the thread that runs, and its new `VME`. -/
def clearAddrSpace (t : TCB) (m : PhysMem) : Option (TCB × PhysMem) := do
  let m ← t.vme.entries.foldlM (PhysMem.destroyEntry t.pd) m
  let m ← (List.range' PhysMem.userPDI PhysMem.userPDIs).foldlM (fun m i => m.removePTMapping t.pd i) m
  some ({ t with vme := Region.user.init }, m)

/-- The byte that a page fault would put at an address. -/
def content (t : TCB) (va : Nat) : Option UInt8 :=
  (t.vme.get va).map fun e => e.pageByte va (va % frameSize)

end TCB

/-! ## The machine -/

/-- The processes, by their numbers, and the memory. -/
structure Processes where
  mem : PhysMem
  globalPageDirectory : Nat
  live : List Nat
  tcb : Nat → TCB

namespace Processes

/-- What processes do. -/
abbrev Act := Separate.Act Nat Nat UInt8

/-- Process `i` now has the address space `t`. -/
def set (s : Processes) (i : Nat) (tm : TCB × PhysMem) : Processes :=
  { s with mem := tm.2, tcb := Function.update s.tcb i tm.1 }

/-- Process `j` is new. -/
def add (s : Processes) (j : Nat) (tm : TCB × PhysMem) : Processes :=
  { s with mem := tm.2, live := j :: s.live, tcb := Function.update s.tcb j tm.1 }

/-- The addresses of an entry. -/
def addresses (e : VMEEntry BlockIo) : Set Nat := { va | e.range.Has va }

/-- One step of a process in user mode, of a system call or of the kernel for it.  A request is answered here
    when no 32-bit sum of it wraps (`VME.NoWrap`); one that does wrap may be given pages outside the user range,
    and nothing is said of what follows it. -/
inductive Step : Processes → Act → Processes → Prop
  | load {s : Processes} {i va : Nat} :
      i ∈ s.live → UserAddress va →
      TCB.allowed s.mem.mem (s.tcb i).pd (va / frameSize) false = true →
      Step s (.load i va (s.mem.mem (frameOf (pte s.mem.mem (s.tcb i).pd (va / frameSize / 1024)
        (va / frameSize % 1024)) + va % frameSize))) s
  | store {s : Processes} {i va : Nat} {b : UInt8} {shared : VME BlockIo} {m' : PhysMem} :
      i ∈ s.live → UserAddress va →
      TCB.allowed s.mem.mem (s.tcb i).pd (va / frameSize) true = true →
      (s.tcb i).access s.mem shared va (some b) = some m' →
      Step s (.store i va b) { s with mem := m' }
  | fault {s : Processes} {i va : Nat} {b : Option UInt8} {shared : VME BlockIo} {m' : PhysMem} :
      i ∈ s.live → UserAddress va →
      TCB.allowed s.mem.mem (s.tcb i).pd (va / frameSize) b.isSome = false →
      (s.tcb i).access s.mem shared va b = some m' →
      Step s (.tau i) { s with mem := m' }
  | spawn {s : Processes} {j : Nat} {tm : TCB × PhysMem} :
      j ∉ s.live → TCB.create s.mem s.globalPageDirectory = some tm → Step s (.spawn j) (s.add j tm)
  | fork {s : Processes} {i j : Nat} {tm : TCB × PhysMem} :
      i ∈ s.live → j ∉ s.live → (s.tcb i).fork s.mem s.globalPageDirectory = some tm →
      Step s (.fork i j) (s.add j tm)
  | mmap {s : Processes} {i size : Nat} {node : Option BlockIo} {offset : Nat} {user : Bool} {va : Nat}
      {t : TCB} :
      i ∈ s.live → size < 4294967296 → (s.tcb i).vme.NoWrap size →
      (s.tcb i).naiveMmap size node offset user = (va, t) → va ≠ 0 →
      Step s (.map i (addresses ⟨va, VME.requiredPages size, size, node, offset, user⟩) fun a =>
        VMEEntry.pageByte ⟨va, VME.requiredPages size, size, node, offset, user⟩ a (a % frameSize))
        (s.set i (t, s.mem))
  | refused {s : Processes} {i size : Nat} {node : Option BlockIo} {offset : Nat} {user : Bool} {t : TCB} :
      i ∈ s.live → size < 4294967296 → (s.tcb i).vme.NoWrap size →
      (s.tcb i).naiveMmap size node offset user = (0, t) → Step s (.tau i) (s.set i (t, s.mem))
  | munmap {s : Processes} {i p : Nat} {user : Bool} {e : VMEEntry BlockIo} {tm : TCB × PhysMem} :
      i ∈ s.live → p < 0xF0000000 → ((s.tcb i).vme.removeEntry p user).1 = some e →
      (s.tcb i).naiveMunmap s.mem p user = some tm → Step s (.unmap i (addresses e)) (s.set i tm)
  | notMapped {s : Processes} {i p : Nat} {user : Bool} {tm : TCB × PhysMem} :
      i ∈ s.live → (p < 0xF0000000 → ((s.tcb i).vme.removeEntry p user).1 = none) →
      (s.tcb i).naiveMunmap s.mem p user = some tm → Step s (.tau i) (s.set i tm)
  | exec {s : Processes} {i : Nat} {tm : TCB × PhysMem} :
      i ∈ s.live → (s.tcb i).clearAddrSpace s.mem = some tm → Step s (.clear i) (s.set i tm)
  | reap {s : Processes} {r i : Nat} {m' : PhysMem} :
      r ∈ s.live → i ∈ s.live → r ≠ i → (s.tcb i).destroy s.mem (s.tcb r).pd = some m' →
      Step s (.reap r i) { s with mem := m', live := s.live.filter (· ≠ i) }

/-! ## Abstraction and invariant -/

instance (va : Nat) : Decidable (UserAddress va) := inferInstanceAs (Decidable (_ ∧ _))

/-- The memory of a process, as it sees it. -/
def memory (m : PhysMem) (t : TCB) : Separate.Memory Nat UInt8 where
  backing va := if UserAddress va then t.content va else none
  bytes va := if UserAddress va then t.byteAt m va else none

/-- The memories of all processes. -/
def memories (s : Processes) : Separate.State Nat Nat UInt8 := fun i =>
  if i ∈ s.live then some (memory s.mem (s.tcb i)) else none

/-- All directories. -/
def pds (s : Processes) : List Nat := s.globalPageDirectory :: s.live.map fun i => (s.tcb i).pd

/-- Every page that is mapped belongs to an entry. -/
def Backed (mem : Mem) (t : TCB) : Prop :=
  ∀ v, isUser (v / 1024) → (translate mem t.pd v).isSome = true → EntryPage t.vme.entries v

/-- A process's address space is in order. -/
structure InOrder (mem : Mem) (t : TCB) : Prop where
  run : VME.InRun .user t.vme
  backed : Backed mem t
  accessible : Accessible mem t.pd

/-- **The invariant.** -/
structure Sound (s : Processes) : Prop where
  spaces : ∃ l, Spaces s.mem l s.pds
  apart : ∀ i ∈ s.live, ∀ j ∈ s.live, (s.tcb i).pd = (s.tcb j).pd → i = j
  notGlobal : ∀ i ∈ s.live, (s.tcb i).pd ≠ s.globalPageDirectory
  noTables : NoUserTables s.mem.mem s.globalPageDirectory
  inOrder : ∀ i ∈ s.live, InOrder s.mem.mem (s.tcb i)

variable {s s' : Processes} {m m' : PhysMem} {mem mem' : Mem} {i j va : Nat} {t t' : TCB}

theorem Sound.pd_mem (_ : Sound s) (hi : i ∈ s.live) : (s.tcb i).pd ∈ s.pds :=
  List.mem_cons_of_mem _ (List.mem_map_of_mem hi)

theorem global_mem (s : Processes) : s.globalPageDirectory ∈ s.pds := List.mem_cons_self

/-- An address space without new tables and pages stays in order. -/
theorem InOrder.shrinks (h : InOrder mem t) (hsh : Shrinks mem' mem t.pd) : InOrder mem' t := by
  refine ⟨h.run, fun v hu hsome => ?_, hsh.accessible h.accessible⟩
  obtain ⟨w, hw⟩ := Option.isSome_iff_exists.1 hsome
  refine h.backed v hu ?_
  rw [hsh.pages v hu w hw]
  rfl

/-- Memory is what can be seen at user addresses. -/
theorem memory_congr (h : ∀ a, UserAddress a → t.byteAt m' a = t.byteAt m a) : memory m' t = memory m t := by
  refine Separate.Memory.ext rfl (funext fun a => ?_)
  show (if UserAddress a then t.byteAt m' a else none) = if UserAddress a then t.byteAt m a else none
  by_cases ha : UserAddress a
  · rw [if_pos ha, if_pos ha, h a ha]
  · rw [if_neg ha, if_neg ha]

theorem memories_of_mem (hi : i ∈ s.live) : s.memories i = some (memory s.mem (s.tcb i)) := if_pos hi

theorem memories_of_not_mem (hi : i ∉ s.live) : s.memories i = none := if_neg hi

theorem set_tcb (s : Processes) (i : Nat) (m : PhysMem) : s.set i (s.tcb i, m) = { s with mem := m } := by
  rw [set, Function.update_eq_self]

/-- **One address space changes.** -/
theorem Sound.set (hs : Sound s) (hi : i ∈ s.live) (hpd : t'.pd = (s.tcb i).pd) (hsp : ∃ l, Spaces m' l s.pds)
    (hother : ∀ pd ∈ s.pds, pd ≠ (s.tcb i).pd → Shrinks m'.mem s.mem.mem pd) (hin : InOrder m'.mem t') :
    Sound (s.set i (t', m')) := by
  have hsame : ∀ j, (Function.update s.tcb i t' j).pd = (s.tcb j).pd := by
    intro j
    by_cases hj : j = i
    · rw [hj, Function.update_self, hpd]
    · rw [Function.update_of_ne hj]
  have hpds : (s.set i (t', m')).pds = s.pds := by
    show s.globalPageDirectory :: s.live.map (fun j => (Function.update s.tcb i t' j).pd) = s.pds
    rw [funext hsame]
    rfl
  refine ⟨?_, fun j hj k hk heq => ?_, fun j hj => ?_, ?_, fun j hj => ?_⟩
  · rw [hpds]
    exact hsp
  · refine hs.apart j hj k hk ?_
    rw [← hsame j, ← hsame k]
    exact heq
  · show (Function.update s.tcb i t' j).pd ≠ s.globalPageDirectory
    rw [hsame j]
    exact hs.notGlobal j hj
  · exact (hother _ (global_mem s) (hs.notGlobal i hi).symm).noUserTables hs.noTables
  · show InOrder m'.mem (Function.update s.tcb i t' j)
    by_cases hji : j = i
    · rw [hji, Function.update_self]
      exact hin
    · rw [Function.update_of_ne hji]
      have hne : (s.tcb j).pd ≠ (s.tcb i).pd := fun heq => hji (hs.apart j hj i hi heq)
      exact (hs.inOrder j hj).shrinks (hother _ (hs.pd_mem hj) hne)

/-- **One memory changes.** -/
theorem memories_set (hi : i ∈ s.live)
    (hother : ∀ j ∈ s.live, j ≠ i → memory m' (s.tcb j) = memory s.mem (s.tcb j)) :
    (s.set i (t', m')).memories = s.memories.set i (some (memory m' t')) := by
  funext j
  by_cases hji : j = i
  · rw [hji, Separate.State.set_self, memories_of_mem (show i ∈ (s.set i (t', m')).live from hi)]
    show some (memory m' (Function.update s.tcb i t' i)) = _
    rw [Function.update_self]
  · rw [Separate.State.set_of_ne _ hji]
    by_cases hj : j ∈ s.live
    · rw [memories_of_mem hj, memories_of_mem (show j ∈ (s.set i (t', m')).live from hj), ← hother j hj hji]
      show some (memory m' (Function.update s.tcb i t' j)) = _
      rw [Function.update_of_ne hji]
    · rw [memories_of_not_mem hj, memories_of_not_mem (show j ∉ (s.set i (t', m')).live from hj)]

/-- What is kept outside of the pages of one directory. -/
theorem Sound.memory_other {P : Nat → Nat → Prop} (hs : Sound s) (hi : i ∈ s.live)
    (hk : KeepsPages m' s.mem s.pds P) (hP : ∀ pd v, P pd v → pd = (s.tcb i).pd) (hj : j ∈ s.live)
    (hne : j ≠ i) : memory m' (s.tcb j) = memory s.mem (s.tcb j) :=
  memory_congr fun _ ha => hk.byteAt_eq (hs.pd_mem hj) ha fun h => hne (hs.apart j hj i hi (hP _ _ h))

/-! ## Access -/

/-- **Reading.** -/
theorem Sound.load (_ : Sound s) (hi : i ∈ s.live) (hva : UserAddress va)
    (hal : TCB.allowed s.mem.mem (s.tcb i).pd (va / frameSize) false = true) :
    Separate.Step s.memories (.load i va (s.mem.mem (frameOf (pte s.mem.mem (s.tcb i).pd
      (va / frameSize / 1024) (va / frameSize % 1024)) + va % frameSize))) s.memories := by
  refine .load (memories_of_mem hi) ?_
  show (if UserAddress va then (s.tcb i).byteAt s.mem va else none) = _
  rw [if_pos hva, TCB.byteAt, TCB.translate_of_allowed hal]

/-- **Writing.** -/
theorem Sound.store {b : UInt8} {shared : VME BlockIo} (hs : Sound s) (hi : i ∈ s.live) (hva : UserAddress va)
    (hal : TCB.allowed s.mem.mem (s.tcb i).pd (va / frameSize) true = true)
    (h : (s.tcb i).access s.mem shared va (some b) = some m') :
    Sound { s with mem := m' } ∧
      Separate.Step s.memories (.store i va b) ({ s with mem := m' } : Processes).memories := by
  have hw := TCB.translate_of_allowed hal
  have ht := hs.pd_mem hi
  obtain ⟨l, hS⟩ := hs.spaces
  rw [TCB.access, Option.isSome_some, if_pos hal] at h
  obtain rfl := Option.some.inj h
  obtain ⟨hS', hv, hbytes⟩ := hS.storeByte ht hva hw b
  rw [← set_tcb s i]
  have hin' := (hs.inOrder i hi).shrinks (hv.shrinks ht)
  refine ⟨hs.set hi rfl ⟨l, hS'⟩ (fun pd hpd _ => hv.shrinks hpd) hin', ?_⟩
  rw [memories_set hi fun j hj hne => memory_congr fun a ha => ?_]
  · have hmem : memory { s.mem with mem := Memory.store s.mem.mem (frameOf (pte s.mem.mem (s.tcb i).pd
        (va / frameSize / 1024) (va / frameSize % 1024)) + va % frameSize) [b] } (s.tcb i) =
        (memory s.mem (s.tcb i)).store va b := by
      refine Separate.Memory.ext rfl (funext fun a => ?_)
      by_cases hava : a = va
      · rw [hava, Separate.Memory.store_self]
        show (if UserAddress va then (s.tcb i).byteAt _ va else none) = _
        rw [if_pos hva, hbytes _ ht va hva, if_pos ⟨rfl, rfl⟩]
      · rw [Separate.Memory.store_of_ne _ hava]
        show (if UserAddress a then (s.tcb i).byteAt _ a else none) =
          if UserAddress a then (s.tcb i).byteAt s.mem a else none
        by_cases ha : UserAddress a
        · rw [if_pos ha, if_pos ha, hbytes _ ht a ha, if_neg fun hh => hava hh.2]
        · rw [if_neg ha, if_neg ha]
    rw [hmem]
    refine .store b (memories_of_mem hi) ?_
    show (if UserAddress va then (s.tcb i).byteAt s.mem va else none).isSome = true
    rw [if_pos hva, TCB.byteAt, hw]
    rfl
  · rw [hbytes _ (hs.pd_mem hj) a ha, if_neg fun hh => hne (hs.apart j hj i hi hh.1)]

/-- The page of a fault holds what was there logically, all of it. -/
theorem pageBytes_page {e : VMEEntry BlockIo} {a : Nat} (h : a / frameSize = va / frameSize) :
    e.pageBytes a = e.pageBytes va := by
  rw [VMEEntry.pageBytes, VMEEntry.pageBytes, h]

/-- **A page fault** cannot be seen. -/
theorem Sound.fault {b : Option UInt8} {shared : VME BlockIo} (hs : Sound s) (hi : i ∈ s.live)
    (hva : UserAddress va) (hal : TCB.allowed s.mem.mem (s.tcb i).pd (va / frameSize) b.isSome = false)
    (h : (s.tcb i).access s.mem shared va b = some m') :
    Sound { s with mem := m' } ∧ ({ s with mem := m' } : Processes).memories = s.memories := by
  have ht := hs.pd_mem hi
  have hin := hs.inOrder i hi
  have hu := hva.isUser
  obtain ⟨l, hS⟩ := hs.spaces
  have hnone : translate s.mem.mem (s.tcb i).pd (va / frameSize) = none := by
    cases htr : translate s.mem.mem (s.tcb i).pd (va / frameSize) with
    | none => rfl
    | some w =>
      have hyes := (hin.accessible.allowed_iff hu b.isSome).2 (by rw [htr]; rfl)
      rw [hal] at hyes
      cases hyes
  unfold TCB.access at h
  rw [if_neg (by rw [hal]; decide)] at h
  obtain ⟨e, l', w, hget, hins⟩ := hS.pageFault_some ht hva h
  have hk := hins.keepsPages hS ht
  have hin' : InOrder m'.mem (s.tcb i) := by
    refine ⟨hin.run, fun v huv hsome => ?_, hS.pageFault_accessible ht hva h hin.accessible⟩
    by_cases hv : v = va / frameSize
    · subst hv
      exact (entryPage_iff hin.run.inUserRange hin.run.aligned.entries).2 ⟨e, (hin.run.get_iff e).1 hget⟩
    · refine hin.backed v huv ?_
      rw [← hins.other _ ht v (user_vpn_lt huv) fun hh => hv hh.2]
      exact hsome
  rw [← set_tcb s i]
  refine ⟨hs.set hi rfl ⟨l', hins.spaces⟩ (fun pd hpd hne => hins.shrinks hpd hne) hin', ?_⟩
  have hself : memory m' (s.tcb i) = memory s.mem (s.tcb i) := by
    refine memory_congr fun a ha => ?_
    by_cases hpage : a / frameSize = va / frameSize
    · rw [TCB.byteAt, TCB.byteAt, hpage, hins.here, hnone, hin.run.aligned.get_page hpage, hget]
      simp only [Option.map_some]
      rw [hins.filled _ (offset_lt a), pageBytes_page hpage]
    · exact hk.byteAt_eq ht ha fun hh => hpage hh.2
  rw [memories_set hi fun j hj hne => hs.memory_other hi hk (fun _ _ hP => hP.1) hj hne, hself]
  exact Function.update_eq_self_iff.2 (memories_of_mem hi).symm

/-! ## Processes that come -/

/-- **One process more.** -/
theorem Sound.add (hs : Sound s) {l' : List Nat} (hj : j ∉ s.live) (hsp : Spaces m' l' (t'.pd :: s.pds))
    (hnew : t'.pd ∉ s.pds) (hother : ∀ pd ∈ s.pds, Shrinks m'.mem s.mem.mem pd) (hin : InOrder m'.mem t') :
    Sound (s.add j (t', m')) := by
  have hself : (s.add j (t', m')).tcb j = t' := by
    show Function.update s.tcb j t' j = t'
    rw [Function.update_self]
  have hold : ∀ {k}, k ∈ s.live → (s.add j (t', m')).tcb k = s.tcb k := by
    intro k hk
    show Function.update s.tcb j t' k = s.tcb k
    rw [Function.update_of_ne]
    rintro rfl
    exact hj hk
  have hlive : ∀ {k}, k ∈ (s.add j (t', m')).live → k = j ∨ k ∈ s.live := fun hk => List.mem_cons.1 hk
  have hpdne : ∀ {k}, k ∈ s.live → (s.tcb k).pd ≠ t'.pd := fun hk heq => hnew (heq ▸ hs.pd_mem hk)
  refine ⟨⟨l', hsp.subset fun pd hpd => ?_⟩, fun k hk k' hk' heq => ?_, fun k hk => ?_,
    (hother _ (global_mem s)).noUserTables hs.noTables, fun k hk => ?_⟩
  · rcases List.mem_cons.1 hpd with rfl | hpd
    · exact List.mem_cons_of_mem _ (global_mem s)
    · obtain ⟨k, hk, rfl⟩ := List.mem_map.1 hpd
      rcases hlive hk with rfl | hk
      · rw [hself]
        exact List.mem_cons_self
      · rw [hold hk]
        exact List.mem_cons_of_mem _ (hs.pd_mem hk)
  · rcases hlive hk with rfl | hk₁ <;> rcases hlive hk' with rfl | hk₂
    · rfl
    · rw [hself, hold hk₂] at heq
      exact absurd heq.symm (hpdne hk₂)
    · rw [hself, hold hk₁] at heq
      exact absurd heq (hpdne hk₁)
    · rw [hold hk₁, hold hk₂] at heq
      exact hs.apart k hk₁ k' hk₂ heq
  · show ((s.add j (t', m')).tcb k).pd ≠ s.globalPageDirectory
    rcases hlive hk with rfl | hk
    · rw [hself]
      exact fun heq => hnew (heq ▸ global_mem s)
    · rw [hold hk]
      exact hs.notGlobal k hk
  · rcases hlive hk with rfl | hk
    · rw [hself]
      exact hin
    · rw [hold hk]
      exact (hs.inOrder k hk).shrinks (hother _ (hs.pd_mem hk))

/-- One memory more. -/
theorem memories_add (hother : ∀ k ∈ s.live, memory m' (s.tcb k) = memory s.mem (s.tcb k)) :
    (s.add j (t', m')).memories = s.memories.set j (some (memory m' t')) := by
  funext k
  by_cases hkj : k = j
  · have hj : j ∈ (s.add j (t', m')).live := List.mem_cons_self
    rw [hkj, Separate.State.set_self, memories_of_mem hj]
    show some (memory m' (Function.update s.tcb j t' j)) = _
    rw [Function.update_self]
  · rw [Separate.State.set_of_ne _ hkj]
    by_cases hk : k ∈ s.live
    · rw [memories_of_mem hk, ← hother k hk,
        memories_of_mem (show k ∈ (s.add j (t', m')).live from List.mem_cons_of_mem _ hk)]
      show some (memory m' (Function.update s.tcb j t' k)) = _
      rw [Function.update_of_ne hkj]
    · rw [memories_of_not_mem hk, memories_of_not_mem]
      rintro hk'
      rcases List.mem_cons.1 hk' with h | h
      · exact hkj h
      · exact hk h

/-- A `VME` as it is constructed finds nothing. -/
theorem get_init (va : Nat) : (Region.user.init : VME BlockIo).get va = none := rfl

/-- An address space with nothing in it. -/
theorem inOrder_of_noUserTables (hnone : NoUserTables mem t.pd) (hvme : t.vme = Region.user.init) :
    InOrder mem t := by
  refine ⟨?_, fun v hu hsome => ?_, hnone.accessible⟩
  · rw [hvme]
    exact Runs.Guarded.start rfl
  · obtain ⟨w, hw⟩ := Option.isSome_iff_exists.1 hsome
    exact absurd (translate_eq_some.1 hw).1 (hnone _ hu)

theorem memory_of_noUserTables (hnone : NoUserTables m.mem t.pd) (hvme : t.vme = Region.user.init) :
    memory m t = .empty := by
  refine Separate.Memory.ext (funext fun a => ?_) (funext fun a => ?_)
  · show (if UserAddress a then t.content a else none) = none
    rw [TCB.content, hvme, get_init, Option.map_none, ite_self]
  · show (if UserAddress a then t.byteAt m a else none) = none
    by_cases ha : UserAddress a
    · rw [if_pos ha, TCB.byteAt, translate, if_neg fun hh => hnone _ ha.isUser hh.1, hvme, get_init]
      rfl
    · rw [if_neg ha]

/-- **A new thread** has an empty memory. -/
theorem Sound.spawn (hs : Sound s) (hj : j ∉ s.live)
    (h : TCB.create s.mem s.globalPageDirectory = some (t', m')) : Sound (s.add j (t', m')) ∧
      Separate.Step s.memories (.spawn j) (s.add j (t', m')).memories := by
  obtain ⟨l, hS⟩ := hs.spaces
  rw [TCB.create] at h
  obtain ⟨⟨p, m₁⟩, hnew, h⟩ := Option.bind_eq_some_iff.1 h
  obtain ⟨rfl, rfl⟩ := Prod.mk.inj (Option.some.inj h)
  obtain ⟨n, -, l', -, hop⟩ := (hS.newPageDirectory (global_mem s) hs.noTables).of_some hnew
  simp only at hop
  have hview : SameView m₁ s.mem s.pds := sameView_of_keeps fun f hf => hop.keeps f (hS.isTable_inUse hf)
  have hk : KeepsPages m₁ s.mem s.pds fun _ _ => False := keepsPages_of_keeps hS hop.keeps
  have hempty : memory m₁ ⟨p, Region.user.init⟩ = .empty := memory_of_noUserTables hop.noTables rfl
  refine ⟨hs.add hj hop.spaces (hop.not_mem hS) (fun pd hpd => hview.shrinks hpd)
    (inOrder_of_noUserTables hop.noTables rfl), ?_⟩
  rw [memories_add fun k hk' => memory_congr fun a ha => hk.byteAt_eq (hs.pd_mem hk') ha not_false, hempty]
  exact .spawn (memories_of_not_mem hj)

/-- **A forked process** has a copy of its parent's memory. -/
theorem Sound.fork (hs : Sound s) (hi : i ∈ s.live) (hj : j ∉ s.live)
    (h : (s.tcb i).fork s.mem s.globalPageDirectory = some (t', m')) : Sound (s.add j (t', m')) ∧
      Separate.Step s.memories (.fork i j) (s.add j (t', m')).memories := by
  have ht := hs.pd_mem hi
  have hin := hs.inOrder i hi
  obtain ⟨l, hS⟩ := hs.spaces
  obtain ⟨n, -, l', hf⟩ := (hS.fork ht (global_mem s) hs.noTables).of_some h
  simp only at hf
  have hvme : t'.vme = (s.tcb i).vme := by
    rw [TCB.fork] at h
    obtain ⟨⟨p, m₁⟩, -, h⟩ := Option.bind_eq_some_iff.1 h
    obtain ⟨m₂, -, h⟩ := Option.bind_eq_some_iff.1 h
    rw [← (Prod.mk.inj (Option.some.inj h)).1]
    exact VME.duplicate_eq _
  have hview : SameView m' s.mem s.pds := sameView_of_keeps fun f hg => hf.keeps f (hS.isTable_inUse hg)
  have hnew : t'.pd ∉ s.pds := fun hpd => hf.fresh (.dir t'.pd) t'.pd rfl rfl (hS.inUse (.dir t'.pd) _ hpd rfl)
  have hin' : InOrder m'.mem t' := by
    refine ⟨hvme ▸ hin.run, fun v hu hsome => ?_, hf.accessible hin.accessible⟩
    rw [hvme]
    refine hin.backed v hu ?_
    rcases hf.pages v hu with ⟨-, hnone⟩ | ⟨w, w', h0, -⟩
    · rw [hnone] at hsome
      cases hsome
    · rw [h0]
      rfl
  refine ⟨hs.add hj hf.spaces hnew (fun pd hpd => hview.shrinks hpd) hin', ?_⟩
  have hchild : memory m' t' = memory s.mem (s.tcb i) := by
    refine Separate.Memory.ext (funext fun a => ?_) (funext fun a => ?_)
    · show (if UserAddress a then t'.content a else none) = if UserAddress a then (s.tcb i).content a else none
      rw [TCB.content, TCB.content, hvme]
    · show (if UserAddress a then t'.byteAt m' a else none) =
        if UserAddress a then (s.tcb i).byteAt s.mem a else none
      by_cases ha : UserAddress a
      · rw [if_pos ha, if_pos ha, hf.agree a ha, hf.parentSame a ha]
      · rw [if_neg ha, if_neg ha]
  rw [memories_add fun k hk => memory_congr fun a ha =>
    (keepsPages_of_keeps (P := fun _ _ => False) hS hf.keeps).byteAt_eq (hs.pd_mem hk) ha not_false, hchild]
  exact .fork (memories_of_mem hi) (memories_of_not_mem hj)

/-! ## Mapping and unmapping -/

/-- Addresses of an entry of a process are user addresses. -/
theorem InOrder.userAddress (h : InOrder mem t) {e : VMEEntry BlockIo} (he : e ∈ t.vme.entries) {a : Nat}
    (ha : e.range.Has a) : UserAddress a := by
  obtain ⟨h1, h2⟩ := h.run.inUserRange e he
  obtain ⟨h3, h4⟩ : e.start ≤ a ∧ a < e.start + e.numPages * frameSize := ha
  exact ⟨Nat.le_trans h1 h3, Nat.lt_of_lt_of_le h4 h2⟩

/-- The pages of the entries of a process are where `get` finds one. -/
theorem InOrder.entryPage_iff (h : InOrder mem t) (a : Nat) :
    EntryPage t.vme.entries (a / frameSize) ↔ (t.vme.get a).isSome = true := by
  rw [BadApple.entryPage_iff h.run.inUserRange h.run.aligned.entries]
  constructor
  · rintro ⟨e, he, ha⟩
    rw [(h.run.get_iff e).2 ⟨he, ha⟩]
    rfl
  · intro hsome
    obtain ⟨e, he⟩ := Option.isSome_iff_exists.1 hsome
    exact ⟨e, (h.run.get_iff e).1 he⟩

/-- Where `get` finds nothing, nothing is mapped. -/
theorem InOrder.byteAt_none (h : InOrder m.mem t) {a : Nat} (ha : UserAddress a) (hget : t.vme.get a = none) :
    translate m.mem t.pd (a / frameSize) = none ∧ t.byteAt m a = none := by
  have hnone : translate m.mem t.pd (a / frameSize) = none := by
    cases htr : translate m.mem t.pd (a / frameSize) with
    | none => rfl
    | some w =>
      have hsome := (h.entryPage_iff a).1 (h.backed _ ha.isUser (by rw [htr]; rfl))
      rw [hget] at hsome
      cases hsome
  refine ⟨hnone, ?_⟩
  rw [TCB.byteAt, hnone, hget]
  rfl

/-- Logical memory depends on the entry at the address. -/
theorem byteAt_congr_get {vme : VME BlockIo} {a : Nat} (hget : vme.get a = t.vme.get a) :
    TCB.byteAt { t with vme := vme } m a = t.byteAt m a := by
  rw [TCB.byteAt, TCB.byteAt, hget]

/-- With one more entry, the addresses of the entry are mapped and have its contents. -/
theorem InOrder.memory_map {vme : VME BlockIo} {e : VMEEntry BlockIo} (h : InOrder m.mem t)
    (h' : InOrder m.mem { t with vme := vme }) (hperm : vme.entries.Perm (e :: t.vme.entries)) :
    memory m { t with vme := vme } =
      (memory m t).map (addresses e) fun a => e.pageByte a (a % frameSize) := by
  have hmem : e ∈ vme.entries := hperm.mem_iff.2 List.mem_cons_self
  have hget := fun a => h.run.get_perm a h'.run hperm
  refine Separate.Memory.ext (funext fun a => ?_) (funext fun a => ?_)
  · show (if UserAddress a then (vme.get a).map _ else none) = _
    by_cases ha : a ∈ addresses e
    · rw [(Separate.Memory.map_of_mem ha).1, if_pos (h'.userAddress hmem ha), ((hget a).1 ha).1]
      rfl
    · rw [(Separate.Memory.map_of_not_mem ha).1, (hget a).2 ha]
      rfl
  · show (if UserAddress a then TCB.byteAt { t with vme := vme } m a else none) = _
    by_cases ha : a ∈ addresses e
    · have hua : UserAddress a := h'.userAddress hmem ha
      have hnone := (h.byteAt_none hua ((hget a).1 ha).2).1
      rw [(Separate.Memory.map_of_mem ha).2, if_pos hua, TCB.byteAt, hnone, ((hget a).1 ha).1]
      rfl
    · rw [(Separate.Memory.map_of_not_mem ha).2, byteAt_congr_get ((hget a).2 ha)]
      rfl

/-- Without one of its entries, and the pages of the entry unmapped, the addresses of the entry are gone. -/
theorem InOrder.memory_unmap {vme : VME BlockIo} {e : VMEEntry BlockIo} {pds l l' : List Nat}
    (h : InOrder m.mem t) (h' : InOrder m'.mem { t with vme := vme }) (ht : t.pd ∈ pds)
    (hperm : t.vme.entries.Perm (e :: vme.entries)) (hun : UnmappedKeeping pds t.pd (EntryPage [e]) m l m' l') :
    memory m' { t with vme := vme } = (memory m t).unmap (addresses e) := by
  have hmem : e ∈ t.vme.entries := hperm.mem_iff.2 List.mem_cons_self
  have hget := fun a => h'.run.get_perm a h.run hperm
  have hentry : ∀ x ∈ [e], x ∈ t.vme.entries := fun x hx => List.mem_singleton.1 hx ▸ hmem
  refine Separate.Memory.ext (funext fun a => ?_) (funext fun a => ?_)
  · show (if UserAddress a then (vme.get a).map _ else none) = _
    by_cases ha : a ∈ addresses e
    · rw [(Separate.Memory.unmap_of_mem ha).1, ((hget a).1 ha).2, Option.map_none, ite_self]
    · rw [(Separate.Memory.unmap_of_not_mem ha).1, ← (hget a).2 ha]
      rfl
  · show (if UserAddress a then TCB.byteAt { t with vme := vme } m' a else none) = _
    by_cases ha : a ∈ addresses e
    · have hua := h.userAddress hmem ha
      rw [(Separate.Memory.unmap_of_mem ha).2, if_pos hua, (h'.byteAt_none hua ((hget a).1 ha).2).2]
    · rw [(Separate.Memory.unmap_of_not_mem ha).2]
      show _ = if UserAddress a then t.byteAt m a else none
      by_cases hua : UserAddress a
      · have hno : ¬ EntryPage [e] (a / frameSize) := by
          rw [BadApple.entryPage_iff (fun x hx => h.run.inUserRange x (hentry x hx)) fun x hx =>
            h.run.aligned.entries x (hentry x hx)]
          rintro ⟨x, hx, hhas⟩
          rw [List.mem_singleton.1 hx] at hhas
          exact ha hhas
        rw [if_pos hua, if_pos hua, byteAt_congr_get ((hget a).2 ha).symm]
        exact hun.keepsPages.byteAt_eq ht hua fun hh => hno hh.2
      · rw [if_neg hua, if_neg hua]

/-- **A request that is granted** maps the addresses of the new entry, which were not mapped. -/
theorem Sound.mmap {size offset : Nat} {node : Option BlockIo} {user : Bool} (hs : Sound s) (hi : i ∈ s.live)
    (hsize : size < 4294967296) (hfit : (s.tcb i).vme.NoWrap size)
    (h : (s.tcb i).naiveMmap size node offset user = (va, t')) (hva : va ≠ 0) :
    Sound (s.set i (t', s.mem)) ∧ Separate.Step s.memories
      (.map i (addresses ⟨va, VME.requiredPages size, size, node, offset, user⟩) fun a =>
        VMEEntry.pageByte ⟨va, VME.requiredPages size, size, node, offset, user⟩ a (a % frameSize))
      (s.set i (t', s.mem)).memories := by
  have ht := hs.pd_mem hi
  have hin := hs.inOrder i hi
  rw [TCB.naiveMmap] at h
  obtain ⟨rfl, rfl⟩ := Prod.mk.inj h
  have hrun : VME.InRun .user ((s.tcb i).vme.addEntry size node offset user).2 :=
    Runs.Guarded.next (a := .add size node offset user) hin.run ⟨hsize, hfit⟩ rfl
  rcases hin.run.addEntry_cases size node offset user with ⟨h0, -⟩ | ⟨-, hperm⟩
  · exact absurd h0 hva
  generalize hv : ((s.tcb i).vme.addEntry size node offset user).2 = v' at hrun hperm ⊢
  generalize he : (⟨((s.tcb i).vme.addEntry size node offset user).1, VME.requiredPages size, size, node,
    offset, user⟩ : VMEEntry BlockIo) = e at hperm ⊢
  have hin' : InOrder s.mem.mem { s.tcb i with vme := v' } :=
    ⟨hrun, fun v hu hsome => (entryPage_perm hperm).2 (Or.inr (hin.backed v hu hsome)), hin.accessible⟩
  refine ⟨hs.set hi rfl hs.spaces (fun _ _ _ => ⟨fun _ _ _ => rfl, fun _ _ _ hw => hw⟩) hin', ?_⟩
  have hmem : e ∈ v'.entries := hperm.mem_iff.2 List.mem_cons_self
  have hfree : ∀ a ∈ addresses e, (memory s.mem (s.tcb i)).bytes a = none := by
    intro a ha
    have hua : UserAddress a := hin'.userAddress hmem ha
    show (if UserAddress a then (s.tcb i).byteAt s.mem a else none) = none
    rw [if_pos hua]
    exact (hin.byteAt_none hua ((hin.run.get_perm a hrun hperm).1 ha).2).2
  rw [memories_set hi fun _ _ _ => rfl, hin.memory_map hin' hperm]
  exact .map _ (memories_of_mem hi) hfree

/-- A request that is refused changes nothing. -/
theorem Sound.refused {size offset : Nat} {node : Option BlockIo} {user : Bool} (hs : Sound s) (hi : i ∈ s.live)
    (h : (s.tcb i).naiveMmap size node offset user = (0, t')) : s.set i (t', s.mem) = s := by
  rw [TCB.naiveMmap] at h
  obtain ⟨h0, rfl⟩ := Prod.mk.inj h
  rcases (hs.inOrder i hi).run.addEntry_cases size node offset user with ⟨-, hv⟩ | ⟨hne, -⟩
  · rw [hv]
    exact set_tcb s i s.mem
  · exact absurd h0 hne

/-- **A removal** unmaps the addresses of the entry. -/
theorem Sound.munmap {p : Nat} {user : Bool} {e : VMEEntry BlockIo} (hs : Sound s) (hi : i ∈ s.live)
    (hp : p < 0xF0000000) (hrem : ((s.tcb i).vme.removeEntry p user).1 = some e)
    (h : (s.tcb i).naiveMunmap s.mem p user = some (t', m')) : Sound (s.set i (t', m')) ∧
      Separate.Step s.memories (.unmap i (addresses e)) (s.set i (t', m')).memories := by
  have ht := hs.pd_mem hi
  have hin := hs.inOrder i hi
  obtain ⟨l, hS⟩ := hs.spaces
  have hrun : VME.InRun .user ((s.tcb i).vme.removeEntry p user).2 :=
    Runs.Guarded.next (a := .remove p user) hin.run trivial rfl
  obtain ⟨e', he', hperm⟩ : ∃ e', ((s.tcb i).vme.removeEntry p user).1 = some e' ∧
      (s.tcb i).vme.entries.Perm (e' :: ((s.tcb i).vme.removeEntry p user).2.entries) := by
    rcases VME.removeEntry_cases (s.tcb i).vme p user with hnone | hsome
    · rw [hnone] at hrem
      cases hrem
    · exact hsome
  rw [hrem] at he'
  obtain rfl := Option.some.inj he'
  rw [TCB.naiveMunmap, if_pos hp] at h
  obtain ⟨m₁, hd, hm⟩ := Option.map_eq_some_iff.1 h
  obtain ⟨rfl, rfl⟩ := Prod.mk.inj hm
  rw [hrem] at hd
  generalize ((s.tcb i).vme.removeEntry p user).2 = v' at hrun hperm ⊢
  have hmem : e ∈ (s.tcb i).vme.entries := hperm.mem_iff.2 List.mem_cons_self
  have hrange : InUserRange [e] := by
    intro x hx
    rw [List.mem_singleton.1 hx]
    exact hin.run.inUserRange e hmem
  obtain ⟨m₂, l', hd₂, hun⟩ := hS.destroyEntries_keeps ht hrange
  rw [List.foldlM_cons] at hd₂
  obtain ⟨m₃, hd₃, hd₂⟩ := Option.bind_eq_some_iff.1 hd₂
  obtain rfl := Option.some.inj hd₂
  obtain rfl : m₃ = m₁ := Option.some.inj (hd₃.symm.trans hd)
  have hin' : InOrder m₃.mem { s.tcb i with vme := v' } := by
    refine ⟨hrun, fun v hu hsome => ?_, (hun.shrinks ht).accessible hin.accessible⟩
    have hno : ¬ EntryPage [e] v := by
      intro hv
      rw [hun.gone v (user_vpn_lt hu) hv] at hsome
      cases hsome
    refine ((entryPage_perm hperm).1 (hin.backed v hu ?_)).resolve_left hno
    rw [← hun.other _ ht v (user_vpn_lt hu) fun hh => hno hh.2]
    exact hsome
  refine ⟨hs.set hi rfl ⟨l', hun.spaces⟩ (fun pd hpd _ => hun.shrinks hpd) hin', ?_⟩
  have hthere : ∀ a ∈ addresses e, ((memory s.mem (s.tcb i)).bytes a).isSome = true := by
    intro a ha
    show (if UserAddress a then (s.tcb i).byteAt s.mem a else none).isSome = true
    rw [if_pos (hin.userAddress hmem ha), TCB.byteAt, ((hrun.get_perm a hin.run hperm).1 ha).1]
    cases translate s.mem.mem (s.tcb i).pd (a / frameSize) <;> rfl
  rw [memories_set hi fun j hj hne => hs.memory_other hi hun.keepsPages (fun _ _ hP => hP.1) hj hne,
    hin.memory_unmap hin' ht hperm hun]
  exact .unmap (memories_of_mem hi) hthere

/-- A removal that finds nothing changes nothing. -/
theorem notMapped_eq {p : Nat} {user : Bool} {tm : TCB × PhysMem}
    (hrem : p < 0xF0000000 → ((s.tcb i).vme.removeEntry p user).1 = none)
    (h : (s.tcb i).naiveMunmap s.mem p user = some tm) : s.set i tm = s := by
  rw [TCB.naiveMunmap] at h
  by_cases hp : p < 0xF0000000
  · rw [if_pos hp] at h
    rcases VME.removeEntry_cases (s.tcb i).vme p user with hnone | ⟨e, he, -⟩
    · rw [hnone] at h
      rw [← Option.some.inj h]
      exact set_tcb s i s.mem
    · rw [hrem hp] at he
      cases he
  · rw [if_neg hp] at h
    rw [← Option.some.inj h]
    exact set_tcb s i s.mem

/-- **`execl`** starts over with an empty memory. -/
theorem Sound.exec (hs : Sound s) (hi : i ∈ s.live) (h : (s.tcb i).clearAddrSpace s.mem = some (t', m')) :
    Sound (s.set i (t', m')) ∧ Separate.Step s.memories (.clear i) (s.set i (t', m')).memories := by
  have ht := hs.pd_mem hi
  have hin := hs.inOrder i hi
  obtain ⟨l, hS⟩ := hs.spaces
  obtain ⟨m₁, m₂, l', h₁, h₂, hS', hsh, hnone, hk⟩ := hS.clearSpace ht hin.run.inUserRange
  rw [TCB.clearAddrSpace, h₁] at h
  simp only [Option.bind_eq_bind, Option.bind_some] at h
  rw [h₂] at h
  obtain ⟨rfl, rfl⟩ := Prod.mk.inj (Option.some.inj h)
  refine ⟨hs.set hi rfl ⟨l', hS'⟩ (fun pd hpd _ => hsh pd hpd) (inOrder_of_noUserTables hnone rfl), ?_⟩
  rw [memories_set hi fun j hj hne => hs.memory_other hi hk (fun _ _ hP => hP) hj hne,
    memory_of_noUserTables (t := { s.tcb i with vme := Region.user.init }) hnone rfl]
  exact .clear (memories_of_mem hi)

/-! ## Processes that go -/

/-- Where another's entries are unmapped from a directory, what is written there is lost. -/
theorem InOrder.memory_lose {pds : List Nat} (h : InOrder m.mem t) (ht' : t'.pd ∈ pds)
    (hk : KeepsPages m' m pds fun pd v => pd = t'.pd ∧ EntryPage t.vme.entries v)
    (hgone : ∀ v, isUser (v / 1024) → EntryPage t.vme.entries v → translate m'.mem t'.pd v = none) :
    memory m' t' = (memory m t').lose (memory m t) := by
  refine Separate.Memory.ext rfl (funext fun a => ?_)
  show (if UserAddress a then t'.byteAt m' a else none) =
    if (if UserAddress a then t.content a else none).isSome then if UserAddress a then t'.content a else none
    else if UserAddress a then t'.byteAt m a else none
  by_cases ha : UserAddress a
  · rw [if_pos ha, if_pos ha, if_pos ha, if_pos ha]
    have hpage : EntryPage t.vme.entries (a / frameSize) ↔ (t.content a).isSome = true := by
      rw [h.entryPage_iff, TCB.content, Option.isSome_map]
    by_cases hdead : EntryPage t.vme.entries (a / frameSize)
    · rw [if_pos (hpage.1 hdead), TCB.byteAt, hgone _ ha.isUser hdead]
      rfl
    · rw [if_neg (fun hh => hdead (hpage.2 hh))]
      exact hk.byteAt_eq ht' ha fun hh => hdead hh.2
  · rw [if_neg ha, if_neg ha, if_neg ha, if_neg ha, ite_self]

theorem mem_others {k : Nat} : k ∈ s.live.filter (· ≠ i) ↔ k ∈ s.live ∧ k ≠ i := by
  rw [List.mem_filter, decide_eq_true_eq]

theorem memories_remove {r : Nat} (hr : r ∈ s.live)
    (hother : ∀ k ∈ s.live, k ≠ i → k ≠ r → memory m' (s.tcb k) = memory s.mem (s.tcb k)) :
    ({ s with mem := m', live := s.live.filter (· ≠ i) } : Processes).memories =
      (s.memories.set r (some (memory m' (s.tcb r)))).set i none := by
  funext k
  by_cases hki : k = i
  · rw [hki, Separate.State.set_self, memories_of_not_mem]
    exact fun hh => (mem_others.1 hh).2 rfl
  · rw [Separate.State.set_of_ne _ hki]
    by_cases hkl : k ∈ s.live
    · rw [memories_of_mem (show k ∈ s.live.filter (· ≠ i) from mem_others.2 ⟨hkl, hki⟩)]
      show some (memory m' (s.tcb k)) = _
      by_cases hkr : k = r
      · rw [hkr, Separate.State.set_self]
      · rw [Separate.State.set_of_ne _ hkr, memories_of_mem hkl, hother k hkl hki hkr]
    · have hkr : k ≠ r := fun heq => hkl (heq ▸ hr)
      rw [Separate.State.set_of_ne _ hkr, memories_of_not_mem hkl, memories_of_not_mem]
      exact fun hh => hkl (mem_others.1 hh).1

/-- **Burying a process** costs the one that runs what it wrote where the dead one had entries. -/
theorem Sound.reap {r : Nat} (hs : Sound s) (hr : r ∈ s.live) (hi : i ∈ s.live) (hne : r ≠ i)
    (h : (s.tcb i).destroy s.mem (s.tcb r).pd = some m') :
    Sound { s with mem := m', live := s.live.filter (· ≠ i) } ∧ Separate.Step s.memories (.reap r i)
      ({ s with mem := m', live := s.live.filter (· ≠ i) } : Processes).memories := by
  obtain ⟨l, hS⟩ := hs.spaces
  have hin := hs.inOrder i hi
  generalize hothers : s.globalPageDirectory :: (s.live.filter (· ≠ i)).map (fun k => (s.tcb k).pd) = others
  have hmem : ∀ {k}, k ∈ s.live → k ≠ i → (s.tcb k).pd ∈ others := by
    intro k hk hki
    rw [← hothers]
    exact List.mem_cons_of_mem _ (List.mem_map.2 ⟨k, mem_others.2 ⟨hk, hki⟩, rfl⟩)
  have hglobal : s.globalPageDirectory ∈ others := by
    rw [← hothers]
    exact List.mem_cons_self
  have hpds : ∀ pd ∈ others, pd ∈ s.pds ∧ pd ≠ (s.tcb i).pd := by
    intro pd hpd
    rw [← hothers] at hpd
    rcases List.mem_cons.1 hpd with rfl | hpd
    · exact ⟨global_mem s, (hs.notGlobal i hi).symm⟩
    · obtain ⟨k, hk, rfl⟩ := List.mem_map.1 hpd
      obtain ⟨hk, hki⟩ := mem_others.1 hk
      exact ⟨hs.pd_mem hk, fun heq => hki (hs.apart k hk i hi heq)⟩
  have hS' : Spaces s.mem l ((s.tcb i).pd :: others) := by
    refine hS.subset fun pd hpd => ?_
    rcases List.mem_cons.1 hpd with rfl | hpd
    · exact hs.pd_mem hi
    · exact (hpds pd hpd).1
  obtain ⟨l', hspaces, hsh, hk, hgone⟩ := hS'.destroy_keeps (fun hpd => (hpds _ hpd).2 rfl) (hmem hr hne)
    hin.run.inUserRange h
  refine ⟨⟨⟨l', ?_⟩, fun k hk k' hk' => ?_, fun k hk => ?_, ?_, fun k hk => ?_⟩, ?_⟩
  · rw [← hothers] at hspaces
    exact hspaces
  · exact hs.apart k (mem_others.1 hk).1 k' (mem_others.1 hk').1
  · exact hs.notGlobal k (mem_others.1 hk).1
  · exact (hsh _ hglobal).noUserTables hs.noTables
  · obtain ⟨hk, hki⟩ := mem_others.1 hk
    exact (hs.inOrder k hk).shrinks (hsh _ (hmem hk hki))
  · have hbytes : ∀ k ∈ s.live, k ≠ i → k ≠ r → memory m' (s.tcb k) = memory s.mem (s.tcb k) := by
      intro k hk' hki hkr
      refine memory_congr fun a ha => hk.byteAt_eq (hmem hk' hki) ha fun hh => hkr ?_
      exact hs.apart k hk' r hr hh.1
    have hstep := Separate.Step.reap (memories_of_mem hr) (memories_of_mem hi) hne
    rw [← hin.memory_lose (hmem hr hne) hk hgone] at hstep
    rw [memories_remove hr hbytes]
    exact hstep

/-! ## Runs -/

/-- **Every step** keeps the invariant, and is a step of separate memories. -/
theorem step_refines {x : Act} (hs : Sound s) (h : Step s x s') :
    Sound s' ∧ Separate.Step s.memories x s'.memories := by
  cases h with
  | load hi hva hal => exact ⟨hs, hs.load hi hva hal⟩
  | store hi hva hal hacc => exact hs.store hi hva hal hacc
  | fault hi hva hal hacc =>
    obtain ⟨hs', hsame⟩ := hs.fault hi hva hal hacc
    refine ⟨hs', ?_⟩
    rw [hsame]
    exact .tau _
  | spawn hj hnew => exact hs.spawn hj hnew
  | fork hi hj hfork => exact hs.fork hi hj hfork
  | mmap hi hsize hfit hmap hva => exact hs.mmap hi hsize hfit hmap hva
  | refused hi _ _ hmap =>
    rw [hs.refused hi hmap]
    exact ⟨hs, .tau _⟩
  | munmap hi hp hrem hun => exact hs.munmap hi hp hrem hun
  | notMapped _ hrem hun =>
    rw [notMapped_eq hrem hun]
    exact ⟨hs, .tau _⟩
  | exec hi hclear => exact hs.exec hi hclear
  | reap hr hi hne hdestroy => exact hs.reap hr hi hne hdestroy

/-- The machine as the kernel leaves it before there are threads: a global directory without user tables. -/
structure Booted (s : Processes) : Prop where
  spaces : ∃ l, Spaces s.mem l [s.globalPageDirectory]
  noTables : NoUserTables s.mem.mem s.globalPageDirectory
  nobody : s.live = []

theorem Booted.sound (h : Booted s) : Sound s := by
  have hpds : s.pds = [s.globalPageDirectory] := by
    rw [pds, h.nobody, List.map_nil]
  have hno : ∀ {i}, i ∈ s.live → False := by
    intro i hi
    rw [h.nobody] at hi
    cases hi
  refine ⟨?_, fun i hi => (hno hi).elim, fun i hi => (hno hi).elim, h.noTables, fun i hi => (hno hi).elim⟩
  rw [hpds]
  exact h.spaces

theorem Booted.memories_eq (h : Booted s) : s.memories = fun _ => none := by
  funext i
  rw [memories_of_not_mem]
  rw [h.nobody]
  exact List.not_mem_nil

/-- States of the machine in any run. -/
def Reachable (s : Processes) : Prop := ∃ s₀ xs, Booted s₀ ∧ Runs.Path Step s₀ xs s

/-- **The invariant holds in every state.** -/
theorem Reachable.sound (h : Reachable s) : Sound s := by
  obtain ⟨s₀, xs, hboot, hpath⟩ := h
  exact hpath.invariant (fun s x t hs hstep => (step_refines hs hstep).1) hboot.sound

/-- A run from a state in order is a run of separate memories. -/
theorem Sound.path {xs : List Act} (hs : Sound s) (h : Runs.Path Step s xs s') :
    Runs.Path Separate.Step s.memories xs s'.memories := by
  have hkeep : ∀ s x t, Sound s → Step s x t → Sound t := fun _ _ _ hs hstep => (step_refines hs hstep).1
  exact h.image hkeep (fun _ _ _ hs hstep => (step_refines hs hstep).2) hs

/-! ## A process with a page -/

/-- A machine that has booted, with free frames. -/
theorem exists_booted : ∃ s : Processes, Booted s ∧ ∃ l, Spaces s.mem l s.pds ∧ 5 ≤ freeFrames s.mem l := by
  obtain ⟨m₀, -, havail, hlimit, hP⟩ := Pool.init
    (show 0x1000 % frameSize = 0 by decide) (show 0x7FFFF000 % frameSize = 0 by decide) (by decide)
    (by decide) fun _ => 0
  have hfree₀ : freeFrames m₀ [] = 524287 := by
    rw [freeFrames, havail, hlimit]
    decide
  obtain ⟨g, m₁, l₁, -, ha⟩ := hP.alloc (by omega)
  have hfree₁ := ha.count
  have h₁ := hP.spaces.blankDir ha
  refine ⟨⟨m₁, g, [], fun _ => ⟨0, Region.user.init⟩⟩, ⟨⟨l₁, h₁.spaces⟩, h₁.noTables, rfl⟩, l₁, h₁.spaces, ?_⟩
  show 5 ≤ freeFrames m₁ l₁
  omega

/-- A new `VME` grants a page, at its start. -/
theorem init_grants : (Region.user.init : VME BlockIo).NoWrap 4096 ∧
    ((Region.user.init : VME BlockIo).addEntry 4096 none 0 true).1 = 0x80000000 :=
  ⟨⟨by decide, Or.inr ⟨by decide, fun _ => by decide⟩⟩, by decide +kernel⟩

/-- A process is started and maps a page. -/
theorem exists_mapped : ∃ (s₀ s : Processes) (xs : List Act), Booted s₀ ∧ Runs.Path Step s₀ xs s ∧ xs ≠ [] ∧
    0 ∈ s.live ∧ (s.tcb 0).byteAt s.mem 0x80000000 = some 0 ∧ 1 ∉ s.live ∧
      ∃ l, Spaces s.mem l s.pds ∧ 4 ≤ freeFrames s.mem l := by
  obtain ⟨s₀, hboot, l₀, hS₀, hl₀⟩ := exists_booted
  obtain ⟨a, ha⟩ : ∃ a, a = 0x80000000 := ⟨_, rfl⟩
  rw [← ha]
  have hnobody : 0 ∉ s₀.live := by
    rw [hboot.nobody]
    exact List.not_mem_nil
  obtain ⟨⟨p, m₁⟩, n, hnew, hn, l₁, rfl, hop⟩ :=
    (hS₀.newPageDirectory (global_mem s₀) hboot.noTables).exists_some (by omega)
  have hcreate : TCB.create s₀.mem s₀.globalPageDirectory = some (⟨p, Region.user.init⟩, m₁) := by
    rw [TCB.create, hnew]
    rfl
  have hspawn : Step s₀ (.spawn 0) (s₀.add 0 (⟨p, Region.user.init⟩, m₁)) := .spawn hnobody hcreate
  generalize hs₁ : s₀.add 0 (⟨p, Region.user.init⟩, m₁) = s₁ at hspawn
  have hlive : s₁.live = [0] := by
    rw [← hs₁]
    show 0 :: s₀.live = [0]
    rw [hboot.nobody]
  have htcb : s₁.tcb 0 = ⟨p, Region.user.init⟩ := by
    rw [← hs₁]
    exact Function.update_self 0 _ s₀.tcb
  have hmem : s₁.mem = m₁ := by rw [← hs₁]; rfl
  have hin : 0 ∈ s₁.live := by
    rw [hlive]
    exact List.mem_cons_self
  have hsound := (step_refines hboot.sound hspawn).1
  have hfits : (s₁.tcb 0).vme.NoWrap 4096 := by
    rw [htcb]
    exact init_grants.1
  have haddr : ((s₁.tcb 0).naiveMmap 4096 none 0 true).1 = a := by
    rw [htcb, ha]
    exact init_grants.2
  obtain ⟨t, ht⟩ : ∃ t, (s₁.tcb 0).naiveMmap 4096 none 0 true = (a, t) := ⟨_, Prod.ext haddr rfl⟩
  have htpd : t.pd = p := by
    rw [← (Prod.mk.inj ht).2, htcb]
  have hmap := Step.mmap hin (by decide) hfits ht (by rw [ha]; decide)
  obtain ⟨-, hsim⟩ := step_refines hsound hmap
  have hlive₂ : 0 ∈ (s₁.set 0 (t, s₁.mem)).live := hin
  refine ⟨s₀, _, _, hboot, .cons hspawn (.single hmap), List.cons_ne_nil _ _, hlive₂, ?_, ?_, l₁, ?_, ?_⟩
  · have hself : (s₁.set 0 (t, s₁.mem)).memories 0 = some (memory s₁.mem ((s₁.set 0 (t, s₁.mem)).tcb 0)) :=
      memories_of_mem hlive₂
    generalize (s₁.set 0 (t, s₁.mem)).memories = M at hsim hself
    cases hsim with
    | map c h0 hfree =>
      rw [Separate.State.set_self] at hself
      have hbytes := congrArg (fun M => M.bytes a) (Option.some.inj hself)
      have hpos : 0 < VME.requiredPages 4096 * frameSize := by decide +kernel
      have hmem : a ∈ addresses ⟨a, VME.requiredPages 4096, 4096, none, 0, true⟩ :=
        ⟨Nat.le_refl a, Nat.lt_add_of_pos_right hpos⟩
      have hua : UserAddress a := by
        rw [ha]
        exact ⟨Nat.le_refl _, by decide⟩
      have hif : some (0 : UInt8) = if UserAddress a then
          ((s₁.set 0 (t, s₁.mem)).tcb 0).byteAt s₁.mem a else none :=
        (Separate.Memory.map_of_mem hmem).2.symm.trans hbytes
      rw [if_pos hua] at hif
      exact hif.symm
  · show 1 ∉ s₁.live
    rw [hlive]
    decide
  · refine (hmem ▸ hop.spaces).subset fun pd hpd => ?_
    rcases List.mem_cons.1 hpd with rfl | hpd
    · rw [← hs₁]
      exact List.mem_cons_of_mem _ (global_mem s₀)
    · obtain ⟨k, hk, rfl⟩ := List.mem_map.1 hpd
      have hk0 : k = 0 := List.mem_singleton.1 (hlive ▸ hk)
      rw [hk0]
      show (Function.update s₁.tcb 0 t 0).pd ∈ _
      rw [Function.update_self, htpd]
      exact List.mem_cons_self
  · show 4 ≤ freeFrames s₁.mem l₁
    rw [hmem]
    simp only at hn
    omega

/-! ## Separate memories -/

/-- **Page tables give every process a memory of its own**: every run of the machine is, step by step and
    with the same values read, a run of processes with separate memories, and at its end each process has the
    memory that it has there. -/
theorem memories_refine {s₀ : Processes} {xs : List Act} (hboot : Booted s₀) (h : Runs.Path Step s₀ xs s) :
    Runs.Path Separate.Step (fun _ => none) xs s.memories := by
  rw [← hboot.memories_eq]
  exact hboot.sound.path h

/-- A run in which a process is started and maps a page. -/
theorem memories_refine_mapped : ∃ (s₀ s : Processes) (xs : List Act), Booted s₀ ∧ xs ≠ [] ∧
    Runs.Path Step s₀ xs s ∧ Runs.Path Separate.Step (fun _ => none) xs s.memories := by
  obtain ⟨s₀, s, xs, hboot, hpath, hne, -⟩ := exists_mapped
  exact ⟨s₀, s, xs, hboot, hne, hpath, memories_refine hboot hpath⟩

/-- **What a process reads depends on its own memory and requests only**: two runs of the machine in which
    process `i` has the same memory at the start, is there all the time, buries nobody and asks the same give
    it the same answers and leave it with the same memory, whatever the other processes do. -/
theorem reads_determined {s₁ s₂ t₁ t₂ : Processes} {xs ys : List Act} (h₁ : Reachable s₁) (h₂ : Reachable s₂)
    (i : Nat) (hsame : s₁.memories i = s₂.memories i) (hx : Runs.Path Step s₁ xs t₁)
    (hy : Runs.Path Step s₂ ys t₂) (hxs : ∀ x ∈ xs, x.Undisturbed i) (hys : ∀ y ∈ ys, y.Undisturbed i)
    (hasks : List.Forall₂ Separate.Act.Asks (xs.filter (Separate.Act.by i)) (ys.filter (Separate.Act.by i))) :
    xs.filter (Separate.Act.by i) = ys.filter (Separate.Act.by i) ∧ t₁.memories i = t₂.memories i :=
  Separate.determined (h₁.sound.path hx) (h₂.sound.path hy) hsame hxs hys hasks

/-- A process beside which another one is started, or not. -/
theorem reads_determined_spawn : ∃ (s t : Processes), Runs.Path Step s [.spawn 1] t ∧ 0 ∈ s.live ∧
    t.memories 0 = s.memories 0 := by
  obtain ⟨s₀, s, xs, hboot, hpath, -, h0, -, h1, l, hS, hl⟩ := exists_mapped
  have hr : Reachable s := ⟨s₀, xs, hboot, hpath⟩
  obtain ⟨⟨p, m⟩, n, hnew, -⟩ :=
    (hS.newPageDirectory (global_mem s) hr.sound.noTables).exists_some (by omega)
  have hcreate : TCB.create s.mem s.globalPageDirectory = some (⟨p, Region.user.init⟩, m) := by
    rw [TCB.create, hnew]
    rfl
  have hspawn : Runs.Path Step s [.spawn 1] _ := .single (.spawn h1 hcreate)
  refine ⟨s, _, hspawn, h0, (reads_determined hr hr 0 rfl hspawn (.nil s) ?_ ?_ ?_).2⟩
  · intro x hx
    rw [List.mem_singleton.1 hx]
    exact ⟨fun heq => absurd (Option.some.inj heq) (by decide), fun _ h => by cases h⟩
  · intro x hx
    cases hx
  · exact .nil

/-! ## Accesses complete -/

/-- A read of a page that is mapped. -/
theorem Sound.load_now (hs : Sound s) (hi : i ∈ s.live) (hva : UserAddress va) {b : UInt8}
    (htr : (translate s.mem.mem (s.tcb i).pd (va / frameSize)).isSome = true)
    (hb : (s.tcb i).byteAt s.mem va = some b) : Step s (.load i va b) s := by
  have hal := ((hs.inOrder i hi).accessible.allowed_iff hva.isUser false).2 htr
  rw [TCB.byteAt, TCB.translate_of_allowed hal] at hb
  rw [← Option.some.inj hb]
  exact .load hi hva hal

/-- A write to a page that is mapped. -/
theorem Sound.store_now (hs : Sound s) (hi : i ∈ s.live) (hva : UserAddress va) (b : UInt8)
    (htr : (translate s.mem.mem (s.tcb i).pd (va / frameSize)).isSome = true) :
    ∃ s', Step s (.store i va b) s' := by
  have hal := ((hs.inOrder i hi).accessible.allowed_iff hva.isUser true).2 htr
  obtain ⟨m', hacc⟩ : ∃ m', (s.tcb i).access s.mem Region.user.init va (some b) = some m' := by
    rw [TCB.access, Option.isSome_some, if_pos hal]
    exact ⟨_, rfl⟩
  exact ⟨_, .store hi hva hal hacc⟩

/-- A page fault at an address of an entry, if there are frames for the page and for its table. -/
theorem Sound.fault_now (hs : Sound s) (hi : i ∈ s.live) (hva : UserAddress va) {b : UInt8}
    (htr : translate s.mem.mem (s.tcb i).pd (va / frameSize) = none)
    (hb : (s.tcb i).byteAt s.mem va = some b)
    (hfree : ∃ l, Spaces s.mem l s.pds ∧ 2 ≤ freeFrames s.mem l) (access : Option UInt8) :
    ∃ m', Step s (.tau i) { s with mem := m' } ∧
      (translate m'.mem (s.tcb i).pd (va / frameSize)).isSome = true := by
  obtain ⟨l, hS, hl⟩ := hfree
  have ht := hs.pd_mem hi
  rw [TCB.byteAt, htr] at hb
  obtain ⟨e, hget, -⟩ := Option.map_eq_some_iff.1 hb
  obtain ⟨m', n, hf, -, l', w, -, hins⟩ :=
    (hS.pageFault ht hva hget Region.user.init).exists_some (by split <;> omega)
  have hal : TCB.allowed s.mem.mem (s.tcb i).pd (va / frameSize) access.isSome = false := by
    rw [← Bool.not_eq_true, (hs.inOrder i hi).accessible.allowed_iff hva.isUser, htr]
    decide
  have hacc : (s.tcb i).access s.mem Region.user.init va access = some m' := by
    unfold TCB.access
    rw [if_neg (by rw [hal]; decide)]
    exact hf
  refine ⟨m', .fault hi hva hal hacc, ?_⟩
  rw [hins.here]
  rfl

/-- **Accesses complete**: where a process has a byte it can read that byte and write another one, after one
    page fault at most, if two frames are free. -/
theorem access_completes (hr : Reachable s) (hi : i ∈ s.live) (hva : UserAddress va) {b : UInt8}
    (hb : (s.tcb i).byteAt s.mem va = some b)
    (hfree : ∃ l, Spaces s.mem l s.pds ∧ 2 ≤ freeFrames s.mem l) (c : UInt8) :
    (∃ s', Runs.Path Step s [.load i va b] s' ∨ Runs.Path Step s [.tau i, .load i va b] s') ∧
      ∃ s', Runs.Path Step s [.store i va c] s' ∨ Runs.Path Step s [.tau i, .store i va c] s' := by
  have hs := hr.sound
  cases htr : translate s.mem.mem (s.tcb i).pd (va / frameSize) with
  | some w =>
    have hsome : (translate s.mem.mem (s.tcb i).pd (va / frameSize)).isSome = true := by
      rw [htr]
      rfl
    obtain ⟨s', hstore⟩ := hs.store_now hi hva c hsome
    exact ⟨⟨s, Or.inl (.single (hs.load_now hi hva hsome hb))⟩, s', Or.inl (.single hstore)⟩
  | none =>
    have hafter : ∀ {m'}, Step s (.tau i) { s with mem := m' } →
        Sound { s with mem := m' } ∧ (s.tcb i).byteAt m' va = some b := by
      intro m' hstep
      obtain ⟨hs', hsim⟩ := step_refines hs hstep
      refine ⟨hs', ?_⟩
      generalize hm : ({ s with mem := m' } : Processes).memories = M at hsim
      cases hsim
      have hself := congrFun hm i
      have hi' : i ∈ ({ s with mem := m' } : Processes).live := hi
      rw [memories_of_mem hi, memories_of_mem hi'] at hself
      have hbytes := congrArg (fun M => M.bytes va) (Option.some.inj hself)
      have hif : (if UserAddress va then (s.tcb i).byteAt m' va else none) =
        if UserAddress va then (s.tcb i).byteAt s.mem va else none := hbytes
      rw [if_pos hva, if_pos hva] at hif
      rw [hif, hb]
    constructor
    · obtain ⟨m', hfault, hsome⟩ := hs.fault_now hi hva htr hb hfree none
      obtain ⟨hs', hb'⟩ := hafter hfault
      have hload : Step _ (.load i va b) _ := hs'.load_now hi hva hsome hb'
      exact ⟨_, Or.inr (.cons hfault (.single hload))⟩
    · obtain ⟨m', hfault, hsome⟩ := hs.fault_now hi hva htr hb hfree (some c)
      obtain ⟨hs', -⟩ := hafter hfault
      obtain ⟨s', hstore⟩ : ∃ s', Step _ (.store i va c) s' := hs'.store_now hi hva c hsome
      exact ⟨s', Or.inr (.cons hfault (.single hstore))⟩

/-- The page that was mapped can be read. -/
theorem access_completes_mapped : ∃ s : Processes, 0 ∈ s.live ∧
    ∃ s', Runs.Path Step s [.load 0 0x80000000 0] s' ∨ Runs.Path Step s [.tau 0, .load 0 0x80000000 0] s' := by
  obtain ⟨s₀, s, xs, hboot, hpath, -, h0, hb, -, l, hS, hl⟩ := exists_mapped
  have hva : UserAddress 0x80000000 := ⟨Nat.le_refl _, by decide⟩
  exact ⟨s, h0, (access_completes ⟨s₀, xs, hboot, hpath⟩ h0 hva hb ⟨l, hS, by omega⟩ 0).1⟩

end Processes

end BadApple
