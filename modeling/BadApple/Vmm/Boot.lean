/-
  The page directory that the kernel starts with (kernel/init.cc, kernel/vmm.cc).

  1. **Model** — `globalInit`: physical memory is mapped to itself except for its first page, the tables of
     the shared region are made, and the two APIC pages are mapped to themselves.
  2. **Invariant** — `KernelDir`: which tables the directory has, all frames of their own, and its map.  A
     table costs a frame; the pages do not, since they are there.
  3. **Costs** — one frame for each 4 MiB of physical memory, 64 for the shared region, one for the directory.
  4. **The result** — `boot_iff`: with 1603 pages of memory or more, and not otherwise, the directory is made;
     then the machine of processes has booted, and the shared region starts with the two APIC pages.
-/
import BadApple.Vmm.Frames
import BadApple.Vmm.Mappings
import BadApple.Vmm.Processes
import BadApple.Vmm.SharedPages

namespace BadApple

open Memory
open Function (update)

/-! ## Model -/

namespace PhysMem

/-- The first and the number of directory entries of the shared region `[0xF0000000, 0xFFFFFFFF]`. -/
def sharedPDI : Nat := 0xF0000000 / 0x400000
def sharedPDIs : Nat := 0xFFFFFFFF / 0x400000 + 1 - sharedPDI

/-- `ppn`. -/
def ppn (pa : Nat) : Nat := pa / frameSize

/-- `global_init`, up to the shared `VME`: the directory. -/
def globalInit (m : PhysMem) (memSize ioAPIC localAPIC : Nat) : Option (Nat × PhysMem) := do
  let (pd, m) ← m.allocFrame
  let numIdentityMaps := memSize / frameSize
  let m ← (List.range' 1 (numIdentityMaps - 1)).foldlM (fun m i => m.addMapping pd i i true false false) m
  let m ← (List.range' sharedPDI sharedPDIs).foldlM (fun m i => m.addPTMapping pd i true true true) m
  let m ← m.addMapping pd (ppn ioAPIC) (ppn ioAPIC) true false true
  let m ← m.addMapping pd (ppn localAPIC) (ppn localAPIC) true false true
  some (pd, m)

/-- `VMM_FRAMES`: the end of the kernel's heap. -/
def vmmFrames : Nat := 6 * 1024 * 1024

/-- `PhysMem::init` and `VMM::global_init` in `kernelInit`, on memory as it is then. -/
def boot (mem : Mem) (memSize ioAPIC localAPIC : Nat) : Option (Nat × PhysMem) := do
  let m ← PhysMem.init mem vmmFrames (u32 (memSize + 4294967296 - vmmFrames))
  m.globalInit memSize ioAPIC localAPIC

end PhysMem

/-- **The map of the kernel**: frame number and flags of a page. -/
def kernelMap (memSize ioAPIC localAPIC : Nat) (v : Nat) : Option (Nat × Nat) :=
  if 0 < v ∧ v < memSize / frameSize then some (v, flagBits true false false)
  else if v = PhysMem.ppn ioAPIC ∨ v = PhysMem.ppn localAPIC then some (v, flagBits true false true)
  else none

variable {m m' m₁ : PhysMem} {mem : Mem} {l l' : List Nat}
  {f p pd i j k n v ppn top memSize ioAPIC localAPIC : Nat}
  {has : Nat → Prop} {map map' : Nat → Option (Nat × Nat)}

/-! ## Invariant -/

/-- **A directory without user tables**: `has` says which tables there are, and `map` is its map. -/
structure KernelDir (top : Nat) (m : PhysMem) (l : List Nat) (pd : Nat) (has : Nat → Prop)
    (map : Nat → Option (Nat × Nat)) : Prop where
  pool : Pool m l
  limit : m.limit = top
  dir : InUse m l pd
  table : ∀ i, i < 1024 → present (entry m.mem pd i) →
    InUse m l (frameOf (entry m.mem pd i)) ∧ frameOf (entry m.mem pd i) ≠ pd
  single : ∀ i j, i < 1024 → j < 1024 → present (entry m.mem pd i) → present (entry m.mem pd j) →
    frameOf (entry m.mem pd i) = frameOf (entry m.mem pd j) → i = j
  tables : ∀ i, i < 1024 → (present (entry m.mem pd i) ↔ has i)
  map : ∀ v, v < pages → pageMap m.mem pd v = map v

/-- The end of memory stays where it is. -/
theorem allocFrame_limit (ha : m.allocFrame = some (p, m')) : m'.limit = m.limit := by
  unfold PhysMem.allocFrame at ha
  simp only at ha
  by_cases hfirst : m.firstFree ≠ 0
  · rw [if_pos hfirst] at ha
    simp only [Option.ite_none_right_eq_some, Option.some.injEq, Prod.mk.injEq] at ha
    rw [← ha.2.2]
  · rw [if_neg hfirst] at ha
    by_cases hend : m.avail = m.limit
    · rw [if_pos hend] at ha
      cases ha
    · rw [if_neg hend] at ha
      simp only [Option.ite_none_right_eq_some, Option.some.injEq, Prod.mk.injEq] at ha
      rw [← ha.2.2]

namespace KernelDir

theorem tree (h : KernelDir top m l pd has map) : Tree m.mem [pd] := by
  refine ⟨fun q hq => ?_, fun q hq => ?_, fun q hq i hi hp => ?_, fun q hq q' hq' i j hi hj hp hp' heq => ?_⟩
  · rw [List.mem_singleton.1 hq]
    exact h.dir.aligned
  · rw [List.mem_singleton.1 hq]
    exact h.dir.pos
  · rw [List.mem_singleton.1 hq] at hp ⊢
    rw [List.mem_singleton]
    exact (h.table i hi hp).2
  · rw [List.mem_singleton.1 hq] at hp heq
    rw [List.mem_singleton.1 hq'] at hp' heq
    exact h.single i j hi hj hp hp' heq

/-- The directory and its tables are in use, -/
theorem isTable (h : KernelDir top m l pd has map) (hf : IsTable m.mem [pd] f) : InUse m l f := by
  obtain ⟨q, hq, rfl | ⟨i, hi, hp, rfl⟩⟩ := hf
  · rw [List.mem_singleton.1 hq]
    exact h.dir
  · rw [List.mem_singleton.1 hq] at hp ⊢
    exact (h.table i hi hp).1

/-- so that a new frame is none of them. -/
theorem fresh (h : KernelDir top m l pd has map) : Dirs.Fresh ⟨m, pd, [pd]⟩ := by
  intro p m' ha
  obtain ⟨-, -, l', -, halloc⟩ := h.pool.alloc_paid.of_some ha
  exact ⟨halloc.pos, halloc.lt, fun ht => halloc.fresh (h.isTable ht)⟩

theorem inv (h : KernelDir top m l pd has map) : Dirs.Inv ⟨m, pd, [pd]⟩ := ⟨h.tree, List.mem_singleton.2 rfl⟩

/-- Only the tables and the map matter. -/
theorem congr {has' : Nat → Prop} (h : KernelDir top m l pd has map) (hhas : ∀ i, i < 1024 → (has i ↔ has' i))
    (hmap : ∀ v, v < pages → map v = map' v) : KernelDir top m l pd has' map' :=
  ⟨h.pool, h.limit, h.dir, h.table, h.single, fun i hi => (h.tables i hi).trans (hhas i hi),
    fun v hv => (h.map v hv).trans (hmap v hv)⟩

/-- **A new frame becomes a table.** -/
theorem linkTable {w : Nat} (h : KernelDir top m l pd has map) (ha : m.allocFrame = some (p, m₁))
    (halloc : Allocated m l p m₁ l') (hi : i < 1024) (hno : ¬ has i) (hw : w < frameSize) (hwp : present w) :
    KernelDir top (m₁.setEntry pd i (w ||| p)) l' pd (fun k => has k ∨ k = i) map := by
  have hpd : pd ∈ [pd] := List.mem_singleton.2 rfl
  obtain ⟨-, -, -, hnot, hT, hview, hzero⟩ := h.inv.alloc h.fresh ha
  have hold : ∀ k, k < 1024 → entry m₁.mem pd k = entry m.mem pd k := fun k hk => hview.dirs pd hpd k hk
  have hnew : ¬ present (entry m₁.mem pd i) := by
    rw [hold i hi, h.tables i hi]
    exact hno
  obtain ⟨hT', hentry, htrans⟩ := hT.setPde hpd hi hnew hnot halloc.aligned halloc.lt hzero hw
  obtain ⟨hframe, -, hpres⟩ := entry_parts hw halloc.aligned
  have hdir : InUse m₁ l' pd := halloc.stays h.dir
  have hother : ∀ k, k < 1024 → k ≠ i → entry (m₁.setEntry pd i (w ||| p)).mem pd k = entry m.mem pd k := by
    intro k hk hne
    rw [PhysMem.entry_setEntry_of_ne hdir.aligned hdir.aligned hi hk (Or.inr hne), hold k hk]
  refine ⟨halloc.pool.setEntry hdir hi _, (allocFrame_limit ha).trans h.limit, hdir.congr rfl,
    fun k hk hp => ?_, fun k k' hk hk' hp hp' heq => hT'.single pd hpd pd hpd k k' hk hk' hp hp' heq,
    fun k hk => ?_, fun v hv => ?_⟩
  · by_cases hki : k = i
    · rw [hki, hentry, hframe]
      exact ⟨((halloc.inUse p).2 (Or.inr rfl)).congr rfl, Ne.symm (halloc.ne h.dir)⟩
    · rw [hother k hk hki] at hp ⊢
      obtain ⟨huse, hne⟩ := h.table k hk hp
      exact ⟨(halloc.stays huse).congr rfl, hne⟩
  · by_cases hki : k = i
    · rw [hki, hentry, hpres]
      exact iff_of_true hwp (Or.inr rfl)
    · rw [hother k hk hki, h.tables k hk]
      exact ⟨Or.inl, fun hk => hk.resolve_right hki⟩
  · have hmap := h.map v hv
    unfold pageMap at hmap ⊢
    rw [htrans pd hpd v hv, hview.translate_eq hpd hv]
    exact hmap

/-- **A table** costs a frame if it is new. -/
theorem addPTMapping (h : KernelDir top m l pd has map) (hi : i < 1024) (global write userMode : Bool) {c : Nat}
    (hcost : (has i ∧ c = 0) ∨ (¬ has i ∧ c = 1)) :
    Runs.Paid (freeFrames m l) c (m.addPTMapping pd i global write userMode) fun m' n =>
      ∃ l', freeFrames m' l' = n ∧ KernelDir top m' l' pd (fun k => has k ∨ k = i) map := by
  rw [PhysMem.addPTMapping]
  rcases hcost with ⟨hhas, rfl⟩ | ⟨hno, rfl⟩
  · rw [if_pos ((h.tables i hi).2 hhas)]
    refine Runs.Paid.pure ⟨l, rfl, h.congr (fun k _ => ⟨Or.inl, ?_⟩) fun _ _ => rfl⟩
    rintro (hk | rfl)
    · exact hk
    · exact hhas
  · rw [if_neg fun hp => hno ((h.tables i hi).1 hp)]
    rcases h.pool.alloc_paid with ⟨⟨p, m₁⟩, n, ha, hn, l₁, rfl, halloc⟩ | ⟨hlt, hnone⟩
    · rw [ha]
      refine Or.inl ⟨_, _, rfl, hn, l₁, rfl, h.linkTable ha halloc hi hno (flagsOf_lt _) ?_⟩
      rw [present_flagsOf]
      exact present_or (flagBits_parts global write userMode).2 _
    · rw [hnone]
      exact Or.inr ⟨hlt, rfl⟩

/-- **An entry of a table** is one page of the map. -/
theorem setPte (h : KernelDir top m l pd has map) (hv : v < pages) (hppn : ppn < pages) (hhas : has (v / 1024))
    (global write userMode : Bool) :
    KernelDir top (m.setEntry (frameOf (entry m.mem pd (v / 1024))) (v % 1024)
      (flagBits global write userMode ||| u32 (ppn * frameSize))) l pd has
      (update map v (some (ppn, flagBits global write userMode))) := by
  have hpd : pd ∈ [pd] := List.mem_singleton.2 rfl
  have hlt := vpn_lt hv
  have hp := (h.tables _ hlt).2 hhas
  have hj : v % 1024 < 1024 := Nat.mod_lt _ (by decide)
  obtain ⟨hbits, hpres⟩ := flagBits_parts global write userMode
  obtain ⟨hdiv, hflags, hpresent, hword⟩ := entry_ppn hppn hbits
  obtain ⟨hdirs, hother, hhere⟩ := h.tree.setPte hpd hlt hp hj hword
  rw [show 1024 * (v / 1024) + v % 1024 = v by omega] at hother hhere
  rw [if_pos (hpresent.2 hpres)] at hhere
  have hdirs := hdirs pd hpd
  refine ⟨h.pool.setEntry (h.table _ hlt hp).1 hj _, h.limit, h.dir.congr rfl, fun k hk hpk => ?_,
    fun k k' hk hk' hpk hpk' heq => ?_, fun k hk => ?_, fun u hu => ?_⟩
  · rw [hdirs k hk] at hpk ⊢
    exact ⟨(h.table k hk hpk).1.congr rfl, (h.table k hk hpk).2⟩
  · rw [hdirs k hk] at hpk heq
    rw [hdirs k' hk'] at hpk' heq
    exact h.single k k' hk hk' hpk hpk' heq
  · rw [hdirs k hk]
    exact h.tables k hk
  · unfold pageMap
    by_cases huv : u = v
    · rw [huv, Function.update_self, hhere, Option.map_some, hdiv, hflags]
    · rw [Function.update_of_ne huv, hother pd hpd u hu huv]
      exact h.map u hu

/-- **`add_mapping`** costs a frame if it needs a new table. -/
theorem addMapping (h : KernelDir top m l pd has map) (hv : v < pages) (hppn : ppn < pages)
    (global write userMode : Bool) {c : Nat} (hcost : (has (v / 1024) ∧ c = 0) ∨ (¬ has (v / 1024) ∧ c = 1)) :
    Runs.Paid (freeFrames m l) c (m.addMapping pd v ppn global write userMode) fun m' n =>
      ∃ l', freeFrames m' l' = n ∧ KernelDir top m' l' pd (fun k => has k ∨ k = v / 1024)
        (update map v (some (ppn, flagBits global write userMode))) := by
  rw [h.fresh.addMapping_eq, Option.map_eq_bind]
  refine (h.addPTMapping (vpn_lt hv) global write userMode hcost).bind_some ?_
  rintro m₁ _ ⟨l₁, rfl, h₁⟩
  exact ⟨l₁, rfl, h₁.setPte hv hppn (Or.inr rfl) global write userMode⟩

end KernelDir

/-! ## The loops -/

/-- How many tables the first `n` pages after page 0 need. -/
def tablesFor (n : Nat) : Nat := if n = 0 then 0 else n / 1024 + 1

theorem tablesFor_succ (n : Nat) : tablesFor (n + 1) = (n + 1) / 1024 + 1 := if_neg (Nat.succ_ne_zero n)

theorem tablesFor_mono (n : Nat) : tablesFor n ≤ tablesFor (n + 1) := by
  rw [tablesFor_succ, tablesFor]
  by_cases hn : n = 0
  · rw [if_pos hn]
    omega
  · rw [if_neg hn]
    omega

/-- The identity map of the first `n` pages after page 0. -/
def identityMap (n : Nat) (v : Nat) : Option (Nat × Nat) :=
  if 0 < v ∧ v ≤ n then some (v, flagBits true false false) else none

/-- **An empty directory.** -/
theorem Allocated.kernelDir (ha : Allocated m l pd m' l') (hlimit : m'.limit = top) :
    KernelDir top m' l' pd (fun _ => False) (identityMap 0) := by
  have hno : ∀ i, i < 1024 → ¬ present (entry m'.mem pd i) := by
    intro i hi
    rw [ha.entry_zero hi]
    exact not_present_zero
  refine ⟨ha.pool, hlimit, (ha.inUse pd).2 (Or.inr rfl), fun i hi hp => absurd hp (hno i hi),
    fun i _ hi _ hp _ _ => absurd hp (hno i hi), fun i hi => iff_of_false (hno i hi) id, fun v hv => ?_⟩
  unfold pageMap identityMap
  rw [if_neg (by omega), translate, if_neg fun hh => hno _ (vpn_lt hv) hh.1]
  rfl

/-- **Physical memory is mapped to itself**, page by page. -/
theorem KernelDir.identity (h : KernelDir top m l pd (fun _ => False) (identityMap 0)) (hn : n < pages) :
    Runs.Paid (freeFrames m l) (tablesFor n)
      ((List.range' 1 n).foldlM (fun m i => m.addMapping pd i i true false false) m) fun m' b =>
        ∃ l', freeFrames m' l' = b ∧
          KernelDir top m' l' pd (fun k => 0 < n ∧ k ≤ n / 1024) (identityMap n) := by
  refine Runs.Paid.range (c := tablesFor) (I := fun n m' b => ∃ l', freeFrames m' l' = b ∧
    KernelDir top m' l' pd (fun k => 0 < n ∧ k ≤ n / 1024) (identityMap n)) rfl tablesFor_mono ?_
    ⟨l, rfl, h.congr (fun k _ => iff_of_false id fun hk => absurd hk.1 (Nat.lt_irrefl 0)) fun _ _ => rfl⟩
  rintro k hk m' _ ⟨l', rfl, hdir⟩
  have hpages : pages = 1048576 := rfl
  have hcost : ((0 < k ∧ (1 + k) / 1024 ≤ k / 1024) ∧ tablesFor (k + 1) - tablesFor k = 0) ∨
      (¬ (0 < k ∧ (1 + k) / 1024 ≤ k / 1024) ∧ tablesFor (k + 1) - tablesFor k = 1) := by
    rw [tablesFor_succ, tablesFor]
    by_cases hk0 : k = 0
    · rw [if_pos hk0, hk0]
      omega
    · rw [if_neg hk0]
      omega
  refine (hdir.addMapping (by omega) (by omega) true false false hcost).mono ?_
  rintro m'' _ ⟨l'', rfl, hdir'⟩
  refine ⟨l'', rfl, hdir'.congr (fun i _ => ?_) fun v _ => ?_⟩
  · omega
  · unfold identityMap
    by_cases hv : v = 1 + k
    · rw [hv, Function.update_self, if_pos (by omega)]
    · rw [Function.update_of_ne hv]
      by_cases hold : 0 < v ∧ v ≤ k
      · rw [if_pos hold, if_pos (by omega)]
      · rw [if_neg hold, if_neg (by omega)]

/-- **The tables of the shared region.** -/
theorem KernelDir.sharedRegion (h : KernelDir top m l pd has map) (hno : ∀ i, has i → i < PhysMem.sharedPDI) :
    Runs.Paid (freeFrames m l) PhysMem.sharedPDIs
      ((List.range' PhysMem.sharedPDI PhysMem.sharedPDIs).foldlM
        (fun m i => m.addPTMapping pd i true true true) m) fun m' b =>
          ∃ l', freeFrames m' l' = b ∧
            KernelDir top m' l' pd (fun i => has i ∨ (PhysMem.sharedPDI ≤ i ∧ i < 1024)) map := by
  have hfirst : PhysMem.sharedPDI = 960 := rfl
  have hcount : PhysMem.sharedPDIs = 64 := rfl
  rw [hfirst] at hno ⊢
  rw [hcount]
  refine (Runs.Paid.range (c := id) (I := fun n m' b => ∃ l', freeFrames m' l' = b ∧
    KernelDir top m' l' pd (fun i => has i ∨ (960 ≤ i ∧ i < 960 + n)) map) rfl (fun k => Nat.le_succ k) ?_
    ⟨l, rfl, h.congr (fun k _ => ?_) fun _ _ => rfl⟩)
  · rintro k hk m' _ ⟨l', rfl, hdir⟩
    have hnew : ¬ (has (960 + k) ∨ (960 ≤ 960 + k ∧ 960 + k < 960 + k)) := by
      rintro (hold | hlt)
      · exact absurd (hno _ hold) (by omega)
      · omega
    have hcost : id (k + 1) - id k = 1 := by
      show k + 1 - k = 1
      omega
    rw [hcost]
    refine (hdir.addPTMapping (by omega) true true true (Or.inr ⟨hnew, rfl⟩)).mono ?_
    rintro m'' _ ⟨l'', rfl, hdir'⟩
    refine ⟨l'', rfl, hdir'.congr (fun i _ => ?_) fun _ _ => rfl⟩
    constructor
    · rintro ((hold | hlt) | rfl)
      · exact Or.inl hold
      · exact Or.inr (by omega)
      · exact Or.inr (by omega)
    · rintro (hold | hlt)
      · exact Or.inl (Or.inl hold)
      · by_cases hi : i = 960 + k
        · exact Or.inr hi
        · exact Or.inl (Or.inr (by omega))
  · constructor
    · exact Or.inl
    · rintro (hold | hlt)
      · exact hold
      · omega

/-! ## The directory -/

/-- How many frames `global_init` takes. -/
def bootFrames (memSize : Nat) : Nat :=
  1 + (tablesFor (memSize / frameSize - 1) + (PhysMem.sharedPDIs + (0 + 0)))

/-- Which tables there are. -/
def bootTables (memSize : Nat) (i : Nat) : Prop :=
  (0 < memSize / frameSize - 1 ∧ i ≤ (memSize / frameSize - 1) / 1024) ∨ IsSharedDir i

/-- The identity map and two pages above it. -/
theorem kernelMap_eq (memSize : Nat) {io lapic : Nat} (hio : memSize / frameSize ≤ PhysMem.ppn io)
    (hlocal : memSize / frameSize ≤ PhysMem.ppn lapic) (v : Nat) :
    update (update (identityMap (memSize / frameSize - 1)) (PhysMem.ppn io)
        (some (PhysMem.ppn io, flagBits true false true)))
      (PhysMem.ppn lapic) (some (PhysMem.ppn lapic, flagBits true false true)) v =
    kernelMap memSize io lapic v := by
  unfold kernelMap
  by_cases h1 : v = PhysMem.ppn lapic
  · rw [h1, Function.update_self, if_neg (by omega), if_pos (Or.inr rfl)]
  · rw [Function.update_of_ne h1]
    by_cases h2 : v = PhysMem.ppn io
    · rw [h2, Function.update_self, if_neg (by omega), if_pos (Or.inl rfl)]
    · rw [Function.update_of_ne h2, identityMap]
      by_cases h3 : 0 < v ∧ v < memSize / frameSize
      · rw [if_pos h3, if_pos (by omega)]
      · rw [if_neg h3, if_neg (by omega), if_neg (by omega)]

/-- **`global_init`** takes so many frames, and makes the kernel's map. -/
theorem Pool.globalInit (hP : Pool m l) (hmem : memSize ≤ 0x80000000) (hlayout : ApicLayout ioAPIC localAPIC) :
    Runs.Paid (freeFrames m l) (bootFrames memSize) (m.globalInit memSize ioAPIC localAPIC) fun r n =>
      ∃ l', freeFrames r.2 l' = n ∧
        KernelDir m.limit r.2 l' r.1 (bootTables memSize) (kernelMap memSize ioAPIC localAPIC) := by
  have hsize := frameSize_eq
  have hpages : pages = 1048576 := rfl
  have hfirst : PhysMem.sharedPDI = 960 := rfl
  obtain ⟨-, -, hio, hlocal, hend⟩ := hlayout
  have hapic : ∀ a, 0xF0000000 ≤ a → a < 4294967296 → PhysMem.ppn a < pages ∧
      IsSharedDir (PhysMem.ppn a / 1024) ∧ memSize / frameSize ≤ PhysMem.ppn a := by
    intro a h1 h2
    unfold PhysMem.ppn IsSharedDir
    rw [hsize, hpages]
    omega
  obtain ⟨hioLt, hioShared, hioAbove⟩ := hapic ioAPIC hio (by omega)
  obtain ⟨hlocalLt, hlocalShared, hlocalAbove⟩ := hapic localAPIC (by omega) (by omega)
  have hn : memSize / frameSize - 1 < pages := by
    rw [hsize, hpages]
    omega
  have halloc : Runs.Paid (freeFrames m l) 1 m.allocFrame fun pm n => pm.2.limit = m.limit ∧
      ∃ l', freeFrames pm.2 l' = n ∧ Allocated m l pm.1 pm.2 l' := by
    rcases hP.alloc_paid with ⟨pm, n, ha, hn, hnew⟩ | hnone
    · exact Or.inl ⟨pm, n, ha, hn, allocFrame_limit ha, hnew⟩
    · exact Or.inr hnone
  unfold bootFrames PhysMem.globalInit
  refine halloc.bind ?_
  rintro ⟨pd, m₁⟩ _ ⟨hlimit, l₁, rfl, ha⟩
  refine ((ha.kernelDir hlimit).identity hn).bind ?_
  rintro m₂ _ ⟨l₂, rfl, h₂⟩
  refine (h₂.sharedRegion fun i hi => ?_).bind ?_
  · rw [hfirst]
    rw [hsize] at hi
    omega
  rintro m₃ _ ⟨l₃, rfl, h₃⟩
  refine (h₃.addMapping hioLt hioLt true false true (Or.inl ⟨Or.inr hioShared, rfl⟩)).bind ?_
  rintro m₄ _ ⟨l₄, rfl, h₄⟩
  refine (h₄.addMapping hlocalLt hlocalLt true false true
    (Or.inl ⟨Or.inl (Or.inr hlocalShared), rfl⟩)).bind_some ?_
  rintro m₅ _ ⟨l₅, rfl, h₅⟩
  refine ⟨l₅, rfl, h₅.congr (fun i _ => ?_) fun v _ => kernelMap_eq memSize hioAbove hlocalAbove v⟩
  constructor
  · rintro ((hold | rfl) | rfl)
    · exact hold
    · exact Or.inr hioShared
    · exact Or.inr hlocalShared
  · exact fun hold => Or.inl (Or.inl hold)

/-- With at most 2 GiB of memory, none of the tables is the users'. -/
theorem bootTables_not_user (hmem : memSize ≤ 0x80000000) (h : bootTables memSize i) : ¬ isUser i := by
  rw [isUser_iff]
  rcases h with ⟨-, hle⟩ | hshared
  · rw [frameSize_eq] at hle
    omega
  · unfold IsSharedDir at hshared
    omega

/-! ## What has booted -/

/-- A directory of the kernel's is one address space, -/
theorem KernelDir.spaces (h : KernelDir top m l pd has map) (hhas : ∀ i, i < 1024 → has i → ¬ isUser i) :
    Spaces m l [pd] ∧ NoUserTables m.mem pd := by
  have hno : NoUserTables m.mem pd := fun i hu hp =>
    hhas i (isUser_lt hu) ((h.tables i (isUser_lt hu)).1 hp) hu
  have honly : ∀ (s : Slot) f, s.space ∈ [pd] → Refers m.mem s f → s = .dir pd ∧ f = pd := by
    intro s f hs hr
    cases s with
    | dir q =>
      obtain rfl : q = pd := List.mem_singleton.1 hs
      exact ⟨rfl, hr⟩
    | table q i =>
      obtain rfl : q = pd := List.mem_singleton.1 hs
      exact absurd hr.2.1 (hno i hr.1)
    | page q v =>
      obtain rfl : q = pd := List.mem_singleton.1 hs
      obtain ⟨hu, w, hw, -⟩ := hr
      exact absurd (translate_eq_some.1 hw).1 (hno _ hu)
  refine ⟨⟨h.pool, fun s f hs hr => ?_, fun s s' f hs hs' hr hr' => ?_, fun q hq i hi _ hp => ?_⟩, hno⟩
  · rw [(honly s f hs hr).2]
    exact h.dir
  · rw [(honly s f hs hr).1, (honly s' f hs' hr').1]
  · obtain rfl : q = pd := List.mem_singleton.1 hq
    obtain ⟨huse, hne⟩ := h.table i hi hp
    exact ⟨huse, fun s hs hr => hne (honly s _ hs hr).2⟩

/-- and its tables of the shared region are those of the fault handler, with the pages that are mapped. -/
theorem KernelDir.sharedTables (h : KernelDir top m l pd has map) (hhas : ∀ i, IsSharedDir i → has i) :
    SharedTables m l (fun _ => pd) (fun i => frameOf (entry m.mem pd i))
      fun v => present (sharedPte (fun i => frameOf (entry m.mem pd i)) m.mem v) := by
  have hp : ∀ i, IsSharedDir i → present (entry m.mem pd i) := fun i hi => (h.tables i hi.2).2 (hhas i hi)
  exact ⟨h.pool, fun _ => h.dir, fun _ i hi => ⟨hp i hi, rfl⟩, fun i hi => (h.table i hi.2 (hp i hi)).1,
    fun _ i hi => (h.table i hi.2 (hp i hi)).2,
    fun i j hi hj heq => h.single i j hi.2 hj.2 (hp i hi) (hp j hj) heq,
    fun _ _ ho => ho, fun _ _ ho hp' => absurd hp' ho, fun _ _ _ _ ho _ hp' => absurd hp' ho⟩

/-- A new frame lies below the end of memory. -/
theorem Pool.alloc_below (hP : Pool m l) (ha : m.allocFrame = some (p, m')) : p + frameSize ≤ m.limit := by
  obtain ⟨-, -, l', -, halloc⟩ := hP.alloc_paid.of_some ha
  have hlt := ((halloc.inUse p).2 (Or.inr rfl)).lt
  have hle := halloc.pool.availLe
  have hal := halloc.aligned
  have hend := halloc.pool.limitAligned
  simp only at hlt hle hal hend
  rw [allocFrame_limit ha] at hle hend
  rw [frameSize_eq] at hal hend ⊢
  omega

/-- Before the first `naive_mmap`, the shared `VME` has the entries of the two APIC pages, which have no
    file. -/
theorem sharedInit_get {va : Nat} {e : VMEEntry BlockIo}
    (h : (Region.shared ioAPIC localAPIC).init.get va = some e) : e.file = none := by
  have hin : e ∈ VME.insertEntrySorted (Region.apicEntry localAPIC)
      (VME.insertEntrySorted (Region.apicEntry ioAPIC) []) := List.mem_of_find?_eq_some h
  rw [(VME.insertEntrySorted_perm _ _).mem_iff, List.mem_cons, (VME.insertEntrySorted_perm _ _).mem_iff,
    List.mem_singleton] at hin
  rcases hin with rfl | rfl
  · rfl
  · rfl

/-- The frames that anybody holds are those of the range, in every run of the allocator that does not start at
    address 0. -/
theorem framesInv_reached {start size : Nat} {s : Frames} (hpos : 0 < start) (hover : start + size < 4294967296)
    (h : Runs.Reached (FramesInit start size) FrameStep s) : FramesInv start size s := by
  refine Runs.Reached.invariant (I := FramesInv start size) (fun s => framesInv_init hover) ?_ h
  intro s e s' _ hinv hstep
  cases hstep with
  | alloc ha => exact hinv.alloc ha
  | dealloc hp ha =>
    have hlow := ((hinv.frames _).1 (List.mem_append_left _ hp)).2.1
    exact hinv.dealloc hp (by omega) ha
  | write hw => exact hinv.write hw

/-- **The kernel has booted**: there are no processes yet; the directory maps every page of physical memory
    but the first to itself, and the two APIC pages, and nothing else; so it does every frame that the
    allocator ever hands out; and the machine of the shared region is at its start, with the two APIC pages
    there and no others. -/
structure KernelBooted (memSize ioAPIC localAPIC pd : Nat) (m : PhysMem) : Prop where
  processes : ∀ tcb, Processes.Booted ⟨m, pd, [], tcb⟩
  map : ∀ v, v < pages → pageMap m.mem pd v = kernelMap memSize ioAPIC localAPIC v
  frames : ∀ p m', m.allocFrame = some (p, m') →
    pageMap m.mem pd (p / frameSize) = some (p / frameSize, flagBits true false false)
  held : ∀ s, Runs.Reached (FramesInit PhysMem.vmmFrames (memSize - PhysMem.vmmFrames)) FrameStep s →
    ∀ p, p ∈ s.held → pageMap m.mem pd (p / frameSize) = some (p / frameSize, flagBits true false false)
  shared : ∃ table, (∀ vme, SharedStart ⟨m, fun _ => pd, vme, (Region.shared ioAPIC localAPIC).init⟩ table
      ioAPIC localAPIC) ∧
    ∀ v, IsShared v → (present (sharedPte table m.mem v) ↔ v = PhysMem.ppn ioAPIC ∨ v = PhysMem.ppn localAPIC)

/-- What `global_init` makes is what the kernel starts with. -/
theorem KernelDir.booted (haligned : memSize % frameSize = 0) (hheap : PhysMem.vmmFrames < memSize)
    (hmem : memSize ≤ 0x80000000) (hlayout : ApicLayout ioAPIC localAPIC)
    (h : KernelDir memSize m l pd (bootTables memSize) (kernelMap memSize ioAPIC localAPIC)) :
    KernelBooted memSize ioAPIC localAPIC pd m := by
  have hsize := frameSize_eq
  obtain ⟨hspaces, hnone⟩ := h.spaces fun i _ hhas => bootTables_not_user hmem hhas
  have hshared := h.sharedTables fun i hi => Or.inr hi
  -- a frame that is not the first one of memory
  have hidentity : ∀ p, 0 < p → p % frameSize = 0 → p + frameSize ≤ memSize →
      pageMap m.mem pd (p / frameSize) = some (p / frameSize, flagBits true false false) := by
    intro p hpos hal hbelow
    rw [hsize] at hal hbelow
    rw [h.map _ (by rw [hsize, show pages = 1048576 from rfl]; omega), kernelMap, hsize, if_pos (by omega)]
  refine ⟨fun tcb => ⟨⟨l, hspaces⟩, hnone, rfl⟩, h.map, fun p m' ha => ?_, fun s hs p hp => ?_, _,
    fun vme => ⟨⟨l, hshared⟩, hlayout, Runs.Reached.start rfl, fun va e _ _ hget hfile => ?_⟩, fun v hv => ?_⟩
  · have hbelow := h.pool.alloc_below ha
    obtain ⟨-, -, l', -, halloc⟩ := h.pool.alloc_paid.of_some ha
    rw [h.limit] at hbelow
    exact hidentity p halloc.pos halloc.aligned hbelow
  · have hframes : PhysMem.vmmFrames = 6291456 := rfl
    have hinv := framesInv_reached (by rw [hframes]; omega) (by omega) hs
    obtain ⟨hal, hlow, hlt⟩ := (hinv.frames p).1 (List.mem_append_left _ hp)
    have hhigh := hinv.availHigh
    rw [hframes] at hlow hhigh hheap
    rw [hsize] at haligned hal
    exact hidentity p (by omega) (by rw [hsize]; exact hal) (by rw [hsize]; omega)
  · exact absurd (sharedInit_get hget) hfile
  · have hv' := hv
    unfold IsShared IsSharedDir at hv'
    have hmap := h.map v (by rw [show pages = 1048576 from rfl]; omega)
    have hview := hshared.translate_eq hv 0
    rw [kernelMap, if_neg (by rw [hsize]; omega), pageMap, hview] at hmap
    by_cases hp : present (sharedPte (fun i => frameOf (entry m.mem pd i)) m.mem v)
    · refine iff_of_true hp ?_
      by_contra hnot
      rw [if_pos hp, if_neg hnot] at hmap
      cases hmap
    · refine iff_of_false hp fun hapic => ?_
      rw [if_neg hp, if_pos hapic] at hmap
      cases hmap

/-- **When the kernel boots**: where the APICs are in the shared region, exactly with 1603 pages of memory or
    more, up to 2 GiB.  Then it has booted. -/
theorem boot_iff (mem : Mem) (memSize ioAPIC localAPIC : Nat) (haligned : memSize % frameSize = 0)
    (hheap : PhysMem.vmmFrames < memSize) (hmem : memSize ≤ 0x80000000)
    (hlayout : ApicLayout ioAPIC localAPIC) :
    ((∃ r, PhysMem.boot mem memSize ioAPIC localAPIC = some r) ↔ 1603 * frameSize ≤ memSize) ∧
      ∀ pd m, PhysMem.boot mem memSize ioAPIC localAPIC = some (pd, m) →
        KernelBooted memSize ioAPIC localAPIC pd m := by
  have hsize := frameSize_eq
  have hframes : PhysMem.vmmFrames = 6291456 := rfl
  have htables : PhysMem.sharedPDIs = 64 := rfl
  rw [hframes] at hheap
  have hrest : u32 (memSize + 4294967296 - PhysMem.vmmFrames) = memSize - 6291456 := by
    rw [hframes, u32_eq]
    omega
  have hsizes : (memSize - 6291456) % frameSize = 0 := by
    rw [hsize] at haligned ⊢
    omega
  obtain ⟨m₀, hinit, havail, hlimit, hP⟩ := Pool.init (show PhysMem.vmmFrames % frameSize = 0 by decide) hsizes
    (by decide) (by rw [hframes]; omega) mem
  have hboot : PhysMem.boot mem memSize ioAPIC localAPIC = m₀.globalInit memSize ioAPIC localAPIC := by
    rw [PhysMem.boot, hrest, hinit]
    rfl
  have htop : m₀.limit = memSize := by
    rw [hlimit, hframes]
    omega
  have hfree : freeFrames m₀ [] = memSize / frameSize - 1536 := by
    rw [freeFrames, htop, havail, hframes, hsize, List.length_nil]
    omega
  have hpaid := hP.globalInit hmem hlayout
  rw [← hboot] at hpaid
  refine ⟨?_, fun pd m hm => ?_⟩
  · rw [← Option.isSome_iff_exists, hpaid.isSome_iff, hfree, bootFrames, htables, tablesFor,
      if_neg (by rw [hsize]; omega), hsize]
    rw [hsize] at haligned
    omega
  · obtain ⟨n, -, l', -, hdir⟩ := hpaid.of_some hm
    rw [htop] at hdir
    exact hdir.booted haligned (by rw [hframes]; exact hheap) hmem hlayout

/-- 128 MiB are enough. -/
theorem boot_iff_pc : (∃ r, PhysMem.boot (fun _ => 0) 0x8000000 0xFEC00000 0xFEE00000 = some r) ∧
    ∀ pd m, PhysMem.boot (fun _ => 0) 0x8000000 0xFEC00000 0xFEE00000 = some (pd, m) →
      KernelBooted 0x8000000 0xFEC00000 0xFEE00000 pd m := by
  obtain ⟨hsome, hbooted⟩ := boot_iff (fun _ => 0) 0x8000000 0xFEC00000 0xFEE00000 (by decide) (by decide)
    (by decide) VME.apicLayout_pc
  exact ⟨hsome.2 (by decide), hbooted⟩

end BadApple
