/-
  A page directory is a partial map from pages to frames (kernel/vmm.cc).

  1. **Runs** — `Dirs`: memory and all directories.  The first is the global one, an empty frame; then
     `new_page_directory`, `add_mapping`, `add_PT_mapping` and `remove_mapping` are called in any order on
     any of them, and anything else may happen that leaves directories and tables alone.
  2. **Invariant** — `Tree`: no table is a directory, and tables of different indices are different ones.
     Directories may share a table at the same index, as they do with those of the global one.
  3. **Writes** — an entry of a table is one page of the map; an entry of a directory that gets an empty
     table changes no map.
  4. **The result** — `directory_isMap`: each call is the update of the map it should be, as long as
     `remove_mapping` does not give back a directory or a table.  In the kernel's own range every frame is
     mapped to itself, tables and directories too, so that is up to the callers.
-/
import BadApple.Vmm.Grow

namespace BadApple

open Memory
open Function (update)

/-! ## Runs -/

/-- Memory, `global_page_directory` and all directories. -/
structure Dirs where
  m : PhysMem
  globalPageDirectory : Nat
  pds : List Nat

/-- A call, or anything else that leaves memory as `m`. -/
inductive MapCall where
  | newPageDirectory
  | addMapping (pd vpn ppn : Nat) (global write userMode : Bool)
  | addPTMapping (pd pdi : Nat) (global write userMode : Bool)
  | removeMapping (pd vpn : Nat)
  | other (m : PhysMem)

namespace Dirs

/-- One call; `none` when it panics. -/
def step (s : Dirs) : MapCall → Option Dirs
  | .newPageDirectory => (s.m.newPageDirectory s.globalPageDirectory).map fun (pd, m) =>
    ⟨m, s.globalPageDirectory, pd :: s.pds⟩
  | .addMapping pd vpn ppn global write userMode =>
    (s.m.addMapping pd vpn ppn global write userMode).map fun m => ⟨m, s.globalPageDirectory, s.pds⟩
  | .addPTMapping pd pdi global write userMode =>
    (s.m.addPTMapping pd pdi global write userMode).map fun m => ⟨m, s.globalPageDirectory, s.pds⟩
  | .removeMapping pd vpn => (s.m.removeMapping pd vpn).map fun m => ⟨m, s.globalPageDirectory, s.pds⟩
  | .other m => some ⟨m, s.globalPageDirectory, s.pds⟩

/-- `alloc_frame` returns no frame that is in use as a directory or a table. -/
def Fresh (s : Dirs) : Prop :=
  ∀ p m, s.m.allocFrame = some (p, m) → 0 < p ∧ p < 4294967296 ∧ ¬ IsTable s.m.mem s.pds p

instance (mem : Mem) (pds : List Nat) (f : Nat) : Decidable (IsTable mem pds f) :=
  inferInstanceAs (Decidable (∃ pd ∈ pds, f = pd ∨
    ∃ i, i < 1024 ∧ present (entry mem pd i) ∧ f = frameOf (entry mem pd i)))

instance (s : Dirs) : Decidable s.Fresh :=
  decidable_of_iff (∀ pm ∈ s.m.allocFrame, 0 < pm.1 ∧ pm.1 < 4294967296 ∧ ¬ IsTable s.m.mem s.pds pm.1)
    ⟨fun h p m hm => h (p, m) hm, fun h pm hm => h pm.1 pm.2 hm⟩

/-- Calls are about directories, pages and frames that there are. -/
def Legal (s : Dirs) : MapCall → Prop
  | .newPageDirectory => s.Fresh
  | .addMapping pd vpn ppn _ _ _ => pd ∈ s.pds ∧ vpn < pages ∧ ppn < pages ∧ s.Fresh
  | .addPTMapping pd pdi _ _ _ => pd ∈ s.pds ∧ pdi < 1024 ∧ s.Fresh
  | .removeMapping pd vpn => pd ∈ s.pds ∧ vpn < pages
  | .other m => ∀ f, IsTable s.m.mem s.pds f → Keeps m.mem s.m.mem f

/-- Page `vpn` of `pd`, if it is mapped, is mapped to no directory or table. -/
def NoTable (s : Dirs) (pd vpn : Nat) : Prop :=
  ∀ w, translate s.m.mem pd vpn = some w → ¬ IsTable s.m.mem s.pds (frameOf w)

/-- What is unmapped is no directory or table. -/
def Unmaps (s : Dirs) : MapCall → Prop
  | .newPageDirectory | .addMapping .. | .addPTMapping .. | .other _ => True
  | .removeMapping pd vpn => s.NoTable pd vpn

/-- The global directory when it is new. -/
def Start (s : Dirs) : Prop :=
  ∃ m : PhysMem, m.allocFrame = some (s.globalPageDirectory, s.m) ∧ 0 < s.globalPageDirectory ∧
    s.pds = [s.globalPageDirectory]

end Dirs

/-- The states of all runs in which no directory or table is unmapped. -/
def MapRuns : Dirs → Prop :=
  Runs.Guarded Dirs.Start (fun s a t => s.step a = some t) fun s a => s.Legal a ∧ s.Unmaps a

/-! ## The map -/

/-- **The map of a directory**: frame number and flags of each page. -/
def pageMap (mem : Mem) (pd v : Nat) : Option (Nat × Nat) :=
  (translate mem pd v).map fun w => (w / frameSize, flagsOf w)

/-- The frame that page `v` of `pd` is mapped to is given back, if there is one. -/
def PhysMem.giveBack (m : PhysMem) (pd v : Nat) : Option PhysMem :=
  match pageMap m.mem pd v with
  | none => some m
  | some (ppn, _) => m.deallocFrame (ppn * frameSize)

/-- Nothing has changed but the contents of directories and tables. -/
structure OnlyTables (s : Dirs) (m' m : PhysMem) : Prop where
  firstFree : m'.firstFree = m.firstFree
  avail : m'.avail = m.avail
  limit : m'.limit = m.limit
  keeps : ∀ f, f % frameSize = 0 → ¬ IsTable s.m.mem s.pds f → Keeps m'.mem m.mem f

/-- The map of `pd` is updated at page `v`, and no directory's at any other page. -/
structure UpdatedAt (s : Dirs) (pd v : Nat) (target : Option (Nat × Nat)) (m' : PhysMem) : Prop where
  here : ∀ u, u < pages → pageMap m'.mem pd u = update (pageMap s.m.mem pd) v target u
  other : ∀ pd' ∈ s.pds, ∀ u, u < pages → u ≠ v → pageMap m'.mem pd' u = pageMap s.m.mem pd' u

/-- **Directory `pd` is its map** to all calls. -/
structure IsMap (s : Dirs) (pd : Nat) : Prop where
  check : ∀ v, v < pages → s.m.checkVPN pd v = (pageMap s.m.mem pd v).isSome
  add : ∀ v ppn global write userMode, v < pages → ppn < pages → s.Fresh →
    (s.m.addMapping pd v ppn global write userMode = none ∧ s.m.allocFrame = none) ∨
    ∃ m', s.m.addMapping pd v ppn global write userMode = some m' ∧
      UpdatedAt s pd v (some (ppn, flagBits global write userMode)) m'
  remove : ∀ v, v < pages → s.NoTable pd v → ∃ m' m₁, s.m.removeMapping pd v = some m' ∧
    UpdatedAt s pd v none m' ∧ s.m.giveBack pd v = some m₁ ∧ OnlyTables s m' m₁
  new : ∀ pd' m', s.Fresh → s.m.newPageDirectory s.globalPageDirectory = some (pd', m') →
    ∀ u, u < pages → pageMap m'.mem pd' u = pageMap s.m.mem s.globalPageDirectory u ∧
      pageMap m'.mem pd u = pageMap s.m.mem pd u

variable {m m' m₁ : PhysMem} {mem mem' : Mem} {s t : Dirs} {pds : List Nat}
  {f g p q pd pd' i j k u v w flags : Nat}

/-! ## Invariant -/

/-- **Directories and their tables**: no table is a directory, and tables at different indices differ. -/
structure Tree (mem : Mem) (pds : List Nat) : Prop where
  aligned : ∀ pd ∈ pds, pd % frameSize = 0
  pos : ∀ pd ∈ pds, 0 < pd
  notDir : ∀ pd ∈ pds, ∀ i, i < 1024 → present (entry mem pd i) → frameOf (entry mem pd i) ∉ pds
  single : ∀ pd ∈ pds, ∀ pd' ∈ pds, ∀ i j, i < 1024 → j < 1024 → present (entry mem pd i) →
    present (entry mem pd' j) → frameOf (entry mem pd i) = frameOf (entry mem pd' j) → i = j

theorem Tree.congr (hT : Tree mem pds)
    (hdirs : ∀ pd ∈ pds, ∀ i, i < 1024 → entry mem' pd i = entry mem pd i) : Tree mem' pds := by
  refine ⟨hT.aligned, hT.pos, fun pd hpd i hi hp => ?_, fun pd hpd pd' hpd' i j hi hj hp hp' heq => ?_⟩
  · rw [hdirs pd hpd i hi] at hp ⊢
    exact hT.notDir pd hpd i hi hp
  · rw [hdirs pd hpd i hi] at hp heq
    rw [hdirs pd' hpd' j hj] at hp' heq
    exact hT.single pd hpd pd' hpd' i j hi hj hp hp' heq

theorem Tree.isTable_aligned (hT : Tree mem pds) (hf : IsTable mem pds f) : f % frameSize = 0 := by
  obtain ⟨pd, hpd, rfl | ⟨i, -, -, rfl⟩⟩ := hf
  · exact hT.aligned f hpd
  · exact frameOf_aligned _

/-- A frame that changes and is no table changes no map. -/
theorem Tree.sameView (hT : Tree m.mem pds) (hf : ¬ IsTable m.mem pds f)
    (hk : ∀ g, g % frameSize = 0 → g ≠ f → Keeps m'.mem m.mem g) : SameView m' m pds := by
  refine sameView_of_keeps fun g hg => hk g (hT.isTable_aligned hg) ?_
  rintro rfl
  exact hf hg

/-! ## Writes -/

/-- **Writing an entry of a table** is writing one page of each map that has the table. -/
theorem Tree.setPte (hT : Tree m.mem pds) (hq : q ∈ pds) (hi : i < 1024) (hp : present (entry m.mem q i))
    (hj : j < 1024) (hw : w < 4294967296) :
    (∀ pd ∈ pds, ∀ k, k < 1024 →
      entry (m.setEntry (frameOf (entry m.mem q i)) j w).mem pd k = entry m.mem pd k) ∧
    (∀ pd ∈ pds, ∀ u, u < pages → u ≠ 1024 * i + j →
      translate (m.setEntry (frameOf (entry m.mem q i)) j w).mem pd u = translate m.mem pd u) ∧
    translate (m.setEntry (frameOf (entry m.mem q i)) j w).mem q (1024 * i + j) =
      if present w then some w else none := by
  have hdirs : ∀ pd ∈ pds, ∀ k, k < 1024 →
      entry (m.setEntry (frameOf (entry m.mem q i)) j w).mem pd k = entry m.mem pd k := by
    intro pd hpd k hk
    refine PhysMem.entry_setEntry_of_ne (frameOf_aligned _) (hT.aligned pd hpd) hj hk (Or.inl ?_)
    rintro rfl
    exact hT.notDir q hq i hi hp hpd
  refine ⟨hdirs, fun pd hpd u hu hne => ?_, ?_⟩
  · refine translate_congr (hdirs pd hpd _ (vpn_lt hu)) fun hpu => ?_
    unfold pte
    rw [hdirs pd hpd _ (vpn_lt hu)]
    refine PhysMem.entry_setEntry_of_ne (frameOf_aligned _) (frameOf_aligned _) hj
      (Nat.mod_lt _ (by decide)) ?_
    by_cases heq : frameOf (entry m.mem pd (u / 1024)) = frameOf (entry m.mem q i)
    · -- the same table is at the same index, so it is another page of it
      have hidx := hT.single pd hpd q hq _ i (vpn_lt hu) hi hpu hp heq
      exact Or.inr (by omega)
    · exact Or.inl heq
  · have hdiv : (1024 * i + j) / 1024 = i := by omega
    have hmod : (1024 * i + j) % 1024 = j := by omega
    unfold translate pte
    rw [hdiv, hmod, hdirs q hq i hi, PhysMem.entry_setEntry hw]
    by_cases hpw : present w
    · rw [if_pos ⟨hp, hpw⟩, if_pos hpw]
    · rw [if_neg (fun hh => hpw hh.2), if_neg hpw]

/-- **A new table**, without pages, changes no map. -/
theorem Tree.setPde (hT : Tree m.mem pds) (hq : q ∈ pds) (hi : i < 1024)
    (hno : ¬ present (entry m.mem q i)) (hp : ¬ IsTable m.mem pds p) (hal : p % frameSize = 0)
    (hlt : p < 4294967296) (hzero : ∀ j, j < 1024 → entry m.mem p j = 0) (hw : flags < frameSize) :
    Tree (m.setEntry q i (flags ||| p)).mem pds ∧ entry (m.setEntry q i (flags ||| p)).mem q i = flags ||| p ∧
      ∀ pd ∈ pds, ∀ u, u < pages →
        translate (m.setEntry q i (flags ||| p)).mem pd u = translate m.mem pd u := by
  obtain ⟨hframe, -, -⟩ := entry_parts hw hal
  have hpq : p ≠ q := by
    rintro rfl
    exact hp ⟨p, hq, Or.inl rfl⟩
  have hpdir : p ∉ pds := fun hin => hp ⟨p, hin, Or.inl rfl⟩
  have hself : entry (m.setEntry q i (flags ||| p)).mem q i = flags ||| p :=
    PhysMem.entry_setEntry (entry_parts_lt hw hal hlt)
  have hdirs : ∀ pd ∈ pds, ∀ k, k < 1024 → ¬ (pd = q ∧ k = i) →
      entry (m.setEntry q i (flags ||| p)).mem pd k = entry m.mem pd k := by
    intro pd hpd k hk hne
    refine PhysMem.entry_setEntry_of_ne (hT.aligned q hq) (hT.aligned pd hpd) hi hk ?_
    by_cases hpd : pd = q
    · exact Or.inr fun hki => hne ⟨hpd, hki⟩
    · exact Or.inl hpd
  have hold : ∀ pd ∈ pds, ∀ k, k < 1024 → present (entry m.mem pd k) → frameOf (entry m.mem pd k) ≠ p := by
    rintro pd hpd k hk hpk rfl
    exact hp ⟨pd, hpd, Or.inr ⟨k, hk, hpk, rfl⟩⟩
  refine ⟨⟨hT.aligned, hT.pos, fun pd hpd k hk hpk => ?_, fun pd hpd pd' hpd' k k' hk hk' hpk hpk' heq => ?_⟩,
    hself, fun pd hpd u hu => ?_⟩
  · by_cases hown : pd = q ∧ k = i
    · obtain ⟨rfl, rfl⟩ := hown
      rw [hself, hframe]
      exact hpdir
    · rw [hdirs pd hpd k hk hown] at hpk ⊢
      exact hT.notDir pd hpd k hk hpk
  · by_cases hown : pd = q ∧ k = i
    · by_cases hown' : pd' = q ∧ k' = i
      · rw [hown.2, hown'.2]
      · obtain ⟨rfl, rfl⟩ := hown
        rw [hdirs pd' hpd' k' hk' hown'] at hpk' heq
        rw [hself, hframe] at heq
        exact absurd heq.symm (hold pd' hpd' k' hk' hpk')
    · rw [hdirs pd hpd k hk hown] at hpk heq
      by_cases hown' : pd' = q ∧ k' = i
      · obtain ⟨rfl, rfl⟩ := hown'
        rw [hself, hframe] at heq
        exact absurd heq (hold pd hpd k hk hpk)
      · rw [hdirs pd' hpd' k' hk' hown'] at hpk' heq
        exact hT.single pd hpd pd' hpd' k k' hk hk' hpk hpk' heq
  · have hlt' := vpn_lt hu
    have hj : u % 1024 < 1024 := Nat.mod_lt _ (by decide)
    by_cases hown : pd = q ∧ u / 1024 = i
    · obtain ⟨rfl, rfl⟩ := hown
      unfold translate pte
      rw [hself, hframe, PhysMem.entry_setEntry_of_ne (hT.aligned pd hpd) hal hi hj (Or.inl hpq), hzero _ hj,
        if_neg (fun hh => absurd hh.2 (by decide)), if_neg (fun hh => hno hh.1)]
    · refine translate_congr (hdirs pd hpd _ hlt' hown) fun hpu => ?_
      unfold pte
      rw [hdirs pd hpd _ hlt' hown]
      refine PhysMem.entry_setEntry_of_ne (hT.aligned q hq) (frameOf_aligned _) hi hj (Or.inl ?_)
      intro heq
      exact hT.notDir pd hpd _ hlt' hpu (heq ▸ hq)

/-- **A copy of a directory** has its map. -/
theorem Tree.copyDir (hT : Tree m.mem pds) (hq : q ∈ pds) (hp : ¬ IsTable m.mem pds p)
    (hal : p % frameSize = 0) (hpos : 0 < p) :
    SameView { m with mem := Memory.memcpy m.mem p q frameSize } m pds ∧
      Tree (Memory.memcpy m.mem p q frameSize) (p :: pds) ∧
      ∀ u, u < pages → translate (Memory.memcpy m.mem p q frameSize) p u = translate m.mem q u := by
  have hkeeps : ∀ g, g % frameSize = 0 → g ≠ p → Keeps (Memory.memcpy m.mem p q frameSize) m.mem g :=
    fun g hg hne => keeps_memcpy hal hg hne
  have hview : SameView { m with mem := Memory.memcpy m.mem p q frameSize } m pds := hT.sameView hp hkeeps
  have hcopy : ∀ k, k < 1024 → entry (Memory.memcpy m.mem p q frameSize) p k = entry m.mem q k :=
    fun k hk => entry_memcpy hk
  -- every directory has the entries of one that was there
  have hold : ∀ pd ∈ p :: pds, ∃ pd' ∈ pds, ∀ k, k < 1024 →
      entry (Memory.memcpy m.mem p q frameSize) pd k = entry m.mem pd' k := by
    intro pd hpd
    rcases List.mem_cons.1 hpd with rfl | hpd
    · exact ⟨q, hq, hcopy⟩
    · exact ⟨pd, hpd, hview.dirs pd hpd⟩
  refine ⟨hview, ⟨fun pd hpd => ?_, fun pd hpd => ?_, fun pd hpd i hi hpi => ?_,
    fun pd hpd pd' hpd' i j hi hj hpi hpj heq => ?_⟩, fun u hu => ?_⟩
  · rcases List.mem_cons.1 hpd with rfl | hpd
    · exact hal
    · exact hT.aligned pd hpd
  · rcases List.mem_cons.1 hpd with rfl | hpd
    · exact hpos
    · exact hT.pos pd hpd
  · obtain ⟨pd', hpd', hsame⟩ := hold pd hpd
    rw [hsame i hi] at hpi ⊢
    rw [List.mem_cons]
    rintro (heq | hin)
    · exact hp ⟨pd', hpd', Or.inr ⟨i, hi, hpi, heq.symm⟩⟩
    · exact hT.notDir pd' hpd' i hi hpi hin
  · obtain ⟨d, hd, hsame⟩ := hold pd hpd
    obtain ⟨d', hd', hsame'⟩ := hold pd' hpd'
    rw [hsame i hi] at hpi heq
    rw [hsame' j hj] at hpj heq
    exact hT.single d hd d' hd' i j hi hj hpi hpj heq
  · have hlt := vpn_lt hu
    unfold translate pte
    rw [hcopy _ hlt]
    by_cases hpu : present (entry m.mem q (u / 1024))
    · have hne : frameOf (entry m.mem q (u / 1024)) ≠ p := by
        rintro rfl
        exact hp ⟨q, hq, Or.inr ⟨_, hlt, hpu, rfl⟩⟩
      rw [(hkeeps _ (frameOf_aligned _) hne).entry_eq (Nat.mod_lt _ (by decide))]
    · rw [if_neg (fun hh => hpu hh.1), if_neg (fun hh => hpu hh.1)]

/-! ## Frames -/

/-- What `alloc_frame` does to memory, whatever frame it returns. -/
theorem allocFrame_spec (h : m.allocFrame = some (p, m')) :
    p % frameSize = 0 ∧ (∀ k, k < 1024 → entry m'.mem p k = 0) ∧
      ∀ g, g % frameSize = 0 → g ≠ p → Keeps m'.mem m.mem g := by
  unfold PhysMem.allocFrame at h
  simp only at h
  split at h
  · simp at h
  · rename_i f m₁ htaken
    split at h
    · rename_i hal
      simp only [Option.some.injEq, Prod.mk.injEq] at h
      obtain ⟨rfl, rfl⟩ := h
      have hmem : m₁.mem = m.mem := by
        split at htaken
        · simp only [Option.some.injEq, Prod.mk.injEq] at htaken
          rw [← htaken.2]
        · split at htaken
          · simp at htaken
          · simp only [Option.some.injEq, Prod.mk.injEq] at htaken
            rw [← htaken.2]
      simp only [hmem]
      exact ⟨hal, fun k hk => entry_of_zero (fun n hn => bzero_at hn) hk,
        fun g hg hne => keeps_bzero hal hg hne⟩
    · simp at h

/-- What `dealloc_frame` does to memory. -/
theorem deallocFrame_spec (hf : f % frameSize = 0) :
    ∃ m', m.deallocFrame f = some m' ∧ ∀ g, g % frameSize = 0 → g ≠ f → Keeps m'.mem m.mem g := by
  refine ⟨⟨setWord m.mem f m.firstFree, f, m.avail, m.limit⟩, ?_, fun g hg hne => keeps_setWord hf hg hne⟩
  unfold PhysMem.deallocFrame
  rw [if_pos hf]

/-! ## Calls -/

/-- The states that runs reach. -/
structure Dirs.Inv (s : Dirs) : Prop where
  tree : Tree s.m.mem s.pds
  global : s.globalPageDirectory ∈ s.pds

/-- A new frame changes no map. -/
theorem Dirs.Inv.alloc (hI : s.Inv) (hfresh : s.Fresh) (ha : s.m.allocFrame = some (p, m₁)) :
    0 < p ∧ p < 4294967296 ∧ p % frameSize = 0 ∧ ¬ IsTable m₁.mem s.pds p ∧ Tree m₁.mem s.pds ∧
      SameView m₁ s.m s.pds ∧ ∀ k, k < 1024 → entry m₁.mem p k = 0 := by
  obtain ⟨hpos, hlt, hnot⟩ := hfresh p m₁ ha
  obtain ⟨hal, hzero, hkeeps⟩ := allocFrame_spec ha
  have hview := hI.tree.sameView hnot hkeeps
  exact ⟨hpos, hlt, hal, fun ht => hnot (hview.isTable_iff.1 ht), hI.tree.congr hview.dirs, hview, hzero⟩

/-- **`add_PT_mapping`** changes no map. -/
theorem Dirs.Inv.addPTMapping (hI : s.Inv) (hq : q ∈ s.pds) (hi : i < 1024) (hfresh : s.Fresh)
    (global write userMode : Bool) (ha : s.m.addPTMapping q i global write userMode = some m') :
    Tree m'.mem s.pds ∧ present (entry m'.mem q i) ∧
      ∀ pd ∈ s.pds, ∀ u, u < pages → translate m'.mem pd u = translate s.m.mem pd u := by
  unfold PhysMem.addPTMapping at ha
  by_cases hp : present (entry s.m.mem q i)
  · rw [if_pos hp] at ha
    obtain rfl := Option.some.inj ha
    exact ⟨hI.tree, hp, fun _ _ _ _ => rfl⟩
  · rw [if_neg hp] at ha
    obtain ⟨⟨pt, m₁⟩, halloc, rfl⟩ := Option.map_eq_some_iff.1 ha
    obtain ⟨-, hlt, hal, hnot, hT, hview, hzero⟩ := hI.alloc hfresh halloc
    have hpde := hview.dirs q hq i hi
    obtain ⟨hT', hentry, htrans⟩ := hT.setPde hq hi (by rw [hpde]; exact hp) hnot hal hlt hzero
      (flagsOf_lt (entry m₁.mem q i ||| flagBits global write userMode))
    refine ⟨hT', ?_, fun pd hpd u hu => ?_⟩
    · rw [hentry, (entry_parts (flagsOf_lt _) hal).2.2, present_flagsOf]
      exact present_or (flagBits_parts global write userMode).2 _
    · rw [htrans pd hpd u hu, hview.translate_eq hpd hu]

/-- `add_mapping` is `add_PT_mapping`, and then an entry of the table. -/
theorem Dirs.Fresh.addMapping_eq (hfresh : s.Fresh) (q v ppn : Nat) (global write userMode : Bool) :
    s.m.addMapping q v ppn global write userMode =
      (s.m.addPTMapping q (v / 1024) global write userMode).map fun m₁ =>
        m₁.setEntry (frameOf (entry m₁.mem q (v / 1024))) (v % 1024)
          (flagBits global write userMode ||| u32 (ppn * frameSize)) := by
  unfold PhysMem.addMapping PhysMem.addPTMapping
  simp only
  by_cases hp : present (entry s.m.mem q (v / 1024))
  · rw [if_pos hp, if_pos hp]
    rfl
  · rw [if_neg hp, if_neg hp, Option.map_map, Option.map_map]
    apply Option.map_congr
    rintro ⟨pt, m₁⟩ ha
    obtain ⟨-, hlt, -⟩ := hfresh pt m₁ ha
    have hal := (allocFrame_spec ha).1
    have hflags := flagsOf_lt (entry m₁.mem q (v / 1024) ||| flagBits global write userMode)
    simp only [Function.comp_apply]
    rw [PhysMem.entry_setEntry (entry_parts_lt hflags hal hlt), (entry_parts hflags hal).1]

/-- A page of `ppn < 2 ^ 20` put together. -/
theorem entry_ppn {ppn : Nat} (hppn : ppn < pages) (hw : w < frameSize) :
    (w ||| u32 (ppn * frameSize)) / frameSize = ppn ∧ flagsOf (w ||| u32 (ppn * frameSize)) = w ∧
      (present (w ||| u32 (ppn * frameSize)) ↔ present w) ∧ w ||| u32 (ppn * frameSize) < 4294967296 := by
  unfold pages at hppn
  have hmul : ppn * frameSize % frameSize = 0 := Nat.mul_mod_left ppn frameSize
  have hlt : ppn * frameSize < 4294967296 := by
    rw [frameSize_eq]
    omega
  rw [u32_of_lt hlt]
  obtain ⟨-, hflags, hpres⟩ := entry_parts hw hmul
  refine ⟨?_, hflags, hpres, entry_parts_lt hw hmul hlt⟩
  rw [or_frame hw hmul]
  rw [frameSize_eq] at *
  omega

/-- Translations that stay, and the one that does not. -/
theorem updatedAt_of_translate (hq : q ∈ s.pds) {target : Option (Nat × Nat)}
    (hother : ∀ pd ∈ s.pds, ∀ u, u < pages → u ≠ v → translate m'.mem pd u = translate s.m.mem pd u)
    (hhere : pageMap m'.mem q v = target) : UpdatedAt s q v target m' := by
  have hrest : ∀ pd ∈ s.pds, ∀ u, u < pages → u ≠ v → pageMap m'.mem pd u = pageMap s.m.mem pd u := by
    intro pd hpd u hu hne
    unfold pageMap
    rw [hother pd hpd u hu hne]
  refine ⟨fun u hu => ?_, hrest⟩
  by_cases huv : u = v
  · rw [huv, Function.update_self, hhere]
  · rw [Function.update_of_ne huv, hrest q hq u hu huv]

/-- **`add_mapping`** updates the map at one page. -/
theorem Dirs.Inv.addMapping (hI : s.Inv) (hq : q ∈ s.pds) (hv : v < pages) {ppn : Nat} (hppn : ppn < pages)
    (hfresh : s.Fresh) (global write userMode : Bool)
    (ha : s.m.addMapping q v ppn global write userMode = some m') :
    Tree m'.mem s.pds ∧ UpdatedAt s q v (some (ppn, flagBits global write userMode)) m' := by
  rw [hfresh.addMapping_eq] at ha
  obtain ⟨m₁, hpt, rfl⟩ := Option.map_eq_some_iff.1 ha
  obtain ⟨hT, hp, htrans⟩ := hI.addPTMapping hq (vpn_lt hv) hfresh global write userMode hpt
  obtain ⟨hbits, hpres⟩ := flagBits_parts global write userMode
  obtain ⟨hdiv, hflags, hpresent, hlt⟩ := entry_ppn hppn hbits
  obtain ⟨hdirs, hother, hhere⟩ := hT.setPte hq (vpn_lt hv) hp (j := v % 1024) (Nat.mod_lt _ (by decide)) hlt
  have hvpn : 1024 * (v / 1024) + v % 1024 = v := by omega
  rw [hvpn] at hother hhere
  rw [if_pos (hpresent.2 hpres)] at hhere
  refine ⟨hT.congr hdirs, updatedAt_of_translate hq (fun pd hpd u hu hne => ?_) ?_⟩
  · rw [hother pd hpd u hu hne, htrans pd hpd u hu]
  · unfold pageMap
    rw [hhere, Option.map_some, hdiv, hflags]

/-- **`remove_mapping`** updates the map at one page, and gives back its frame. -/
theorem Dirs.Inv.removeMapping (hI : s.Inv) (hq : q ∈ s.pds) (hv : v < pages) (hno : s.NoTable q v) :
    ∃ m' m₁, s.m.removeMapping q v = some m' ∧ Tree m'.mem s.pds ∧ UpdatedAt s q v none m' ∧
      s.m.giveBack q v = some m₁ ∧ OnlyTables s m' m₁ := by
  have hlt := vpn_lt hv
  have hj : v % 1024 < 1024 := Nat.mod_lt _ (by decide)
  unfold PhysMem.removeMapping
  rw [if_neg (Nat.ne_of_gt (hI.tree.pos q hq))]
  simp only
  by_cases hp : present (entry s.m.mem q (v / 1024))
  · rw [if_pos hp]
    have hpte : ∀ w, w = entry s.m.mem (frameOf (entry s.m.mem q (v / 1024))) (v % 1024) → present w →
        translate s.m.mem q v = some w := fun w hw hpw => translate_eq_some.2 ⟨hp, hpw, hw.symm⟩
    -- giving back the frame changes no map
    obtain ⟨m₁, hfree, hgive, hview⟩ : ∃ m₁,
        (if present (entry s.m.mem (frameOf (entry s.m.mem q (v / 1024))) (v % 1024)) then
          s.m.deallocFrame (frameOf (entry s.m.mem (frameOf (entry s.m.mem q (v / 1024))) (v % 1024)))
          else some s.m) = some m₁ ∧ s.m.giveBack q v = some m₁ ∧ SameView m₁ s.m s.pds := by
      unfold PhysMem.giveBack pageMap
      by_cases hpw : present (entry s.m.mem (frameOf (entry s.m.mem q (v / 1024))) (v % 1024))
      · have hw := hpte _ rfl hpw
        obtain ⟨m₁, hd, hkeeps⟩ := deallocFrame_spec (m := s.m) (frameOf_aligned
          (entry s.m.mem (frameOf (entry s.m.mem q (v / 1024))) (v % 1024)))
        rw [if_pos hpw, hw]
        exact ⟨m₁, hd, hd, hI.tree.sameView (hno _ hw) hkeeps⟩
      · have hnone : translate s.m.mem q v = none := by
          unfold translate pte
          rw [if_neg (fun hh => hpw hh.2)]
        rw [if_neg hpw, hnone]
        exact ⟨s.m, rfl, rfl, SameView.refl _ _⟩
    rw [hfree, Option.map_some]
    have hpde := hview.dirs q hq _ hlt
    have htable : IsTable s.m.mem s.pds (frameOf (entry s.m.mem q (v / 1024))) :=
      ⟨q, hq, Or.inr ⟨_, hlt, hp, rfl⟩⟩
    obtain ⟨hdirs, hother, hhere⟩ := (hI.tree.congr hview.dirs).setPte (w := 0) hq hlt
      (by rw [hpde]; exact hp) hj (by decide)
    have hvpn : 1024 * (v / 1024) + v % 1024 = v := by omega
    rw [hpde, hvpn] at hother
    rw [hpde, hvpn, if_neg not_present_zero] at hhere
    rw [hpde] at hdirs
    refine ⟨_, m₁, rfl, (hI.tree.congr hview.dirs).congr hdirs,
      updatedAt_of_translate hq (fun pd hpd u hu hne => ?_) ?_, hgive, ⟨rfl, rfl, rfl, fun f hf hnot => ?_⟩⟩
    · rw [hother pd hpd u hu hne, hview.translate_eq hpd hu]
    · unfold pageMap
      rw [hhere, Option.map_none]
    · refine PhysMem.keeps_setEntry (frameOf_aligned _) hf hj ?_
      rintro rfl
      exact hnot htable
  · rw [if_neg hp]
    have hnone : pageMap s.m.mem q v = none := by
      unfold pageMap translate
      rw [if_neg (fun hh => hp hh.1), Option.map_none]
    refine ⟨s.m, s.m, rfl, hI.tree, ⟨fun u _ => ?_, fun _ _ _ _ _ => rfl⟩, ?_, ⟨rfl, rfl, rfl, fun _ _ _ => ?_⟩⟩
    · rw [← hnone, Function.update_eq_self]
    · unfold PhysMem.giveBack
      rw [hnone]
    · exact Same.refl _ _ _

/-- **`new_page_directory`** copies the map of the global directory. -/
theorem Dirs.Inv.newPageDirectory (hI : s.Inv) (hfresh : s.Fresh)
    (ha : s.m.newPageDirectory s.globalPageDirectory = some (p, m')) :
    Tree m'.mem (p :: s.pds) ∧ SameView m' s.m s.pds ∧
      ∀ u, u < pages → translate m'.mem p u = translate s.m.mem s.globalPageDirectory u := by
  unfold PhysMem.newPageDirectory at ha
  obtain ⟨⟨tmp, m₁⟩, halloc, heq⟩ := Option.bind_eq_some_iff.1 ha
  simp only [Option.some.injEq, Prod.mk.injEq] at heq
  obtain ⟨rfl, rfl⟩ := heq
  obtain ⟨hpos, -, hal, hnot, hT, hview, -⟩ := hI.alloc hfresh halloc
  obtain ⟨hview', hT', hcopy⟩ := hT.copyDir hI.global hnot hal hpos
  refine ⟨hT', ⟨fun pd hpd i hi => ?_, fun pd hpd i hi hp j hj => ?_⟩, fun u hu => ?_⟩
  · rw [hview'.dirs pd hpd i hi, hview.dirs pd hpd i hi]
  · rw [hview'.tables pd hpd i hi (by rw [hview.dirs pd hpd i hi]; exact hp) j hj,
      hview.tables pd hpd i hi hp j hj]
  · rw [hcopy u hu, hview.translate_eq hI.global hu]

/-! ## Runs -/

/-- **The step lemma.** -/
theorem Dirs.Inv.step (hI : s.Inv) {a : MapCall} (hlegal : s.Legal a) (hunmaps : s.Unmaps a)
    (hs : s.step a = some t) : t.Inv := by
  cases a with
  | newPageDirectory =>
    obtain ⟨⟨pd, m⟩, hm, rfl⟩ := Option.map_eq_some_iff.1 hs
    exact ⟨(hI.newPageDirectory hlegal hm).1, List.mem_cons_of_mem _ hI.global⟩
  | addMapping pd vpn ppn global write userMode =>
    obtain ⟨m, hm, rfl⟩ := Option.map_eq_some_iff.1 hs
    obtain ⟨hpd, hv, hppn, hfresh⟩ := hlegal
    exact ⟨(hI.addMapping hpd hv hppn hfresh global write userMode hm).1, hI.global⟩
  | addPTMapping pd pdi global write userMode =>
    obtain ⟨m, hm, rfl⟩ := Option.map_eq_some_iff.1 hs
    obtain ⟨hpd, hi, hfresh⟩ := hlegal
    exact ⟨(hI.addPTMapping hpd hi hfresh global write userMode hm).1, hI.global⟩
  | removeMapping pd vpn =>
    obtain ⟨m, hm, rfl⟩ := Option.map_eq_some_iff.1 hs
    obtain ⟨m', -, hm', hT, -⟩ := hI.removeMapping hlegal.1 hlegal.2 hunmaps
    obtain rfl : m' = m := Option.some.inj (hm'.symm.trans hm)
    exact ⟨hT, hI.global⟩
  | other m =>
    obtain rfl := Option.some.inj hs
    exact ⟨hI.tree.congr (sameView_of_keeps hlegal).dirs, hI.global⟩

/-- The global directory when it is new has no tables. -/
theorem Dirs.Start.inv (h : s.Start) : s.Inv := by
  obtain ⟨m, ha, hpos, hpds⟩ := h
  obtain ⟨hal, hzero, -⟩ := allocFrame_spec ha
  have hnone : ∀ pd ∈ s.pds, ∀ i, i < 1024 → ¬ present (entry s.m.mem pd i) := by
    intro pd hpd i hi
    rw [hpds, List.mem_singleton] at hpd
    rw [hpd, hzero i hi]
    exact not_present_zero
  refine ⟨⟨fun pd hpd => ?_, fun pd hpd => ?_, fun pd hpd i hi hp => absurd hp (hnone pd hpd i hi),
    fun pd hpd _ _ i _ hi _ hp => absurd hp (hnone pd hpd i hi)⟩, by simp [hpds]⟩
  · rw [hpds, List.mem_singleton] at hpd
    rw [hpd]
    exact hal
  · rw [hpds, List.mem_singleton] at hpd
    rw [hpd]
    exact hpos

/-- The run lemma. -/
theorem mapRuns_inv (hr : MapRuns s) : s.Inv := by
  refine Runs.Guarded.invariant (fun _ hs => hs.inv) ?_ hr
  intro s a t _ hI hok hs
  exact hI.step hok.1 hok.2 hs

/-- **A directory is a partial map**: in every state and for every directory, `check_VPN` tells where the
    map is defined, `add_mapping` sets one page, `remove_mapping` deletes one and gives back its frame, and a
    new directory starts with the map of the global one.  No other page changes in any directory. -/
theorem directory_isMap (hr : MapRuns s) (hpd : pd ∈ s.pds) : IsMap s pd := by
  have hI := mapRuns_inv hr
  refine ⟨fun v hv => ?_, fun v ppn global write userMode hv hppn hfresh => ?_, fun v hv hno => ?_,
    fun pd' m' hfresh hm u hu => ?_⟩
  · unfold PhysMem.checkVPN pageMap translate pte
    simp only [Option.isSome_map]
    by_cases hp : present (entry s.m.mem pd (v / 1024))
    · rw [if_pos hp]
      by_cases hpw : present (entry s.m.mem (frameOf (entry s.m.mem pd (v / 1024))) (v % 1024))
      · rw [if_pos ⟨hp, hpw⟩, decide_eq_true hpw, Option.isSome_some]
      · rw [if_neg (fun hh => hpw hh.2), decide_eq_false hpw, Option.isSome_none]
    · rw [if_neg hp, if_neg (fun hh => hp hh.1), Option.isSome_none]
  · cases ha : s.m.addMapping pd v ppn global write userMode with
    | some m' =>
      exact Or.inr ⟨m', rfl, (hI.addMapping hpd hv hppn hfresh global write userMode ha).2⟩
    | none =>
      refine Or.inl ⟨rfl, ?_⟩
      unfold PhysMem.addMapping at ha
      simp only [Option.map_eq_none_iff] at ha
      split at ha
      · simp at ha
      · exact Option.map_eq_none_iff.1 ha
  · obtain ⟨m', m₁, hm, -, hupdated, hgive, honly⟩ := hI.removeMapping hpd hv hno
    exact ⟨m', m₁, hm, hupdated, hgive, honly⟩
  · obtain ⟨-, hview, hcopy⟩ := hI.newPageDirectory hfresh hm
    constructor
    · unfold pageMap
      rw [hcopy u hu]
    · unfold pageMap
      rw [hview.translate_eq hpd hu]

/-- The global directory on frame 1, before anything is mapped. -/
def blankDirs : Option Dirs :=
  (PhysMem.init (fun _ => 0) 4096 65536).bind fun m => m.allocFrame.map fun (pd, m) => ⟨m, pd, [pd]⟩

theorem blankDirs_start (h : blankDirs = some s) : s.Start := by
  have hpos : ∀ s ∈ blankDirs, 0 < s.globalPageDirectory := by decide +kernel
  have hs := hpos s h
  obtain ⟨m, -, hrest⟩ := Option.bind_eq_some_iff.1 h
  obtain ⟨⟨pd, m₁⟩, ha, rfl⟩ := Option.map_eq_some_iff.1 hrest
  exact ⟨m, ha, hs, rfl⟩

/-- Frames 1 and 3 are mapped to themselves, as all are in the kernel's own range, and then a directory is
    made, on frame 3. -/
theorem identity_run : ∃ s, MapRuns s ∧ s.pds = [12288, 4096] ∧
    pageMap s.m.mem 12288 1 = some (1, flagBits true false false) ∧
    ∃ m', s.m.removeMapping 12288 3 = some m' ∧ pageMap m'.mem 12288 1 = none := by
  have hrun : (blankDirs.bind fun s₀ => (s₀.step (.addMapping 4096 1 1 true false false)).bind fun s₁ =>
      (s₁.step (.addMapping 4096 3 3 true false false)).bind fun s₂ =>
        (s₂.step .newPageDirectory).bind fun s => (s.m.removeMapping 12288 3).map fun m' =>
          decide ((s₀.pds = [4096] ∧ s₀.Fresh) ∧ (s₁.pds = [4096] ∧ s₁.Fresh) ∧ s₂.Fresh ∧
            s.pds = [12288, 4096] ∧ pageMap s.m.mem 12288 1 = some (1, flagBits true false false) ∧
            pageMap m'.mem 12288 1 = none)) = some true := by decide +kernel
  obtain ⟨s₀, h₀, hrest⟩ := Option.bind_eq_some_iff.1 hrun
  obtain ⟨s₁, h₁, hrest⟩ := Option.bind_eq_some_iff.1 hrest
  obtain ⟨s₂, h₂, hrest⟩ := Option.bind_eq_some_iff.1 hrest
  obtain ⟨s, h₃, hrest⟩ := Option.bind_eq_some_iff.1 hrest
  obtain ⟨m', hm, hvalues⟩ := Option.map_eq_some_iff.1 hrest
  obtain ⟨⟨hpds₀, hfresh₀⟩, ⟨hpds₁, hfresh₁⟩, hfresh₂, hpds, hmap, hnone⟩ := of_decide_eq_true hvalues
  have hr₀ : MapRuns s₀ := Runs.Guarded.start (blankDirs_start h₀)
  have hr₁ : MapRuns s₁ := Runs.Guarded.next (a := MapCall.addMapping 4096 1 1 true false false) hr₀
    ⟨⟨by simp [hpds₀], by decide, by decide, hfresh₀⟩, trivial⟩ h₁
  have hr₂ : MapRuns s₂ := Runs.Guarded.next (a := MapCall.addMapping 4096 3 3 true false false) hr₁
    ⟨⟨by simp [hpds₁], by decide, by decide, hfresh₁⟩, trivial⟩ h₂
  have hr : MapRuns s := Runs.Guarded.next (a := MapCall.newPageDirectory) hr₂ ⟨hfresh₂, trivial⟩ h₃
  exact ⟨s, hr, hpds, hmap, m', hm, hnone⟩

/-- The directory on frame 3 of that run. -/
theorem directory_isMap_identity : ∃ s : Dirs, s.pds = [12288, 4096] ∧
    pageMap s.m.mem 12288 1 = some (1, flagBits true false false) ∧ IsMap s 12288 := by
  obtain ⟨s, hr, hpds, hmap, -⟩ := identity_run
  exact ⟨s, hpds, hmap, directory_isMap hr (by simp [hpds])⟩

/-- Page 3 of the directory on frame 3 is mapped to itself: unmapping it unmaps page 1 as well. -/
theorem directory_unmapsItself :
    ¬ ∀ (s : Dirs) (pd v : Nat) (m' : PhysMem),
      Runs.Guarded Dirs.Start (fun s a t => s.step a = some t) (fun s a => s.Legal a) s → pd ∈ s.pds →
      v < pages → s.m.removeMapping pd v = some m' →
      ∀ u, u < pages → u ≠ v → pageMap m'.mem pd u = pageMap s.m.mem pd u := by
  intro hall
  obtain ⟨s, hr, hpds, hmap, m', hm, hnone⟩ := identity_run
  have hsame := hall s 12288 3 m' (hr.mono fun _ _ hok => hok.1) (by simp [hpds]) (by decide) hm 1
    (by decide) (by decide)
  rw [hnone, hmap] at hsame
  exact absurd hsame (by decide)

end BadApple
