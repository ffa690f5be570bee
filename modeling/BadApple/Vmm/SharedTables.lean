/-
  The page tables of the shared region, which all directories have in common.

  1. **Invariant** — `SharedTables`: each directory refers to the same table for each part of the region,
     and these tables are frames of their own.  A page that has been mapped since the start has a frame of
     its own, which is no table.
  2. **Steps** — a frame is handed out; a page is mapped to it; bytes are written to the frame of a page.
     Each changes at most one entry.
-/
import BadApple.Vmm.Grow

namespace BadApple

open Memory

variable {m m' : PhysMem} {mem mem' : Mem} {l l' : List Nat} {cr3 table : Nat → Nat} {old : Nat → Prop}
  {f p t u v w flags : Nat}

/-! ## The invariant -/

/-- Entries of a directory for the shared region. -/
def IsSharedDir (i : Nat) : Prop := 960 ≤ i ∧ i < 1024

/-- Pages of the shared region. -/
def IsShared (v : Nat) : Prop := IsSharedDir (v / 1024)

/-- Shared addresses are on shared pages. -/
theorem isShared_of_address {va : Nat} (h : 0xF0000000 ≤ va) (h' : va < 4294967296) :
    IsShared (va / frameSize) := by
  unfold IsShared IsSharedDir
  rw [frameSize_eq]
  omega

/-- The entry for a shared page. -/
def sharedPte (table : Nat → Nat) (mem : Mem) (v : Nat) : Nat := entry mem (table (v / 1024)) (v % 1024)

/-- **The tables of the shared region**, for the directories `cr3`; the pages `old` are those that were
    there at the start. -/
structure SharedTables (m : PhysMem) (l : List Nat) (cr3 table : Nat → Nat) (old : Nat → Prop) : Prop where
  pool : Pool m l
  dir : ∀ t, InUse m l (cr3 t)
  pde : ∀ t i, IsSharedDir i → present (entry m.mem (cr3 t) i) ∧ frameOf (entry m.mem (cr3 t) i) = table i
  inUse : ∀ i, IsSharedDir i → InUse m l (table i)
  notDir : ∀ t i, IsSharedDir i → table i ≠ cr3 t
  single : ∀ i j, IsSharedDir i → IsSharedDir j → table i = table j → i = j
  stays : ∀ v, IsShared v → old v → present (sharedPte table m.mem v)
  page : ∀ v, IsShared v → ¬ old v → present (sharedPte table m.mem v) →
    InUse m l (frameOf (sharedPte table m.mem v)) ∧ (∀ t, frameOf (sharedPte table m.mem v) ≠ cr3 t) ∧
      ∀ i, IsSharedDir i → frameOf (sharedPte table m.mem v) ≠ table i
  pageSingle : ∀ u v, IsShared u → IsShared v → ¬ old u → ¬ old v → present (sharedPte table m.mem u) →
    present (sharedPte table m.mem v) → frameOf (sharedPte table m.mem u) = frameOf (sharedPte table m.mem v) →
    u = v

/-- A frame that is no table. -/
structure Plain (cr3 table : Nat → Nat) (f : Nat) : Prop where
  notDir : ∀ t, f ≠ cr3 t
  notTable : ∀ i, IsSharedDir i → f ≠ table i

namespace SharedTables

/-- What a directory translates. -/
theorem translate_eq (h : SharedTables m l cr3 table old) (hv : IsShared v) (t : Nat) :
    translate m.mem (cr3 t) v =
      if present (sharedPte table m.mem v) then some (sharedPte table m.mem v) else none := by
  obtain ⟨hpresent, hframe⟩ := h.pde t _ hv
  unfold translate pte
  rw [hframe]
  by_cases hpte : present (entry m.mem (table (v / 1024)) (v % 1024))
  · rw [if_pos ⟨hpresent, hpte⟩]
    exact (if_pos hpte).symm
  · rw [if_neg fun hh => hpte hh.2]
    exact (if_neg hpte).symm

/-- What `check_VPN` sees. -/
theorem checkVPN_iff (h : SharedTables m l cr3 table old) (hv : IsShared v) (t : Nat) :
    m.checkVPN (cr3 t) v = true ↔ present (sharedPte table m.mem v) := by
  obtain ⟨hpresent, hframe⟩ := h.pde t _ hv
  unfold PhysMem.checkVPN
  simp only
  rw [if_pos hpresent, hframe, decide_eq_true_iff]
  rfl

/-- Memory that changes outside of the tables. -/
theorem congr (h : SharedTables m l cr3 table old) (hP : Pool m' l')
    (hin : ∀ f, InUse m l f → InUse m' l' f) (hdir : ∀ t, Keeps m'.mem m.mem (cr3 t))
    (htable : ∀ i, IsSharedDir i → Keeps m'.mem m.mem (table i)) :
    (∀ v, IsShared v → sharedPte table m'.mem v = sharedPte table m.mem v) ∧
      SharedTables m' l' cr3 table old := by
  have hpte : ∀ v, IsShared v → sharedPte table m'.mem v = sharedPte table m.mem v :=
    fun v hv => (htable _ hv).entry_eq (Nat.mod_lt _ (by decide))
  refine ⟨hpte, hP, fun t => hin _ (h.dir t), fun t i hi => ?_, fun i hi => hin _ (h.inUse i hi), h.notDir,
    h.single, fun v hv ho => ?_, fun v hv ho hp => ?_, fun u v hu hv hou hov hpu hpv heq => ?_⟩
  · rw [(hdir t).entry_eq hi.2]
    exact h.pde t i hi
  · rw [hpte v hv]
    exact h.stays v hv ho
  · rw [hpte v hv] at hp ⊢
    obtain ⟨huse, hnot⟩ := h.page v hv ho hp
    exact ⟨hin _ huse, hnot⟩
  · rw [hpte u hu] at hpu heq
    rw [hpte v hv] at hpv heq
    exact h.pageSingle u v hu hv hou hov hpu hpv heq

/-! ## Steps -/

/-- **A frame is handed out**: it is no table, and no page has it. -/
theorem alloc (h : SharedTables m l cr3 table old) (ha : Allocated m l p m' l') :
    (∀ v, IsShared v → sharedPte table m'.mem v = sharedPte table m.mem v) ∧
      SharedTables m' l' cr3 table old ∧ Plain cr3 table p ∧
      ∀ v, IsShared v → ¬ old v → present (sharedPte table m.mem v) → frameOf (sharedPte table m.mem v) ≠ p := by
  obtain ⟨hpte, hT⟩ := h.congr ha.pool (fun f hf => ha.stays hf) (fun t => ha.keeps_inUse (h.dir t))
    fun i hi => ha.keeps_inUse (h.inUse i hi)
  refine ⟨hpte, hT, ⟨fun t => Ne.symm (ha.ne (h.dir t)), fun i hi => Ne.symm (ha.ne (h.inUse i hi))⟩, ?_⟩
  exact fun v hv ho hp => ha.ne (h.page v hv ho hp).1

/-- **Bytes are written to a frame that is no table.** -/
theorem write (h : SharedTables m l cr3 table old) (hf : InUse m l f) (hplain : Plain cr3 table f)
    (hk : ∀ g, g % frameSize = 0 → g ≠ f → Keeps mem' m.mem g) :
    (∀ v, IsShared v → sharedPte table mem' v = sharedPte table m.mem v) ∧
      SharedTables { m with mem := mem' } l cr3 table old :=
  h.congr (h.pool.writeFrame hf hk) (fun _ hf => hf.congr rfl)
    (fun t => hk _ (h.dir t).aligned (Ne.symm (hplain.notDir t)))
    fun i hi => hk _ (h.inUse i hi).aligned (Ne.symm (hplain.notTable i hi))

/-- The entries after one of them has been written. -/
theorem sharedPte_set (h : SharedTables m l cr3 table old) (hu : IsShared u) (hv : IsShared v)
    (hw : w < 4294967296) :
    sharedPte table (m.setEntry (table (v / 1024)) (v % 1024) w).mem u
      = if u = v then w else sharedPte table m.mem u := by
  have hk : v % 1024 < 1024 := Nat.mod_lt _ (by decide)
  have hj : u % 1024 < 1024 := Nat.mod_lt _ (by decide)
  unfold sharedPte
  by_cases huv : u = v
  · subst huv
    rw [if_pos rfl, PhysMem.entry_setEntry hw]
  · rw [if_neg huv, PhysMem.entry_setEntry_of_ne (h.inUse _ hv).aligned (h.inUse _ hu).aligned hk hj]
    by_cases htable : u / 1024 = v / 1024
    · right
      intro hmod
      exact huv (by omega)
    · left
      exact fun heq => htable (h.single _ _ hu hv heq)

/-- **A page is mapped** to a frame that nobody has. -/
theorem map (h : SharedTables m l cr3 table old) (hv : IsShared v) (hp : InUse m l p)
    (hplain : Plain cr3 table p)
    (hno : ∀ u, IsShared u → ¬ old u → present (sharedPte table m.mem u) →
      frameOf (sharedPte table m.mem u) ≠ p)
    (hflags : flags < frameSize) (hpresent : present flags) :
    SharedTables (m.setEntry (table (v / 1024)) (v % 1024) (flags ||| p)) l cr3 table old := by
  obtain ⟨hframe, -, hpres⟩ := entry_parts hflags hp.aligned
  have hw : flags ||| p < 4294967296 := entry_parts_lt hflags hp.aligned (hp.lt_word h.pool)
  have hk : v % 1024 < 1024 := Nat.mod_lt _ (by decide)
  have hset : ∀ u, IsShared u → sharedPte table (m.setEntry (table (v / 1024)) (v % 1024) (flags ||| p)).mem u
      = if u = v then flags ||| p else sharedPte table m.mem u := fun u hu => h.sharedPte_set hu hv hw
  have hdir : ∀ t, Keeps (m.setEntry (table (v / 1024)) (v % 1024) (flags ||| p)).mem m.mem (cr3 t) :=
    fun t => PhysMem.keeps_setEntry (h.inUse _ hv).aligned (h.dir t).aligned hk (Ne.symm (h.notDir t _ hv))
  refine ⟨h.pool.setEntry (h.inUse _ hv) hk _, fun t => (h.dir t).congr rfl, fun t i hi => ?_,
    fun i hi => (h.inUse i hi).congr rfl, h.notDir, h.single, fun u hu ho => ?_, fun u hu ho hpu => ?_,
    fun u u' hu hu' ho ho' hpu hpu' heq => ?_⟩
  · rw [(hdir t).entry_eq hi.2]
    exact h.pde t i hi
  · rw [hset u hu]
    by_cases huv : u = v
    · rw [if_pos huv]
      exact hpres.2 hpresent
    · rw [if_neg huv]
      exact h.stays u hu ho
  · rw [hset u hu] at hpu ⊢
    by_cases huv : u = v
    · rw [if_pos huv, hframe]
      exact ⟨hp.congr rfl, hplain.notDir, hplain.notTable⟩
    · rw [if_neg huv] at hpu ⊢
      obtain ⟨huse, hnot⟩ := h.page u hu ho hpu
      exact ⟨huse.congr rfl, hnot⟩
  · rw [hset u hu] at hpu heq
    rw [hset u' hu'] at hpu' heq
    by_cases huv : u = v
    · by_cases huv' : u' = v
      · rw [huv, huv']
      · rw [if_pos huv, if_neg huv', hframe] at heq
        rw [if_neg huv'] at hpu'
        exact absurd heq.symm (hno u' hu' ho' hpu')
    · rw [if_neg huv] at hpu heq
      by_cases huv' : u' = v
      · rw [if_pos huv', hframe] at heq
        exact absurd heq (hno u hu ho hpu)
      · rw [if_neg huv'] at hpu' heq
        exact h.pageSingle u u' hu hu' ho ho' hpu hpu' heq

/-- `add_mapping` of a shared page writes its entry. -/
theorem addMapping_eq (h : SharedTables m l cr3 table old) (hv : IsShared v) (hp : InUse m l p) (t : Nat)
    (global write userMode : Bool) : m.addMapping (cr3 t) v (p / frameSize) global write userMode =
      some (m.setEntry (table (v / 1024)) (v % 1024) (flagBits global write userMode ||| p)) := by
  obtain ⟨hpresent, hframe⟩ := h.pde t _ hv
  unfold PhysMem.addMapping
  simp only
  rw [hp.ppn_mul h.pool, if_pos hpresent, hframe, Option.map_some]

end SharedTables

/-- Page `v` has been mapped to a new frame `p` of zeros, and nothing else has changed. -/
structure SharedMapped (m : PhysMem) (l : List Nat) (cr3 table : Nat → Nat) (old : Nat → Prop) (v p : Nat)
    (m' : PhysMem) : Prop where
  tables : ∃ l', SharedTables m' l' cr3 table old
  present : present (sharedPte table m'.mem v)
  frame : frameOf (sharedPte table m'.mem v) = p
  other : ∀ u, IsShared u → u ≠ v → sharedPte table m'.mem u = sharedPte table m.mem u
  zero : ∀ k, k < frameSize → m'.mem (p + k) = 0
  keeps : ∀ f, InUse m l f → Plain cr3 table f → Keeps m'.mem m.mem f

/-- **`alloc_frame` and `add_mapping`** map a page to a new frame. -/
theorem SharedTables.install (h : SharedTables m l cr3 table old) (hv : IsShared v)
    (halloc : m.allocFrame = some (p, m')) : ∃ m'',
      m'.addMapping (cr3 t) v (p / frameSize) false true true = some m'' ∧
      SharedMapped m l cr3 table old v p m'' := by
  obtain ⟨-, -, l', -, ha⟩ := h.pool.alloc_paid.of_some halloc
  simp only at ha
  obtain ⟨hpte, hT, hplain, hno⟩ := h.alloc ha
  have hin : InUse m' l' p := (ha.inUse p).2 (Or.inr rfl)
  obtain ⟨hflags, hpresent⟩ := flagBits_parts false true true
  obtain ⟨hframe, -, hpres⟩ := entry_parts hflags hin.aligned
  have hset : ∀ u, IsShared u →
      sharedPte table (m'.setEntry (table (v / 1024)) (v % 1024) (flagBits false true true ||| p)).mem u =
        if u = v then flagBits false true true ||| p else sharedPte table m'.mem u :=
    fun u hu => hT.sharedPte_set hu hv (entry_parts_lt hflags hin.aligned ha.lt)
  have hkeeps : ∀ f, f % frameSize = 0 → Plain cr3 table f →
      Keeps (m'.setEntry (table (v / 1024)) (v % 1024) (flagBits false true true ||| p)).mem m'.mem f :=
    fun f hf hfp => PhysMem.keeps_setEntry (hT.inUse _ hv).aligned hf (Nat.mod_lt _ (by decide))
      (hfp.notTable _ hv)
  refine ⟨_, hT.addMapping_eq hv hin t false true true, ⟨l', ?_⟩, ?_, ?_, fun u hu hne => ?_, fun k hk => ?_,
    fun f hf hfp => ?_⟩
  · refine hT.map hv hin hplain (fun u hu ho hp => ?_) hflags hpresent
    rw [hpte u hu] at hp ⊢
    exact hno u hu ho hp
  · rw [hset v hv, if_pos rfl]
    exact hpres.2 hpresent
  · rw [hset v hv, if_pos rfl, hframe]
  · rw [hset u hu, if_neg hne, hpte u hu]
  · rw [hkeeps p hin.aligned hplain (p + k) (by omega) (by omega)]
    exact ha.zero k hk
  · exact Keeps.trans (hkeeps f hf.aligned hfp) (ha.keeps_inUse hf)

end BadApple
