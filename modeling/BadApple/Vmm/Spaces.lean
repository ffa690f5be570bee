/-
  Address spaces that share no frame but the tables of the kernel's own range.

  1. **Slots** — the places that refer to a frame of an address space: the directory itself, its entries
     in the user range, and the entries of the tables these refer to.
  2. **Invariant** — `Spaces m l pds`: over all directories `pds`, every slot refers to a frame in use, no
     two slots refer to the same frame, and the tables of the other directory entries, which all
     directories share, are referred to by no slot.
  3. **Views** — what a directory maps: its entries, and the translation of every page.  Only tables
     matter for it, so writes to other frames leave it alone.
  4. **Edits** — one entry of a table or of a directory is written; a frame becomes part of a space or
     leaves it.
-/
import BadApple.Vmm.Model

namespace BadApple

open Memory

/-! ## Entries -/

variable {m m' m₁ m₂ : PhysMem} {mem mem' : Mem} {l l' l₁ : List Nat} {pds : List Nat}
  {f g p q pd pd' i j k v w : Nat}

theorem frameOf_aligned (w : Nat) : frameOf w % frameSize = 0 := by
  unfold frameOf
  rw [frameSize_eq]
  omega

/-- Flags and frame in one word. -/
theorem or_frame (hw : w < frameSize) (hf : f % frameSize = 0) : w ||| f = f + w := by
  rw [frameSize_eq] at hw hf
  have hshift := Nat.shiftLeft_add_eq_or_of_lt (b := w) (i := 12) (by omega) (f / 4096)
  rw [Nat.shiftLeft_eq] at hshift
  rw [Nat.or_comm, show f = f / 4096 * 2 ^ 12 by omega]
  exact hshift.symm

/-- **An entry put together**: its frame, its flags and whether it is present. -/
theorem entry_parts (hw : w < frameSize) (hf : f % frameSize = 0) :
    frameOf (w ||| f) = f ∧ flagsOf (w ||| f) = w ∧ (present (w ||| f) ↔ present w) := by
  rw [or_frame hw hf]
  unfold frameOf flagsOf present
  rw [frameSize_eq] at *
  omega

theorem entry_parts_lt (hw : w < frameSize) (hf : f % frameSize = 0) (hlt : f < 4294967296) :
    w ||| f < 4294967296 := by
  rw [or_frame hw hf]
  rw [frameSize_eq] at *
  omega

theorem flagsOf_lt (w : Nat) : flagsOf w < frameSize := by
  unfold flagsOf
  exact Nat.mod_lt _ (by decide)

theorem present_flagsOf : present (flagsOf w) ↔ present w := by
  unfold present flagsOf
  rw [frameSize_eq]
  omega

/-- What is kept is read as before. -/
theorem Keeps.entry_eq (h : Keeps mem' mem f) (hk : k < 1024) : entry mem' f k = entry mem f k := by
  have hsize := frameSize_eq
  exact Same.word_eq h (by omega) (by omega)

namespace PhysMem

theorem entry_setEntry (hw : w < 4294967296) : entry (m.setEntry f k w).mem f k = w := word_setWord hw

/-- An entry written leaves all others. -/
theorem entry_setEntry_of_ne (hf : f % frameSize = 0) (hg : g % frameSize = 0) (hk : k < 1024)
    (hj : j < 1024) (hne : g ≠ f ∨ j ≠ k) : entry (m.setEntry f k w).mem g j = entry m.mem g j := by
  apply word_setWord_of_apart
  rw [frameSize_eq] at hf hg
  omega

theorem keeps_setEntry (hf : f % frameSize = 0) (hg : g % frameSize = 0) (hk : k < 1024) (hne : g ≠ f) :
    Keeps (m.setEntry f k w).mem m.mem g := by
  apply same_setWord
  have hsize := frameSize_eq
  rcases frames_apart hf hg (Ne.symm hne) with h | h
  · exact Or.inl (by omega)
  · exact Or.inr (by omega)

end PhysMem

/-- A write to a frame in use leaves the free frames alone. -/
theorem Pool.setEntry (hP : Pool m l) (hf : InUse m l f) (hk : k < 1024) (w : Nat) :
    Pool (m.setEntry f k w) l :=
  hP.writeFrame hf fun _ hg hne => PhysMem.keeps_setEntry hf.aligned hg hk hne

/-! ## What a directory maps -/

/-- Entries of a directory for the user range. -/
def isUser (i : Nat) : Prop := PhysMem.userPDI ≤ i ∧ i < PhysMem.userPDI + PhysMem.userPDIs

instance (i : Nat) : Decidable (isUser i) := inferInstanceAs (Decidable (_ ∧ _))

theorem isUser_iff : isUser i ↔ 512 ≤ i ∧ i < 960 := Iff.rfl

/-- The page-table entry for page `j` of directory entry `i`. -/
def pte (mem : Mem) (pd i j : Nat) : Nat := entry mem (frameOf (entry mem pd i)) j

/-- The entry through which `pd` translates a virtual page, if both levels are present. -/
def translate (mem : Mem) (pd vpn : Nat) : Option Nat :=
  if present (entry mem pd (vpn / 1024)) ∧ present (pte mem pd (vpn / 1024) (vpn % 1024)) then
    some (pte mem pd (vpn / 1024) (vpn % 1024))
  else none

/-- How many virtual pages there are. -/
def pages : Nat := 1024 * 1024

theorem translate_eq_some : translate mem pd v = some w ↔
    present (entry mem pd (v / 1024)) ∧ present w ∧ pte mem pd (v / 1024) (v % 1024) = w := by
  unfold translate
  by_cases h : present (entry mem pd (v / 1024)) ∧ present (pte mem pd (v / 1024) (v % 1024))
  · rw [if_pos h, Option.some.injEq]
    constructor
    · rintro rfl
      exact ⟨h.1, h.2, rfl⟩
    · exact fun hh => hh.2.2
  · rw [if_neg h]
    constructor
    · intro hh
      simp at hh
    · rintro ⟨h1, h2, rfl⟩
      exact absurd ⟨h1, h2⟩ h

/-- A translation depends on two entries. -/
theorem translate_congr (hpde : entry mem' pd (v / 1024) = entry mem pd (v / 1024))
    (hpte : present (entry mem pd (v / 1024)) →
      pte mem' pd (v / 1024) (v % 1024) = pte mem pd (v / 1024) (v % 1024)) :
    translate mem' pd v = translate mem pd v := by
  unfold translate
  rw [hpde]
  by_cases h : present (entry mem pd (v / 1024))
  · rw [hpte h]
  · rw [if_neg (fun hh => h hh.1), if_neg (fun hh => h hh.1)]

/-- A place that refers to a frame of the address space `pd`. -/
inductive Slot where
  | dir (pd : Nat)
  | table (pd i : Nat)
  | page (pd v : Nat)
deriving DecidableEq, Repr

/-- The directory of a slot. -/
def Slot.space : Slot → Nat
  | .dir pd | .table pd _ | .page pd _ => pd

/-- A slot refers to a frame. -/
def Refers (mem : Mem) : Slot → Nat → Prop
  | .dir pd, f => f = pd
  | .table pd i, f => isUser i ∧ present (entry mem pd i) ∧ f = frameOf (entry mem pd i)
  | .page pd v, f => isUser (v / 1024) ∧ ∃ w, translate mem pd v = some w ∧ f = frameOf w

/-- Directories, and tables that they refer to. -/
def IsTable (mem : Mem) (pds : List Nat) (f : Nat) : Prop :=
  ∃ pd ∈ pds, f = pd ∨ ∃ i, i < 1024 ∧ present (entry mem pd i) ∧ f = frameOf (entry mem pd i)

/-- **The address spaces `pds` share nothing but the kernel's tables.** -/
structure Spaces (m : PhysMem) (l pds : List Nat) : Prop where
  pool : Pool m l
  inUse : ∀ s f, s.space ∈ pds → Refers m.mem s f → InUse m l f
  single : ∀ s s' f, s.space ∈ pds → s'.space ∈ pds → Refers m.mem s f → Refers m.mem s' f → s = s'
  shared : ∀ pd ∈ pds, ∀ i, i < 1024 → ¬ isUser i → present (entry m.mem pd i) →
    InUse m l (frameOf (entry m.mem pd i)) ∧
      ∀ s, s.space ∈ pds → ¬ Refers m.mem s (frameOf (entry m.mem pd i))

/-- No directory maps anything else. -/
structure SameView (m' m : PhysMem) (pds : List Nat) : Prop where
  dirs : ∀ pd ∈ pds, ∀ i, i < 1024 → entry m'.mem pd i = entry m.mem pd i
  tables : ∀ pd ∈ pds, ∀ i, i < 1024 → present (entry m.mem pd i) → ∀ j, j < 1024 →
    pte m'.mem pd i j = pte m.mem pd i j

/-! ## Consequences -/

/-- Tables are in use. -/
theorem Spaces.isTable_inUse (hS : Spaces m l pds) (hf : IsTable m.mem pds f) : InUse m l f := by
  obtain ⟨pd, hpd, rfl | ⟨i, hi, hp, rfl⟩⟩ := hf
  · exact hS.inUse (.dir f) f hpd rfl
  · by_cases hu : isUser i
    · exact hS.inUse (.table pd i) _ hpd ⟨hu, hp, rfl⟩
    · exact (hS.shared pd hpd i hi hu hp).1

/-- The frame of a mapped page is no table. -/
theorem Spaces.page_not_table (hS : Spaces m l pds) (hpd : pd ∈ pds) (hr : Refers m.mem (.page pd v) f) :
    ¬ IsTable m.mem pds f := by
  rintro ⟨pd', hpd', rfl | ⟨i, hi, hp, rfl⟩⟩
  · exact Slot.noConfusion (hS.single (.page pd v) (.dir f) f hpd hpd' hr rfl)
  · by_cases hu : isUser i
    · exact Slot.noConfusion (hS.single (.page pd v) (.table pd' i) _ hpd hpd' hr ⟨hu, hp, rfl⟩)
    · exact (hS.shared pd' hpd' i hi hu hp).2 (.page pd v) hpd hr

theorem user_vpn_lt (hu : isUser (v / 1024)) : v < pages := by
  have := isUser_iff.1 hu
  unfold pages
  omega

theorem vpn_lt (hv : v < pages) : v / 1024 < 1024 := by
  unfold pages at hv
  omega

/-- Writes outside of tables change no view. -/
theorem sameView_of_keeps (h : ∀ f, IsTable m.mem pds f → Keeps m'.mem m.mem f) : SameView m' m pds := by
  have hdirs : ∀ pd ∈ pds, ∀ i, i < 1024 → entry m'.mem pd i = entry m.mem pd i :=
    fun pd hpd i hi => (h pd ⟨pd, hpd, Or.inl rfl⟩).entry_eq hi
  refine ⟨hdirs, fun pd hpd i hi hp j hj => ?_⟩
  unfold pte
  rw [hdirs pd hpd i hi]
  exact (h _ ⟨pd, hpd, Or.inr ⟨i, hi, hp, rfl⟩⟩).entry_eq hj

theorem SameView.translate_eq (h : SameView m' m pds) (hpd : pd ∈ pds) (hv : v < pages) :
    translate m'.mem pd v = translate m.mem pd v :=
  translate_congr (h.dirs pd hpd _ (vpn_lt hv)) fun hp =>
    h.tables pd hpd _ (vpn_lt hv) hp _ (Nat.mod_lt _ (by decide))

theorem SameView.refl (m : PhysMem) (pds : List Nat) : SameView m m pds :=
  ⟨fun _ _ _ _ => rfl, fun _ _ _ _ _ _ _ => rfl⟩

/-! ## Edits of tables -/

theorem isUser_lt (hu : isUser i) : i < 1024 := by
  have := isUser_iff.1 hu
  omega

/-- A directory is in use, hence a frame. -/
theorem Spaces.dir_aligned (hS : Spaces m l pds) (hq : q ∈ pds) : q % frameSize = 0 :=
  (hS.inUse (.dir q) q hq rfl).aligned

/-- A user table is no directory. -/
theorem Spaces.table_ne_dir (hS : Spaces m l pds) (hq : q ∈ pds) (hpd : pd ∈ pds) (hu : isUser i)
    (hp : present (entry m.mem q i)) : pd ≠ frameOf (entry m.mem q i) := by
  intro heq
  exact Slot.noConfusion (hS.single (.dir pd) (.table q i) _ hpd hq heq.symm ⟨hu, hp, rfl⟩)

/-- A user table belongs to one directory entry. -/
theorem Spaces.table_single (hS : Spaces m l pds) (hq : q ∈ pds) (hpd : pd ∈ pds) (hu : isUser i)
    (hp : present (entry m.mem q i)) (hk : k < 1024) (hpk : present (entry m.mem pd k))
    (heq : frameOf (entry m.mem pd k) = frameOf (entry m.mem q i)) : pd = q ∧ k = i := by
  have hr : Refers m.mem (.table q i) (frameOf (entry m.mem pd k)) := ⟨hu, hp, heq⟩
  by_cases huk : isUser k
  · have hslot := hS.single (.table pd k) (.table q i) _ hpd hq ⟨huk, hpk, rfl⟩ hr
    exact Slot.table.inj hslot
  · exact absurd hr ((hS.shared pd hpd k hk huk hpk).2 (.table q i) hq)

/-- **Writing an entry of a user table** changes one translation. -/
theorem Spaces.view_setPte (hS : Spaces m l pds) (hv : SameView m₁ m pds) (hq : q ∈ pds)
    (hu : isUser i) (hp : present (entry m.mem q i)) (hj : j < 1024) (hw : w < 4294967296) :
    (∀ pd ∈ pds, ∀ k, k < 1024 →
      entry (m₁.setEntry (frameOf (entry m.mem q i)) j w).mem pd k = entry m.mem pd k) ∧
    ∀ pd ∈ pds, ∀ v, v < pages →
      translate (m₁.setEntry (frameOf (entry m.mem q i)) j w).mem pd v =
        if pd = q ∧ v = 1024 * i + j then (if present w then some w else none)
        else translate m.mem pd v := by
  have hdirs : ∀ pd ∈ pds, ∀ k, k < 1024 →
      entry (m₁.setEntry (frameOf (entry m.mem q i)) j w).mem pd k = entry m.mem pd k := by
    intro pd hpd k hk
    rw [PhysMem.entry_setEntry_of_ne (frameOf_aligned _) (hS.dir_aligned hpd) hj hk
      (Or.inl (hS.table_ne_dir hq hpd hu hp)), hv.dirs pd hpd k hk]
  refine ⟨hdirs, fun pd hpd v hvp => ?_⟩
  by_cases hself : pd = q ∧ v = 1024 * i + j
  · obtain ⟨rfl, rfl⟩ := hself
    rw [if_pos ⟨rfl, rfl⟩]
    have hdiv : (1024 * i + j) / 1024 = i := by omega
    have hmod : (1024 * i + j) % 1024 = j := by omega
    unfold translate pte
    rw [hdiv, hmod, hdirs pd hpd i (isUser_lt hu), PhysMem.entry_setEntry hw]
    by_cases hpw : present w
    · rw [if_pos ⟨hp, hpw⟩, if_pos hpw]
    · rw [if_neg (fun hh => hpw hh.2), if_neg hpw]
  · rw [if_neg hself]
    have hlt := vpn_lt hvp
    refine translate_congr (hdirs pd hpd _ hlt) fun hpv => ?_
    have htables := hv.tables pd hpd _ hlt hpv (v % 1024) (Nat.mod_lt _ (by decide))
    unfold pte at htables ⊢
    rw [hdirs pd hpd _ hlt, PhysMem.entry_setEntry_of_ne (frameOf_aligned _) (frameOf_aligned _) hj
      (Nat.mod_lt _ (by decide)), ← htables, hv.dirs pd hpd _ hlt]
    by_cases heq : frameOf (entry m.mem pd (v / 1024)) = frameOf (entry m.mem q i)
    · obtain ⟨rfl, hi⟩ := hS.table_single hq hpd hu hp hlt hpv heq
      refine Or.inr fun hmod => hself ⟨rfl, ?_⟩
      omega
    · exact Or.inl heq

/-- **Writing a user entry of a directory** changes that entry and, if the new table is empty, leaves its
    pages unmapped. -/
theorem Spaces.view_setPde (hS : Spaces m l pds) (hq : q ∈ pds) (hu : isUser i) (hw : w < 4294967296)
    (hsame : ∀ pd ∈ pds, ∀ k, k < 1024 → entry m₁.mem pd k = entry m.mem pd k)
    (htables : ∀ pd ∈ pds, ∀ k, k < 1024 → present (entry m.mem pd k) → ¬ (pd = q ∧ k = i) →
      ∀ j, j < 1024 → pte m₁.mem pd k j = pte m.mem pd k j)
    (hempty : present w → frameOf w ≠ q ∧ ∀ j, j < 1024 → ¬ present (entry m₁.mem (frameOf w) j)) :
    (∀ pd ∈ pds, ∀ k, k < 1024 →
      entry (m₁.setEntry q i w).mem pd k = if pd = q ∧ k = i then w else entry m.mem pd k) ∧
    ∀ pd ∈ pds, ∀ v, v < pages →
      translate (m₁.setEntry q i w).mem pd v =
        if pd = q ∧ v / 1024 = i then none else translate m.mem pd v := by
  have hal := hS.dir_aligned hq
  have hdirs : ∀ pd ∈ pds, ∀ k, k < 1024 →
      entry (m₁.setEntry q i w).mem pd k = if pd = q ∧ k = i then w else entry m.mem pd k := by
    intro pd hpd k hk
    by_cases hself : pd = q ∧ k = i
    · obtain ⟨rfl, rfl⟩ := hself
      rw [if_pos ⟨rfl, rfl⟩, PhysMem.entry_setEntry hw]
    · rw [if_neg hself, PhysMem.entry_setEntry_of_ne hal (hS.dir_aligned hpd) (isUser_lt hu) hk,
        hsame pd hpd k hk]
      by_cases hpq : pd = q
      · exact Or.inr fun hki => hself ⟨hpq, hki⟩
      · exact Or.inl hpq
  refine ⟨hdirs, fun pd hpd v hvp => ?_⟩
  have hlt := vpn_lt hvp
  have hdir := hdirs pd hpd _ hlt
  by_cases hself : pd = q ∧ v / 1024 = i
  · rw [if_pos hself]
    rw [if_pos hself] at hdir
    unfold translate
    rw [if_neg]
    rintro ⟨h1, h2⟩
    rw [hdir] at h1
    obtain ⟨hne, hnone⟩ := hempty h1
    unfold pte at h2
    rw [hdir, PhysMem.entry_setEntry_of_ne hal (frameOf_aligned _) (isUser_lt hu)
      (Nat.mod_lt _ (by decide)) (Or.inl hne)] at h2
    exact hnone _ (Nat.mod_lt _ (by decide)) h2
  · rw [if_neg hself]
    rw [if_neg hself] at hdir
    refine translate_congr hdir fun hpv => ?_
    have htable := htables pd hpd _ hlt hpv hself (v % 1024) (Nat.mod_lt _ (by decide))
    unfold pte at htable ⊢
    rw [hdir, PhysMem.entry_setEntry_of_ne hal (frameOf_aligned _) (isUser_lt hu)
      (Nat.mod_lt _ (by decide)), ← htable, hsame pd hpd _ hlt]
    apply Or.inl
    by_cases huv : isUser (v / 1024)
    · exact Ne.symm (hS.table_ne_dir hpd hq huv hpv)
    · intro heq
      exact (hS.shared pd hpd _ hlt huv hpv).2 (.dir q) hq heq

/-! ## Frames that leave or join a space -/

/-- **Fewer references.**  What is still referred to must still be in use. -/
theorem Spaces.shrink (hS : Spaces m l pds) (hP : Pool m' l')
    (hr : ∀ s f, s.space ∈ pds → Refers m'.mem s f → Refers m.mem s f ∧ InUse m' l' f)
    (hshared : ∀ pd ∈ pds, ∀ i, i < 1024 → ¬ isUser i → entry m'.mem pd i = entry m.mem pd i)
    (hin : ∀ f, InUse m l f → (∀ s, s.space ∈ pds → ¬ Refers m.mem s f) → InUse m' l' f) :
    Spaces m' l' pds := by
  refine ⟨hP, fun s f hs hf => (hr s f hs hf).2, fun s s' f hs hs' hf hf' => ?_,
    fun pd hpd i hi hu hp => ?_⟩
  · exact hS.single s s' f hs hs' (hr s f hs hf).1 (hr s' f hs' hf').1
  · rw [hshared pd hpd i hi hu] at hp ⊢
    obtain ⟨h1, h2⟩ := hS.shared pd hpd i hi hu hp
    exact ⟨hin _ h1 h2, fun s hs hf => h2 s hs (hr s _ hs hf).1⟩

/-- A frame in use that no space has a part in. -/
structure Loose (m : PhysMem) (l pds : List Nat) (p : Nat) : Prop where
  inUse : InUse m l p
  notTable : ¬ IsTable m.mem pds p
  notReferred : ∀ s, s.space ∈ pds → ¬ Refers m.mem s p

/-- **One more reference**, to a frame that was loose. -/
theorem Spaces.grow (hS : Spaces m l pds) (hP : Pool m' l') {r : Slot} (hloose : Loose m l pds p)
    (hr : ∀ s f, s.space ∈ pds → Refers m'.mem s f → Refers m.mem s f ∨ (s = r ∧ f = p))
    (hshared : ∀ pd ∈ pds, ∀ i, i < 1024 → ¬ isUser i → entry m'.mem pd i = entry m.mem pd i)
    (hin : ∀ f, InUse m l f → InUse m' l' f) : Spaces m' l' pds := by
  refine ⟨hP, fun s f hs hf => ?_, fun s s' f hs hs' hf hf' => ?_, fun pd hpd i hi hu hp => ?_⟩
  · rcases hr s f hs hf with h | ⟨-, rfl⟩
    · exact hin f (hS.inUse s f hs h)
    · exact hin f hloose.inUse
  · rcases hr s f hs hf with h | ⟨h, hfp⟩
    · rcases hr s' f hs' hf' with h' | ⟨-, rfl⟩
      · exact hS.single s s' f hs hs' h h'
      · exact absurd h (hloose.notReferred s hs)
    · rcases hr s' f hs' hf' with h' | ⟨h', -⟩
      · rw [hfp] at h'
        exact absurd h' (hloose.notReferred s' hs')
      · rw [h, h']
  · rw [hshared pd hpd i hi hu] at hp ⊢
    obtain ⟨h1, h2⟩ := hS.shared pd hpd i hi hu hp
    refine ⟨hin _ h1, fun s hs hf => ?_⟩
    rcases hr s _ hs hf with h | ⟨-, heq⟩
    · exact h2 s hs h
    · exact hloose.notTable ⟨pd, hpd, Or.inr ⟨i, hi, hp, heq.symm⟩⟩

/-- The same view refers to the same frames. -/
theorem SameView.refers_iff (h : SameView m' m pds) {s : Slot} (hs : s.space ∈ pds) :
    Refers m'.mem s f ↔ Refers m.mem s f := by
  cases s with
  | dir pd => exact Iff.rfl
  | table pd i =>
    have hs : pd ∈ pds := hs
    simp only [Refers]
    constructor
    · rintro ⟨hu, hp, hf⟩
      rw [h.dirs pd hs i (isUser_lt hu)] at hp hf
      exact ⟨hu, hp, hf⟩
    · rintro ⟨hu, hp, hf⟩
      rw [← h.dirs pd hs i (isUser_lt hu)] at hp hf
      exact ⟨hu, hp, hf⟩
  | page pd v =>
    have hs : pd ∈ pds := hs
    simp only [Refers]
    constructor
    · rintro ⟨hu, w, hw, hf⟩
      rw [h.translate_eq hs (user_vpn_lt hu)] at hw
      exact ⟨hu, w, hw, hf⟩
    · rintro ⟨hu, w, hw, hf⟩
      rw [← h.translate_eq hs (user_vpn_lt hu)] at hw
      exact ⟨hu, w, hw, hf⟩

end BadApple
