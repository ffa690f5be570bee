/-
  Destroying the TCB of a finished thread.

  1. **The source** — `~TCB` drops the thread's `VME`, whose entries unmap their pages, then gives back
     the page tables of the user range and the directory.
  2. **The defect** — an entry's destructor unmaps its pages from the directory in `CR3`, which is that of
     the running thread and not of the one that is destroyed.  Pages of the running thread at the same
     addresses are lost, and those of the dead thread are never given back.
  3. **Effects** — `Unmapped` and `Cleared`: what the two loops do, composed along the loops.
  4. **The result** — `destroy_exact`: the destructor does what it should exactly when nothing is mapped in
     either place.
-/
import Mathlib.Data.List.Nodup
import BadApple.Vmm.Fault

namespace BadApple

open Memory

variable {m m' m₁ m₂ : PhysMem} {l l' l₁ l₂ pds : List Nat} {f g p q pd i j k v w vpn : Nat}
  {V V₁ V₂ : Nat → Prop}

/-! ## Unmapping pages -/

/-- The pages `V` of directory `q` have been unmapped, and their frames given back. -/
structure Unmapped (pds : List Nat) (q : Nat) (V : Nat → Prop) (m : PhysMem) (l : List Nat)
    (m' : PhysMem) (l' : List Nat) : Prop where
  spaces : Spaces m' l' pds
  dirs : ∀ pd ∈ pds, ∀ i, i < 1024 → entry m'.mem pd i = entry m.mem pd i
  other : ∀ pd ∈ pds, ∀ v, v < pages → ¬ (pd = q ∧ V v) →
    translate m'.mem pd v = translate m.mem pd v
  gone : ∀ v, v < pages → V v → translate m'.mem q v = none
  freed : ∃ fs, l' = fs ++ l ∧ ∀ f ∈ fs, ∃ v, Refers m.mem (.page q v) f

/-- Nothing to unmap. -/
theorem Spaces.unmapped_none (hS : Spaces m l pds) (hV : ∀ v, v < pages → V v → translate m.mem q v = none) :
    Unmapped pds q V m l m l :=
  ⟨hS, fun _ _ _ _ => rfl, fun _ _ _ _ _ => rfl, hV, [], rfl, by simp⟩

/-- One after the other. -/
theorem Unmapped.trans (h₁ : Unmapped pds q V₁ m l m₁ l₁) (h₂ : Unmapped pds q V₂ m₁ l₁ m₂ l₂)
    (hq : q ∈ pds) : Unmapped pds q (fun v => V₁ v ∨ V₂ v) m l m₂ l₂ := by
  refine ⟨h₂.spaces, fun pd hpd i hi => (h₂.dirs pd hpd i hi).trans (h₁.dirs pd hpd i hi),
    fun pd hpd v hv hno => ?_, fun v hv hor => ?_, ?_⟩
  · rw [h₂.other pd hpd v hv fun hh => hno ⟨hh.1, Or.inr hh.2⟩,
      h₁.other pd hpd v hv fun hh => hno ⟨hh.1, Or.inl hh.2⟩]
  · by_cases h2 : V₂ v
    · exact h₂.gone v hv h2
    · rw [h₂.other q hq v hv fun hh => h2 hh.2]
      exact h₁.gone v hv (hor.resolve_right h2)
  · obtain ⟨fs₁, rfl, hfs₁⟩ := h₁.freed
    obtain ⟨fs₂, rfl, hfs₂⟩ := h₂.freed
    refine ⟨fs₂ ++ fs₁, by rw [List.append_assoc], fun f hf => ?_⟩
    rcases List.mem_append.1 hf with hf | hf
    · obtain ⟨v, hu, w, hw, heq⟩ := hfs₂ f hf
      refine ⟨v, hu, w, ?_, heq⟩
      have hv := user_vpn_lt hu
      by_cases h1 : V₁ v
      · rw [h₁.gone v hv h1] at hw
        simp at hw
      · rw [← h₁.other q hq v hv fun hh => h1 hh.2]
        exact hw
    · exact hfs₁ f hf

/-- **`remove_mapping`** in the user range. -/
theorem Spaces.removeMapping (hS : Spaces m l pds) (hq : q ∈ pds) (hu : isUser (vpn / 1024)) :
    ∃ m' l', m.removeMapping q vpn = some m' ∧ Unmapped pds q (fun v => v = vpn) m l m' l' := by
  have hq0 : q ≠ 0 := Nat.ne_of_gt (hS.inUse (.dir q) q hq rfl).pos
  have hj : vpn % 1024 < 1024 := Nat.mod_lt _ (by decide)
  unfold PhysMem.removeMapping
  rw [if_neg hq0]
  simp only
  by_cases hp : present (entry m.mem q (vpn / 1024))
  · rw [if_pos hp]
    have htable : InUse m l (frameOf (entry m.mem q (vpn / 1024))) :=
      hS.inUse (.table q (vpn / 1024)) _ hq ⟨hu, hp, rfl⟩
    -- the page is given back, if there is one
    obtain ⟨m₁, l₁, hfree, hP, hview, hin, fs, rfl, hfs⟩ : ∃ m₁ l₁,
        (if present (entry m.mem (frameOf (entry m.mem q (vpn / 1024))) (vpn % 1024)) then
          m.deallocFrame (frameOf (entry m.mem (frameOf (entry m.mem q (vpn / 1024))) (vpn % 1024)))
          else some m) = some m₁ ∧ Pool m₁ l₁ ∧ SameView m₁ m pds ∧
        (∀ g, InUse m l g → ¬ Refers m.mem (.page q vpn) g → InUse m₁ l₁ g) ∧
        ∃ fs, l₁ = fs ++ l ∧ ∀ f ∈ fs, Refers m.mem (.page q vpn) f := by
      by_cases hpte : present (entry m.mem (frameOf (entry m.mem q (vpn / 1024))) (vpn % 1024))
      · rw [if_pos hpte]
        have hr : Refers m.mem (.page q vpn)
            (frameOf (entry m.mem (frameOf (entry m.mem q (vpn / 1024))) (vpn % 1024))) :=
          ⟨hu, _, translate_eq_some.2 ⟨hp, hpte, rfl⟩, rfl⟩
        obtain ⟨m₁, hd, hP, hin, hkeep⟩ := hS.pool.dealloc (hS.inUse (.page q vpn) _ hq hr)
        refine ⟨m₁, _, hd, hP, sameView_of_keeps fun g hg => ?_, fun g hg hng => ?_, [_], rfl, ?_⟩
        · refine hkeep g (hS.isTable_inUse hg).aligned ?_
          rintro rfl
          exact hS.page_not_table hq hr hg
        · refine (hin g).2 ⟨hg, ?_⟩
          rintro rfl
          exact hng hr
        · intro f hf
          rw [List.mem_singleton.1 hf]
          exact hr
      · rw [if_neg hpte]
        exact ⟨m, l, rfl, hS.pool, SameView.refl m pds, fun g hg _ => hg, [], rfl, by simp⟩
    rw [hfree]
    simp only [Option.map_some]
    obtain ⟨hdirs, htrans⟩ := hS.view_setPte hview hq hu hp hj (w := 0) (by decide)
    have hvpn : 1024 * (vpn / 1024) + vpn % 1024 = vpn := by omega
    rw [hvpn] at htrans
    have hnone : ¬ present 0 := by decide
    have htable₁ : InUse m₁ (fs ++ l) (frameOf (entry m.mem q (vpn / 1024))) := by
      refine hin _ htable fun hr => ?_
      exact Slot.noConfusion (hS.single (.page q vpn) (.table q (vpn / 1024)) _ hq hq hr ⟨hu, hp, rfl⟩)
    refine ⟨_, _, rfl, ?_, hdirs, fun pd hpd v hv hno => ?_, fun v hv heq => ?_, fs, rfl,
      fun f hf => ⟨vpn, hfs f hf⟩⟩
    · refine hS.shrink (hP.setEntry htable₁ hj 0) (fun s f hs hf => ?_) (fun pd hpd k hk _ => hdirs pd hpd k hk)
        fun f hf hnr => (hin f hf (hnr (.page q vpn) hq)).congr rfl
      have hold : Refers m.mem s f ∧ s ≠ .page q vpn := by
        cases s with
        | dir pd => exact ⟨hf, by simp⟩
        | table pd k =>
          obtain ⟨huk, hpk, heq⟩ := hf
          rw [hdirs pd hs k (isUser_lt huk)] at hpk heq
          exact ⟨⟨huk, hpk, heq⟩, by simp⟩
        | page pd v =>
          obtain ⟨huv, w, hw, heq⟩ := hf
          rw [htrans pd hs v (user_vpn_lt huv)] at hw
          by_cases hself : pd = q ∧ v = vpn
          · rw [if_pos hself, if_neg hnone] at hw
            simp at hw
          · rw [if_neg hself] at hw
            exact ⟨⟨huv, w, hw, heq⟩, fun hslot => hself (Slot.page.inj hslot)⟩
      refine ⟨hold.1, (hin f (hS.inUse s f hs hold.1) fun hr => hold.2 ?_).congr rfl⟩
      exact hS.single s (.page q vpn) f hs hq hold.1 hr
    · rw [htrans pd hpd v hv, if_neg hno]
    · rw [htrans q hq v hv, if_pos ⟨rfl, heq⟩, if_neg hnone]
  · rw [if_neg hp]
    refine ⟨m, l, rfl, hS.unmapped_none ?_⟩
    rintro v - rfl
    unfold translate
    rw [if_neg (fun hh => hp hh.1)]

/-- A loop of unmappings. -/
theorem unmapped_foldlM {α : Type} {step : PhysMem → α → Option PhysMem} {V : α → Nat → Prop}
    (hq : q ∈ pds) {xs : List α}
    (hstep : ∀ x ∈ xs, ∀ m l, Spaces m l pds →
      ∃ m' l', step m x = some m' ∧ Unmapped pds q (V x) m l m' l') (hS : Spaces m l pds) :
    ∃ m' l', xs.foldlM step m = some m' ∧ Unmapped pds q (fun v => ∃ x ∈ xs, V x v) m l m' l' := by
  apply Runs.foldlM_effect (R := Unmapped pds q) (I := fun m l => Spaces m l pds) (V := V)
  · exact fun m l hS => hS.unmapped_none (by simp)
  · exact fun V₁ V₂ m l m₁ l₁ m₂ l₂ h₁ h₂ => h₁.trans h₂ hq
  · exact fun V m l m' l' h => h.spaces
  · exact hstep
  · exact hS

/-- The pages of a list of entries. -/
def EntryPage (es : List (VMEEntry BlockIo)) (v : Nat) : Prop :=
  ∃ e ∈ es, ∃ n ∈ List.range e.numPages, v = u32 (e.start + u32 (n * frameSize)) / frameSize

/-- The entries lie in the user range. -/
def InUserRange (es : List (VMEEntry BlockIo)) : Prop :=
  ∀ e ∈ es, 0x80000000 ≤ e.start ∧ e.start + e.numPages * frameSize ≤ 0xF0000000

/-- Pages of entries in the user range are user pages. -/
theorem InUserRange.isUser {es : List (VMEEntry BlockIo)} (h : InUserRange es) (hv : EntryPage es v) :
    isUser (v / 1024) := by
  obtain ⟨e, he, n, hn, rfl⟩ := hv
  obtain ⟨h1, h2⟩ := h e he
  have hlt := List.mem_range.1 hn
  rw [frameSize_eq] at h2 ⊢
  have hmul : n * 4096 + 4096 ≤ e.numPages * 4096 := by
    have := Nat.mul_le_mul_right 4096 (Nat.succ_le_of_lt hlt)
    omega
  rw [u32_of_lt (n := n * 4096) (by omega), u32_of_lt (by omega), isUser_iff]
  omega

/-- **Destroying the entries** unmaps their pages from the directory in `CR3`. -/
theorem Spaces.destroyEntries (hS : Spaces m l pds) (hq : q ∈ pds) {es : List (VMEEntry BlockIo)}
    (hrange : InUserRange es) :
    ∃ m' l', es.foldlM (PhysMem.destroyEntry q) m = some m' ∧ Unmapped pds q (EntryPage es) m l m' l' := by
  refine unmapped_foldlM hq (fun e he m l hS => ?_) hS
  refine unmapped_foldlM hq (fun n hn m l hS => ?_) hS
  exact hS.removeMapping hq (hrange.isUser ⟨e, he, n, hn, rfl⟩)

/-! ## Clearing the directory -/

/-- The entries `I` of directory `d` have been cleared, and their tables given back. -/
structure Cleared (pds : List Nat) (d : Nat) (I : Nat → Prop) (m : PhysMem) (l : List Nat)
    (m' : PhysMem) (l' : List Nat) : Prop where
  spaces : Spaces m' l' pds
  dirs : ∀ pd ∈ pds, ∀ i, i < 1024 → ¬ (pd = d ∧ I i) → entry m'.mem pd i = entry m.mem pd i
  gone : ∀ i, i < 1024 → I i → ¬ present (entry m'.mem d i)
  other : ∀ pd ∈ pds, ∀ v, v < pages → ¬ (pd = d ∧ I (v / 1024)) →
    translate m'.mem pd v = translate m.mem pd v
  freed : ∃ fs, l' = fs ++ l ∧ ∀ f, f ∈ fs ↔ ∃ i, I i ∧ Refers m.mem (.table d i) f

/-- Nothing to clear. -/
theorem Spaces.cleared_none {I : Nat → Prop} (hS : Spaces m l pds)
    (hI : ∀ i, I i → ¬ present (entry m.mem q i)) : Cleared pds q I m l m l := by
  refine ⟨hS, fun _ _ _ _ _ => rfl, fun i _ hi => hI i hi, fun _ _ _ _ _ => rfl, [], rfl, fun f => ?_⟩
  constructor
  · intro hf
    simp at hf
  · rintro ⟨i, hi, -, hp, -⟩
    exact absurd hp (hI i hi)

/-- One after the other. -/
theorem Cleared.trans {I₁ I₂ : Nat → Prop} (h₁ : Cleared pds q I₁ m l m₁ l₁)
    (h₂ : Cleared pds q I₂ m₁ l₁ m₂ l₂) (hq : q ∈ pds) :
    Cleared pds q (fun i => I₁ i ∨ I₂ i) m l m₂ l₂ := by
  refine ⟨h₂.spaces, fun pd hpd i hi hno => ?_, fun i hi hor => ?_, fun pd hpd v hv hno => ?_, ?_⟩
  · rw [h₂.dirs pd hpd i hi fun hh => hno ⟨hh.1, Or.inr hh.2⟩,
      h₁.dirs pd hpd i hi fun hh => hno ⟨hh.1, Or.inl hh.2⟩]
  · by_cases h2 : I₂ i
    · exact h₂.gone i hi h2
    · rw [h₂.dirs q hq i hi fun hh => h2 hh.2]
      exact h₁.gone i hi (hor.resolve_right h2)
  · rw [h₂.other pd hpd v hv fun hh => hno ⟨hh.1, Or.inr hh.2⟩,
      h₁.other pd hpd v hv fun hh => hno ⟨hh.1, Or.inl hh.2⟩]
  · obtain ⟨fs₁, rfl, hfs₁⟩ := h₁.freed
    obtain ⟨fs₂, rfl, hfs₂⟩ := h₂.freed
    refine ⟨fs₂ ++ fs₁, by rw [List.append_assoc], fun f => ?_⟩
    rw [List.mem_append, hfs₁, hfs₂]
    constructor
    · rintro (⟨i, hi, hu, hp, heq⟩ | ⟨i, hi, hr⟩)
      · refine ⟨i, Or.inr hi, ?_⟩
        have hlt := isUser_lt hu
        by_cases h1 : I₁ i
        · exact absurd hp (h₁.gone i hlt h1)
        · rw [h₁.dirs q hq i hlt fun hh => h1 hh.2] at hp heq
          exact ⟨hu, hp, heq⟩
      · exact ⟨i, Or.inl hi, hr⟩
    · rintro ⟨i, hor, hr⟩
      by_cases h1 : I₁ i
      · exact Or.inr ⟨i, h1, hr⟩
      · obtain ⟨hu, hp, heq⟩ := hr
        have hsame := h₁.dirs q hq i (isUser_lt hu) fun hh => h1 hh.2
        exact Or.inl ⟨i, hor.resolve_left h1, hu, by rw [hsame]; exact hp, by rw [hsame]; exact heq⟩

/-- **`remove_PT_mapping`** in the user range. -/
theorem Spaces.removePTMapping (hS : Spaces m l pds) (hq : q ∈ pds) (hu : isUser i) :
    ∃ m' l', m.removePTMapping q i = some m' ∧ Cleared pds q (fun k => k = i) m l m' l' := by
  unfold PhysMem.removePTMapping
  simp only
  by_cases hp : present (entry m.mem q i)
  · rw [if_pos hp]
    have hr : Refers m.mem (.table q i) (frameOf (entry m.mem q i)) := ⟨hu, hp, rfl⟩
    obtain ⟨m₁, hd, hP, hin, hkeep⟩ := hS.pool.dealloc (hS.inUse (.table q i) _ hq hr)
    rw [hd]
    have hnone : ¬ present 0 := by decide
    have hsame : ∀ pd ∈ pds, ∀ k, k < 1024 → entry m₁.mem pd k = entry m.mem pd k :=
      fun pd hpd k hk => (hkeep pd (hS.dir_aligned hpd) (hS.table_ne_dir hq hpd hu hp)).entry_eq hk
    have htables : ∀ pd ∈ pds, ∀ k, k < 1024 → present (entry m.mem pd k) → ¬ (pd = q ∧ k = i) →
        ∀ j, j < 1024 → pte m₁.mem pd k j = pte m.mem pd k j := by
      intro pd hpd k hk hpk hne j hj
      unfold pte
      rw [hsame pd hpd k hk]
      exact (hkeep _ (frameOf_aligned _) fun heq => hne (hS.table_single hq hpd hu hp hk hpk heq)).entry_eq hj
    obtain ⟨hdirs, htrans⟩ := hS.view_setPde hq hu (w := 0) (by decide) hsame htables
      fun h => absurd h hnone
    have hdir₁ : InUse m₁ (frameOf (entry m.mem q i) :: l) q := by
      refine (hin q).2 ⟨hS.inUse (.dir q) q hq rfl, hS.table_ne_dir hq hq hu hp⟩
    refine ⟨_, frameOf (entry m.mem q i) :: l, rfl, ?_, fun pd hpd k hk hno => ?_, fun k hk heq => ?_,
      fun pd hpd v hv hno => ?_, [frameOf (entry m.mem q i)], rfl, fun f => ?_⟩
    · refine hS.shrink (hP.setEntry hdir₁ (isUser_lt hu) 0) (fun s f hs hf => ?_)
        (fun pd hpd k hk hnu => ?_) fun f hf hnr => ?_
      · have hold : Refers m.mem s f ∧ s ≠ .table q i := by
          cases s with
          | dir pd => exact ⟨hf, by simp⟩
          | table pd k =>
            obtain ⟨huk, hpk, heq⟩ := hf
            rw [hdirs pd hs k (isUser_lt huk)] at hpk heq
            by_cases hself : pd = q ∧ k = i
            · rw [if_pos hself] at hpk
              exact absurd hpk hnone
            · rw [if_neg hself] at hpk heq
              exact ⟨⟨huk, hpk, heq⟩, fun hslot => hself (Slot.table.inj hslot)⟩
          | page pd v =>
            obtain ⟨huv, w, hw, heq⟩ := hf
            rw [htrans pd hs v (user_vpn_lt huv)] at hw
            by_cases hself : pd = q ∧ v / 1024 = i
            · rw [if_pos hself] at hw
              simp at hw
            · rw [if_neg hself] at hw
              exact ⟨⟨huv, w, hw, heq⟩, by simp⟩
        refine ⟨hold.1, ((hin f).2 ⟨hS.inUse s f hs hold.1, ?_⟩).congr rfl⟩
        rintro rfl
        exact hold.2 (hS.single s (.table q i) _ hs hq hold.1 hr)
      · rw [hdirs pd hpd k hk, if_neg]
        rintro ⟨-, rfl⟩
        exact hnu hu
      · refine ((hin f).2 ⟨hf, ?_⟩).congr rfl
        rintro rfl
        exact hnr (.table q i) hq hr
    · rw [hdirs pd hpd k hk, if_neg hno]
    · rw [hdirs q hq k hk, if_pos ⟨rfl, heq⟩]
      exact hnone
    · rw [htrans pd hpd v hv, if_neg hno]
    · rw [List.mem_singleton]
      constructor
      · rintro rfl
        exact ⟨i, rfl, hr⟩
      · rintro ⟨k, rfl, -, -, heq⟩
        exact heq
  · rw [if_neg hp]
    refine ⟨m, l, rfl, hS.cleared_none ?_⟩
    rintro k rfl
    exact hp

/-- **Clearing the user range** of a directory. -/
theorem Spaces.clearUser (hS : Spaces m l pds) (hq : q ∈ pds) :
    ∃ m' l', (List.range' PhysMem.userPDI PhysMem.userPDIs).foldlM (fun m i => m.removePTMapping q i) m =
      some m' ∧ Cleared pds q isUser m l m' l' := by
  have hmem : ∀ i, i ∈ List.range' PhysMem.userPDI PhysMem.userPDIs ↔ isUser i := by
    intro i
    rw [List.mem_range'_1]
    exact Iff.rfl
  have hsame : (fun i => ∃ k ∈ List.range' PhysMem.userPDI PhysMem.userPDIs, i = k) = isUser := by
    funext i
    refine propext ⟨?_, fun hi => ⟨i, (hmem i).2 hi, rfl⟩⟩
    rintro ⟨k, hk, rfl⟩
    exact (hmem i).1 hk
  rw [← hsame]
  apply Runs.foldlM_effect (R := Cleared pds q) (I := fun m l => Spaces m l pds)
    (V := fun k i => i = k)
  · exact fun m l hS => hS.cleared_none (by simp)
  · exact fun I₁ I₂ m l m₁ l₁ m₂ l₂ h₁ h₂ => h₁.trans h₂ hq
  · exact fun I m l m' l' h => h.spaces
  · exact fun k hk m l hS => hS.removePTMapping hq ((hmem k).1 hk)
  · exact hS

/-! ## The destructor -/

variable {t : TCB} {others : List Nat} {cr3 : Nat}

/-- Every directory of `others` translates every page as before. -/
def KeepsOthers (m' m : PhysMem) (others : List Nat) : Prop :=
  ∀ pd ∈ others, ∀ v, v < pages → translate m'.mem pd v = translate m.mem pd v

/-- Every frame of the address space `pd` is on the list of free frames, once. -/
def GivesBack (m : PhysMem) (pd : Nat) (l' : List Nat) : Prop :=
  ∀ s f, s.space = pd → Refers m.mem s f → l'.count f = 1

/-- The condition: the directory in `CR3` maps no page of the dead thread's entries, and that of the dead
    thread maps no user page. -/
def NothingMapped (m : PhysMem) (t : TCB) (cr3 : Nat) : Prop :=
  (∀ v, EntryPage t.vme.entries v → translate m.mem cr3 v = none) ∧
    ∀ v, isUser (v / 1024) → translate m.mem t.pd v = none

/-- Giving back a directory leaves the others alone. -/
theorem Spaces.keepsOthers_dealloc (hS : Spaces m l (q :: others)) (hq : q ∉ others)
    (hkeep : ∀ g, g % frameSize = 0 → g ≠ q → Keeps m'.mem m.mem g) : KeepsOthers m' m others := by
  have hview : SameView m' m others := by
    refine sameView_of_keeps fun g hg => ?_
    obtain ⟨pd, hpd, hcase⟩ := hg
    have hpd' : pd ∈ q :: others := List.mem_cons_of_mem _ hpd
    have hal : g % frameSize = 0 := (hS.isTable_inUse ⟨pd, hpd', hcase⟩).aligned
    refine hkeep g hal ?_
    rintro rfl
    rcases hcase with rfl | ⟨i, hi, hp, heq⟩
    · exact hq hpd
    · by_cases hu : isUser i
      · exact hS.table_ne_dir hpd' List.mem_cons_self hu hp heq
      · exact (hS.shared pd hpd' i hi hu hp).2 (.dir g) List.mem_cons_self heq.symm
  exact fun pd hpd v hv => hview.translate_eq hpd hv

/-- **What `~TCB` does**: the pages of the entries are unmapped from the directory in `CR3`; free are, in
    addition, their frames, the user tables of the dead thread and its directory. -/
theorem Spaces.destroy (hS : Spaces m l (t.pd :: others)) (ht : t.pd ∉ others) (hcr3 : cr3 ∈ others)
    (hrange : InUserRange t.vme.entries) :
    ∃ m' l', t.destroy m cr3 = some m' ∧ Pool m' l' ∧
      (∀ pd ∈ others, ∀ v, v < pages → ¬ (pd = cr3 ∧ EntryPage t.vme.entries v) →
        translate m'.mem pd v = translate m.mem pd v) ∧
      (∀ v, v < pages → EntryPage t.vme.entries v → translate m'.mem cr3 v = none) ∧
      (∀ f ∈ l', f = t.pd ∨ (∃ i, Refers m.mem (.table t.pd i) f) ∨ (∃ v, Refers m.mem (.page cr3 v) f) ∨
        f ∈ l) ∧
      t.pd ∈ l' ∧ ∀ i f, Refers m.mem (.table t.pd i) f → f ∈ l' := by
  have hself : t.pd ∈ t.pd :: others := List.mem_cons_self
  obtain ⟨m₁, l₁, hd₁, hun⟩ := hS.destroyEntries (List.mem_cons_of_mem _ hcr3) hrange
  obtain ⟨m₂, l₂, hd₂, hcl⟩ := hun.spaces.clearUser hself
  obtain ⟨m₃, hd₃, hP, hin, hkeep⟩ := hcl.spaces.pool.dealloc (hcl.spaces.inUse (.dir t.pd) _ hself rfl)
  have hothers := hcl.spaces.keepsOthers_dealloc ht hkeep
  have htrans : ∀ pd ∈ others, ∀ v, v < pages → translate m₃.mem pd v = translate m₁.mem pd v := by
    intro pd hpd v hv
    rw [hothers pd hpd v hv]
    refine hcl.other pd (List.mem_cons_of_mem _ hpd) v hv ?_
    rintro ⟨rfl, -⟩
    exact ht hpd
  have htable : ∀ i f, Refers m₁.mem (.table t.pd i) f ↔ Refers m.mem (.table t.pd i) f := by
    intro i f
    constructor
    · rintro ⟨hu, hp, heq⟩
      rw [hun.dirs t.pd hself i (isUser_lt hu)] at hp heq
      exact ⟨hu, hp, heq⟩
    · rintro ⟨hu, hp, heq⟩
      rw [← hun.dirs t.pd hself i (isUser_lt hu)] at hp heq
      exact ⟨hu, hp, heq⟩
  obtain ⟨fs₁, rfl, hfs₁⟩ := hun.freed
  obtain ⟨fs₂, rfl, hfs₂⟩ := hcl.freed
  refine ⟨m₃, _, ?_, hP, fun pd hpd v hv hno => ?_, fun v hv he => ?_, fun f hf => ?_, by simp,
    fun i f hr => ?_⟩
  · unfold TCB.destroy
    rw [hd₁]
    simp only [Option.bind_eq_bind, Option.bind_some]
    rw [hd₂]
    exact hd₃
  · rw [htrans pd hpd v hv]
    exact hun.other pd (List.mem_cons_of_mem _ hpd) v hv hno
  · rw [htrans cr3 hcr3 v hv]
    exact hun.gone v hv he
  · rcases List.mem_cons.1 hf with rfl | hf
    · exact Or.inl rfl
    · rcases List.mem_append.1 hf with hf | hf
      · obtain ⟨i, -, hr⟩ := (hfs₂ f).1 hf
        exact Or.inr (Or.inl ⟨i, (htable i f).1 hr⟩)
      · rcases List.mem_append.1 hf with hf | hf
        · exact Or.inr (Or.inr (Or.inl (hfs₁ f hf)))
        · exact Or.inr (Or.inr (Or.inr hf))
  · refine List.mem_cons_of_mem _ (List.mem_append_left _ ((hfs₂ f).2 ⟨i, hr.1, (htable i f).2 hr⟩))

/-- **Destroying a TCB**: whatever thread is running and whatever the others map, the destructor runs to
    its end; it keeps the translations of all others and gives back every frame of the dead thread's
    address space once, exactly when the directory in `CR3` maps no page of the dead thread's entries and
    the dead thread has no user page mapped. -/
theorem destroy_exact (m : PhysMem) (l : List Nat) (t : TCB) (others : List Nat) (cr3 : Nat)
    (hS : Spaces m l (t.pd :: others)) (ht : t.pd ∉ others) (hcr3 : cr3 ∈ others)
    (hrange : InUserRange t.vme.entries) :
    ∃ m' l', t.destroy m cr3 = some m' ∧ Pool m' l' ∧
      ((KeepsOthers m' m others ∧ GivesBack m t.pd l') ↔ NothingMapped m t cr3) := by
  have hself : t.pd ∈ t.pd :: others := List.mem_cons_self
  obtain ⟨m', l', hd, hP, hkept, hgone, hfree, hdir, htable⟩ := hS.destroy ht hcr3 hrange
  refine ⟨m', l', hd, hP, ?_⟩
  constructor
  · rintro ⟨hkeeps, hgives⟩
    constructor
    · intro v he
      have hv := user_vpn_lt (hrange.isUser he)
      rw [← hkeeps cr3 hcr3 v hv]
      exact hgone v hv he
    · -- a frame that is given back is no mapped page of the dead thread
      intro v hu
      cases hw : translate m.mem t.pd v with
      | none => rfl
      | some w =>
        have hr : Refers m.mem (.page t.pd v) (frameOf w) := ⟨hu, w, hw, rfl⟩
        have hmem : frameOf w ∈ l' := by
          refine List.count_pos_iff.1 ?_
          rw [hgives (.page t.pd v) _ rfl hr]
          decide
        rcases hfree _ hmem with heq | ⟨i, hr'⟩ | ⟨v', hr'⟩ | hin
        · exact Slot.noConfusion (hS.single (.page t.pd v) (.dir t.pd) _ hself hself hr heq)
        · exact Slot.noConfusion (hS.single (.page t.pd v) (.table t.pd i) _ hself hself hr hr')
        · have hslot := hS.single (.page t.pd v) (.page cr3 v') _ hself (List.mem_cons_of_mem _ hcr3) hr hr'
          exact absurd ((Slot.page.inj hslot).1 ▸ hcr3) ht
        · exact absurd hin (hS.inUse (.page t.pd v) _ hself hr).notFree
  · rintro ⟨hcr3none, hnone⟩
    refine ⟨fun pd hpd v hv => ?_, fun s f hs hr => ?_⟩
    · by_cases hself : pd = cr3 ∧ EntryPage t.vme.entries v
      · obtain ⟨rfl, he⟩ := hself
        rw [hgone v hv he, hcr3none v he]
      · exact hkept pd hpd v hv hself
    · refine List.count_eq_one_of_mem hP.nodup ?_
      cases s with
      | dir pd =>
        obtain rfl : pd = t.pd := hs
        obtain rfl : f = t.pd := hr
        exact hdir
      | table pd i =>
        obtain rfl : pd = t.pd := hs
        exact htable i f hr
      | page pd v =>
        obtain rfl : pd = t.pd := hs
        obtain ⟨hu, w, hw, -⟩ := hr
        rw [hnone v hu] at hw
        simp at hw

/-- The process with `onePage` has a page at the start of the user range. -/
theorem onePage_entryPage : EntryPage onePage.entries 0x80000 :=
  ⟨⟨0x80000000, 1, 0, none, 0, true⟩, List.mem_singleton.2 rfl, 0, List.mem_range.2 (by decide),
    by decide +kernel⟩

theorem onePage_inUserRange : InUserRange onePage.entries := by
  intro e he
  obtain rfl := List.mem_singleton.1 he
  decide

/-- Two processes with a page each at the same address: one of them is destroyed while the other runs. -/
theorem destroy_exact_twoProcesses : ∃ (m m' : PhysMem) (l l' : List Nat) (t : TCB) (pd g : Nat),
    Spaces m l [t.pd, pd, g] ∧ (translate m.mem pd 0x80000).isSome = true ∧
      t.destroy m pd = some m' ∧ ¬ (KeepsOthers m' m [pd, g] ∧ GivesBack m t.pd l') := by
  obtain ⟨m, l, pd, pd', g, hS, hnot, -, -, -, hpage⟩ := exists_twoProcesses
  obtain ⟨m', l', hd, -, hiff⟩ := destroy_exact m l ⟨pd, onePage⟩ [pd', g] pd' hS hnot List.mem_cons_self
    onePage_inUserRange
  refine ⟨m, m', l, l', ⟨pd, onePage⟩, pd', g, hS, hpage, hd, fun h => ?_⟩
  have hnone := (hiff.1 h).1 0x80000 onePage_entryPage
  rw [hnone] at hpage
  simp at hpage

/-- **The destructor does not keep the translations of the other threads**: it unmaps the page of the
    thread that is running. -/
theorem destroy_unmapsRunning : ¬ ∀ (m : PhysMem) (l : List Nat) (t : TCB) (others : List Nat) (cr3 : Nat),
    Spaces m l (t.pd :: others) → t.pd ∉ others → cr3 ∈ others → InUserRange t.vme.entries →
      ∃ m' l', t.destroy m cr3 = some m' ∧ Pool m' l' ∧ KeepsOthers m' m others ∧
        GivesBack m t.pd l' := by
  intro hall
  obtain ⟨m, l, pd, pd', g, hS, hnot, -, -, -, hpage⟩ := exists_twoProcesses
  have hcr3 : pd' ∈ [pd', g] := List.mem_cons_self
  obtain ⟨m', l', hd, -, hkeeps, -⟩ := hall m l ⟨pd, onePage⟩ [pd', g] pd' hS hnot hcr3 onePage_inUserRange
  obtain ⟨m'', l'', hd', -, -, hgone, -⟩ := hS.destroy (t := ⟨pd, onePage⟩) hnot hcr3 onePage_inUserRange
  rw [hd] at hd'
  obtain rfl := Option.some.inj hd'
  have h := hkeeps pd' hcr3 0x80000 (by decide)
  rw [hgone 0x80000 (by decide) onePage_entryPage] at h
  rw [← h] at hpage
  simp at hpage

end BadApple
