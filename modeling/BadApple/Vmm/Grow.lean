/-
  Address spaces that grow: new frames, tables, pages and directories.

  1. **Frames** — a frame handed out by `alloc_frame` is loose: no address space has a part in it, and its
     words are zero.
  2. **Links** — a loose frame becomes a table of a directory, or a page of a table, by one entry written;
     every other translation stays.
  3. **Contents** — bytes written to a frame that is no table change no translation.
  4. **Directories** — `new_page_directory` opens an address space without user pages.
  5. **Pages installed** — `Installed`: a page is taken from the free frames, mapped and filled.
-/
import BadApple.Vmm.Spaces
import BadApple.Lib.Runs

namespace BadApple

open Memory

variable {m m' m₁ m₂ : PhysMem} {mem mem' : Mem} {l l' l₁ l₂ pds : List Nat}
  {f g p q pd i j k v w flags globalPageDirectory : Nat}

/-! ## Frames handed out -/

/-- **`alloc_frame` costs one frame.** -/
theorem Pool.alloc_paid (hP : Pool m l) :
    Runs.Paid (freeFrames m l) 1 m.allocFrame
      fun pm n => ∃ l', freeFrames pm.2 l' = n ∧ Allocated m l pm.1 pm.2 l' := by
  by_cases hfree : 0 < freeFrames m l
  · obtain ⟨p, m', l', hp, ha⟩ := hP.alloc hfree
    refine Or.inl ⟨(p, m'), freeFrames m' l', hp, ?_, l', rfl, ha⟩
    have := ha.count
    omega
  · exact Or.inr ⟨by omega, hP.alloc_none (by omega)⟩

/-- The words of a frame of zeros. -/
theorem entry_of_zero (hzero : ∀ k, k < frameSize → mem (p + k) = 0) (hk : k < 1024) : entry mem p k = 0 := by
  have hbyte : ∀ n, n < 4 → mem (p + 4 * k + n) = 0 := by
    intro n hn
    rw [Nat.add_assoc]
    refine hzero _ ?_
    rw [frameSize_eq]
    omega
  have h0 := hbyte 0 (by decide)
  rw [Nat.add_zero] at h0
  unfold entry word
  rw [h0, hbyte 1 (by decide), hbyte 2 (by decide), hbyte 3 (by decide)]
  rfl

/-- The words of a new frame. -/
theorem Allocated.entry_zero (ha : Allocated m l p m' l') (hk : k < 1024) : entry m'.mem p k = 0 :=
  entry_of_zero ha.zero hk

theorem not_present_zero : ¬ present 0 := by decide

/-- Frames in use stay so. -/
theorem Allocated.stays (ha : Allocated m l p m' l') (hf : InUse m l f) : InUse m' l' f :=
  (ha.inUse f).2 (Or.inl hf)

theorem Allocated.ne (ha : Allocated m l p m' l') (hf : InUse m l f) : f ≠ p := by
  rintro rfl
  exact ha.fresh hf

theorem Allocated.keeps_inUse (ha : Allocated m l p m' l') (hf : InUse m l f) : Keeps m'.mem m.mem f :=
  ha.keeps f hf.aligned (ha.ne hf)

theorem SameView.isTable_iff (h : SameView m' m pds) : IsTable m'.mem pds f ↔ IsTable m.mem pds f := by
  constructor
  · rintro ⟨pd, hpd, rfl | ⟨i, hi, hp, heq⟩⟩
    · exact ⟨f, hpd, Or.inl rfl⟩
    · rw [h.dirs pd hpd i hi] at hp heq
      exact ⟨pd, hpd, Or.inr ⟨i, hi, hp, heq⟩⟩
  · rintro ⟨pd, hpd, rfl | ⟨i, hi, hp, heq⟩⟩
    · exact ⟨f, hpd, Or.inl rfl⟩
    · rw [← h.dirs pd hpd i hi] at hp heq
      exact ⟨pd, hpd, Or.inr ⟨i, hi, hp, heq⟩⟩

/-- The same view of frames that are still in use. -/
theorem Spaces.congr (hS : Spaces m l pds) (hP : Pool m' l') (hv : SameView m' m pds)
    (hin : ∀ f, InUse m l f → InUse m' l' f) : Spaces m' l' pds := by
  refine hS.shrink hP (fun s f hs hf => ?_) (fun pd hpd i hi _ => hv.dirs pd hpd i hi)
    fun f hf _ => hin f hf
  have hold := (hv.refers_iff hs).1 hf
  exact ⟨hold, hin f (hS.inUse s f hs hold)⟩

theorem Loose.congr (hl : Loose m l pds p) (hv : SameView m' m pds)
    (hin : ∀ f, InUse m l f → InUse m' l' f) : Loose m' l' pds p :=
  ⟨hin p hl.inUse, fun ht => hl.notTable (hv.isTable_iff.1 ht),
    fun s hs hr => hl.notReferred s hs ((hv.refers_iff hs).1 hr)⟩

/-- A new frame leaves all views. -/
theorem Spaces.sameView_alloc (hS : Spaces m l pds) (ha : Allocated m l p m' l') : SameView m' m pds :=
  sameView_of_keeps fun _ ht => ha.keeps_inUse (hS.isTable_inUse ht)

theorem Spaces.alloc (hS : Spaces m l pds) (ha : Allocated m l p m' l') : Spaces m' l' pds :=
  hS.congr ha.pool (hS.sameView_alloc ha) fun _ hf => ha.stays hf

/-- **A new frame is loose.** -/
theorem Spaces.loose_alloc (hS : Spaces m l pds) (ha : Allocated m l p m' l') : Loose m' l' pds p := by
  have hv := hS.sameView_alloc ha
  refine ⟨(ha.inUse p).2 (Or.inr rfl), fun ht => ?_, fun s hs hr => ?_⟩
  · exact ha.fresh (hS.isTable_inUse (hv.isTable_iff.1 ht))
  · exact ha.fresh (hS.inUse s p hs ((hv.refers_iff hs).1 hr))

/-! ## Contents of frames -/

/-- **Bytes written to a frame that is no table** change no view. -/
theorem Spaces.write (hS : Spaces m l pds) (hf : InUse m l f) (ht : ¬ IsTable m.mem pds f)
    (hk : ∀ g, g % frameSize = 0 → g ≠ f → Keeps mem' m.mem g) :
    Spaces { m with mem := mem' } l pds ∧ SameView { m with mem := mem' } m pds := by
  have hv : SameView { m with mem := mem' } m pds := by
    refine sameView_of_keeps fun g hg => hk g (hS.isTable_inUse hg).aligned ?_
    rintro rfl
    exact ht hg
  exact ⟨hS.congr (hS.pool.writeFrame hf hk) hv fun g hg => hg.congr rfl, hv⟩

/-! ## Links -/

/-- A loose frame lies below `2 ^ 32`, so an entry with it is a word. -/
theorem Spaces.entry_word (hS : Spaces m l pds) (hp : InUse m l p) (hw : flags < frameSize) :
    flags ||| p < 4294967296 := entry_parts_lt hw hp.aligned (hp.lt_word hS.pool)

/-- **A loose frame becomes a table**: the entry is written, and no translation changes. -/
theorem Spaces.linkTable (hS : Spaces m l pds) (hq : q ∈ pds) (hu : isUser i)
    (hno : ¬ present (entry m.mem q i)) (hp : Loose m l pds p)
    (hzero : ∀ j, j < 1024 → ¬ present (entry m.mem p j)) (hw : flags < frameSize) :
    Spaces (m.setEntry q i (flags ||| p)) l pds ∧
      (∀ pd ∈ pds, ∀ k, k < 1024 → entry (m.setEntry q i (flags ||| p)).mem pd k =
        if pd = q ∧ k = i then flags ||| p else entry m.mem pd k) ∧
      (∀ pd ∈ pds, ∀ v, v < pages →
        translate (m.setEntry q i (flags ||| p)).mem pd v = translate m.mem pd v) ∧
      ∀ f, f ≠ p → Loose m l pds f → Loose (m.setEntry q i (flags ||| p)) l pds f := by
  have hframe := (entry_parts (w := flags) (f := p) hw hp.inUse.aligned).1
  have hpq : p ≠ q := by
    rintro rfl
    exact hp.notTable ⟨p, hq, Or.inl rfl⟩
  have hblank : frameOf (flags ||| p) ≠ q ∧ ∀ j, j < 1024 → ¬ present (entry m.mem (frameOf (flags ||| p)) j) := by
    rw [hframe]
    exact ⟨hpq, hzero⟩
  obtain ⟨hdirs, htrans⟩ := hS.view_setPde hq hu (hS.entry_word hp.inUse hw) (fun _ _ _ _ => rfl)
    (fun _ _ _ _ _ _ _ _ => rfl) fun _ => hblank
  have hsame : ∀ pd ∈ pds, ∀ v, v < pages →
      translate (m.setEntry q i (flags ||| p)).mem pd v = translate m.mem pd v := by
    intro pd hpd v hv
    rw [htrans pd hpd v hv]
    by_cases hself : pd = q ∧ v / 1024 = i
    · obtain ⟨rfl, rfl⟩ := hself
      rw [if_pos ⟨rfl, rfl⟩]
      unfold translate
      rw [if_neg fun hh => hno hh.1]
    · rw [if_neg hself]
  have hrefers : ∀ s f, s.space ∈ pds → Refers (m.setEntry q i (flags ||| p)).mem s f →
      Refers m.mem s f ∨ (s = .table q i ∧ f = p) := by
    intro s f hs hr
    cases s with
    | dir pd => exact Or.inl hr
    | table pd k =>
      obtain ⟨huk, hpk, heq⟩ := hr
      rw [hdirs pd hs k (isUser_lt huk)] at hpk heq
      by_cases hself : pd = q ∧ k = i
      · rw [if_pos hself] at heq
        obtain ⟨rfl, rfl⟩ := hself
        exact Or.inr ⟨rfl, by rw [heq, hframe]⟩
      · rw [if_neg hself] at hpk heq
        exact Or.inl ⟨huk, hpk, heq⟩
    | page pd v =>
      obtain ⟨huv, w, hw, heq⟩ := hr
      rw [hsame pd hs v (user_vpn_lt huv)] at hw
      exact Or.inl ⟨huv, w, hw, heq⟩
  refine ⟨?_, hdirs, hsame, fun f hne hf => ⟨hf.inUse.congr rfl, ?_, fun s hs hr => ?_⟩⟩
  · refine hS.grow (hS.pool.setEntry (hS.inUse (.dir q) q hq rfl) (isUser_lt hu) _) hp hrefers
      (fun pd hpd k hk hnu => ?_) fun f hf => hf.congr rfl
    rw [hdirs pd hpd k hk, if_neg]
    rintro ⟨-, rfl⟩
    exact hnu hu
  · rintro ⟨pd, hpd, rfl | ⟨k, hk, hpk, heq⟩⟩
    · exact hf.notTable ⟨f, hpd, Or.inl rfl⟩
    · rw [hdirs pd hpd k hk] at hpk heq
      by_cases hself : pd = q ∧ k = i
      · rw [if_pos hself, hframe] at heq
        exact hne heq
      · rw [if_neg hself] at hpk heq
        exact hf.notTable ⟨pd, hpd, Or.inr ⟨k, hk, hpk, heq⟩⟩
  · rcases hrefers s f hs hr with h | ⟨-, rfl⟩
    · exact hf.notReferred s hs h
    · exact hne rfl

/-- **A loose frame becomes a page**: one translation is set. -/
theorem Spaces.linkPage (hS : Spaces m l pds) (hq : q ∈ pds) (hu : isUser i)
    (hpi : present (entry m.mem q i)) (hj : j < 1024) (hp : Loose m l pds p) (hw : flags < frameSize)
    (hpr : present flags) :
    Spaces (m.setEntry (frameOf (entry m.mem q i)) j (flags ||| p)) l pds ∧
      (∀ pd ∈ pds, ∀ k, k < 1024 →
        entry (m.setEntry (frameOf (entry m.mem q i)) j (flags ||| p)).mem pd k = entry m.mem pd k) ∧
      ∀ pd ∈ pds, ∀ v, v < pages →
        translate (m.setEntry (frameOf (entry m.mem q i)) j (flags ||| p)).mem pd v =
          if pd = q ∧ v = 1024 * i + j then some (flags ||| p) else translate m.mem pd v := by
  obtain ⟨hframe, -, hpres⟩ := entry_parts (w := flags) (f := p) hw hp.inUse.aligned
  obtain ⟨hdirs, htrans⟩ := hS.view_setPte (SameView.refl m pds) hq hu hpi hj (hS.entry_word hp.inUse hw)
  rw [if_pos (hpres.2 hpr)] at htrans
  refine ⟨?_, hdirs, htrans⟩
  have htable : InUse m l (frameOf (entry m.mem q i)) := hS.inUse (.table q i) _ hq ⟨hu, hpi, rfl⟩
  refine hS.grow (r := .page q (1024 * i + j)) (hS.pool.setEntry htable hj _) hp (fun s f hs hr => ?_)
    (fun pd hpd k hk _ => hdirs pd hpd k hk) fun f hf => hf.congr rfl
  cases s with
  | dir pd => exact Or.inl hr
  | table pd k =>
    obtain ⟨huk, hpk, heq⟩ := hr
    rw [hdirs pd hs k (isUser_lt huk)] at hpk heq
    exact Or.inl ⟨huk, hpk, heq⟩
  | page pd v =>
    obtain ⟨huv, w, hw, heq⟩ := hr
    rw [htrans pd hs v (user_vpn_lt huv)] at hw
    by_cases hself : pd = q ∧ v = 1024 * i + j
    · rw [if_pos hself, Option.some.injEq] at hw
      obtain ⟨rfl, rfl⟩ := hself
      exact Or.inr ⟨rfl, by rw [heq, ← hw, hframe]⟩
    · rw [if_neg hself] at hw
      exact Or.inl ⟨huv, w, hw, heq⟩

/-- **A loose frame becomes a directory**, if it has no user entry and its other entries are those of
    directories already there. -/
theorem Spaces.openDir (hS : Spaces m l pds) (hp : Loose m l pds p)
    (huser : ∀ i, isUser i → ¬ present (entry m.mem p i))
    (hshared : ∀ i, i < 1024 → ¬ isUser i → present (entry m.mem p i) →
      ∃ pd ∈ pds, entry m.mem pd i = entry m.mem p i) : Spaces m l (p :: pds) := by
  have hnone : ∀ s f, s.space = p → Refers m.mem s f → s = .dir p ∧ f = p := by
    intro s f hs hr
    cases s with
    | dir pd =>
      obtain rfl : pd = p := hs
      exact ⟨rfl, hr⟩
    | table pd i =>
      obtain rfl : pd = p := hs
      exact absurd hr.2.1 (huser i hr.1)
    | page pd v =>
      obtain rfl : pd = p := hs
      obtain ⟨hu, w, hw, -⟩ := hr
      exact absurd (translate_eq_some.1 hw).1 (huser _ hu)
  have hsplit : ∀ s f, s.space ∈ p :: pds → Refers m.mem s f →
      (s = .dir p ∧ f = p) ∨ (s.space ∈ pds ∧ Refers m.mem s f) := by
    intro s f hs hr
    rcases List.mem_cons.1 hs with h | h
    · exact Or.inl (hnone s f h hr)
    · exact Or.inr ⟨h, hr⟩
  refine ⟨hS.pool, fun s f hs hr => ?_, fun s s' f hs hs' hr hr' => ?_, fun pd hpd i hi hnu hpi => ?_⟩
  · rcases hsplit s f hs hr with ⟨-, rfl⟩ | ⟨h, hr⟩
    · exact hp.inUse
    · exact hS.inUse s f h hr
  · rcases hsplit s f hs hr with ⟨rfl, rfl⟩ | ⟨h, hr⟩
    · rcases hsplit s' f hs' hr' with ⟨rfl, -⟩ | ⟨h', hr'⟩
      · rfl
      · exact absurd hr' (hp.notReferred s' h')
    · rcases hsplit s' f hs' hr' with ⟨-, rfl⟩ | ⟨h', hr'⟩
      · exact absurd hr (hp.notReferred s h)
      · exact hS.single s s' f h h' hr hr'
  · obtain ⟨pd', hpd', heq⟩ : ∃ pd' ∈ pds, entry m.mem pd' i = entry m.mem pd i := by
      rcases List.mem_cons.1 hpd with rfl | h
      · exact hshared i hi hnu hpi
      · exact ⟨pd, h, rfl⟩
    rw [← heq] at hpi ⊢
    obtain ⟨hin, hno⟩ := hS.shared pd' hpd' i hi hnu hpi
    refine ⟨hin, fun s hs hr => ?_⟩
    rcases hsplit s _ hs hr with ⟨-, hf⟩ | ⟨h, hr⟩
    · exact hp.notTable ⟨pd', hpd', Or.inr ⟨i, hi, hpi, hf.symm⟩⟩
    · exact hno s h hr

/-! ## New directories -/

/-- A directory without user tables. -/
def NoUserTables (mem : Mem) (pd : Nat) : Prop := ∀ i, isUser i → ¬ present (entry mem pd i)

/-- A new directory `p`; everything in use is as it was. -/
structure Opened (pds : List Nat) (m : PhysMem) (l : List Nat) (p : Nat) (m' : PhysMem) (l' : List Nat) :
    Prop where
  spaces : Spaces m' l' (p :: pds)
  stays : ∀ f, InUse m l f → InUse m' l' f
  keeps : ∀ f, InUse m l f → Keeps m'.mem m.mem f
  fresh : ¬ InUse m l p
  noTables : NoUserTables m'.mem p

/-- The first directory: a frame with no entries. -/
theorem Spaces.blankDir (hS : Spaces m l pds) (ha : Allocated m l p m' l') : Opened pds m l p m' l' := by
  have hnone : ∀ i, i < 1024 → ¬ present (entry m'.mem p i) := by
    intro i hi
    rw [ha.entry_zero hi]
    exact not_present_zero
  refine ⟨(hS.alloc ha).openDir (hS.loose_alloc ha) (fun i hu => hnone i (isUser_lt hu))
    fun i hi _ hp => absurd hp (hnone i hi), fun f hf => ha.stays hf, fun f hf => ha.keeps_inUse hf,
    ha.fresh, fun i hu => hnone i (isUser_lt hu)⟩

/-- A directory that was there keeps its entries. -/
theorem Opened.entry_eq (h : Opened pds m l p m' l') (hS : Spaces m l pds) (hpd : pd ∈ pds)
    (hi : i < 1024) : entry m'.mem pd i = entry m.mem pd i :=
  (h.keeps pd (hS.inUse (.dir pd) pd hpd rfl)).entry_eq hi

/-- The new directory is none of those that were there. -/
theorem Opened.not_mem (h : Opened pds m l p m' l') (hS : Spaces m l pds) : p ∉ pds :=
  fun hp => h.fresh (hS.inUse (.dir p) p hp rfl)

/-- Entries of a directory that was copied. -/
theorem entry_memcpy (hk : k < 1024) : entry (Memory.memcpy mem p q frameSize) p k = entry mem q k := by
  unfold entry
  apply word_memcpy
  rw [frameSize_eq]
  omega

/-- **`new_page_directory`** costs one frame. -/
theorem Spaces.newPageDirectory (hS : Spaces m l pds) (hG : globalPageDirectory ∈ pds)
    (hnone : NoUserTables m.mem globalPageDirectory) :
    Runs.Paid (freeFrames m l) 1 (m.newPageDirectory globalPageDirectory)
      fun pm n => ∃ l', freeFrames pm.2 l' = n ∧ Opened pds m l pm.1 pm.2 l' := by
  unfold PhysMem.newPageDirectory
  apply hS.pool.alloc_paid.bind_some
  rintro ⟨p, m₁⟩ n ⟨l₁, hn, ha⟩
  simp only at ha
  refine ⟨l₁, hn, ?_⟩
  have hv₁ := hS.sameView_alloc ha
  have hS₁ := hS.alloc ha
  have hp := hS.loose_alloc ha
  have hkeeps : ∀ g, g % frameSize = 0 → g ≠ p →
      Keeps (Memory.memcpy m₁.mem p globalPageDirectory frameSize) m₁.mem g :=
    fun g hg hne => keeps_memcpy ha.aligned hg hne
  obtain ⟨hS', hv'⟩ := hS₁.write hp.inUse hp.notTable hkeeps
  have hentry : ∀ k, k < 1024 → entry (Memory.memcpy m₁.mem p globalPageDirectory frameSize) p k =
      entry m.mem globalPageDirectory k := by
    intro k hk
    rw [entry_memcpy hk, hv₁.dirs _ hG k hk]
  refine ⟨hS'.openDir (hp.congr hv' fun f hf => hf.congr rfl) (fun i hu hpi => ?_) fun i hi _ _ => ?_,
    fun f hf => (ha.stays hf).congr rfl, fun f hf => ?_, ha.fresh, fun i hu hpi => ?_⟩
  · rw [hentry i (isUser_lt hu)] at hpi
    exact hnone i hu hpi
  · refine ⟨globalPageDirectory, hG, ?_⟩
    rw [hv'.dirs _ hG i hi, hv₁.dirs _ hG i hi, hentry i hi]
  · exact Keeps.trans (hkeeps f hf.aligned (ha.ne hf)) (ha.keeps_inUse hf)
  · rw [hentry i (isUser_lt hu)] at hpi
    exact hnone i hu hpi

/-! ## Pages installed -/

/-- Page `v` of directory `q` is mapped through the entry `w`; at most the table for it is new. -/
structure Mapped (pds : List Nat) (q v w : Nat) (m : PhysMem) (l : List Nat) (m' : PhysMem)
    (l' : List Nat) : Prop where
  spaces : Spaces m' l' pds
  stays : ∀ f, InUse m l f → InUse m' l' f
  keeps : ∀ f, InUse m l f → f ≠ q → ¬ Refers m.mem (.table q (v / 1024)) f → Keeps m'.mem m.mem f
  dirs : ∀ pd ∈ pds, ∀ i, i < 1024 → (pd = q → i = v / 1024 → present (entry m.mem q i)) →
    entry m'.mem pd i = entry m.mem pd i
  other : ∀ pd ∈ pds, ∀ u, u < pages → ¬ (pd = q ∧ u = v) →
    translate m'.mem pd u = translate m.mem pd u
  here : translate m'.mem q v = some w

/-- The same, with a frame that was not in use before, and what is in it now. -/
structure Installed (pds : List Nat) (q v w : Nat) (bytes : Nat → UInt8) (m : PhysMem) (l : List Nat)
    (m' : PhysMem) (l' : List Nat) : Prop extends Mapped pds q v w m l m' l' where
  fresh : ¬ InUse m l (frameOf w)
  filled : ∀ k, k < frameSize → m'.mem (frameOf w + k) = bytes k

/-- **A frame is handed out, mapped and filled.** -/
theorem Spaces.install (hS : Spaces m l pds) (hq : q ∈ pds) (hu : isUser (v / 1024))
    (ha : Allocated m l p m₁ l₁) (hm : Mapped pds q v w m₁ l₁ m₂ l₂) (hw : frameOf w = p) (mem' : Mem)
    (hk : ∀ g, g % frameSize = 0 → g ≠ p → Keeps mem' m₂.mem g) :
    Installed pds q v w (fun k => mem' (p + k)) m l { m₂ with mem := mem' } l₂ := by
  have hv₁ := hS.sameView_alloc ha
  have hr : Refers m₂.mem (.page q v) p := ⟨hu, w, hm.here, hw.symm⟩
  have hp : InUse m₂ l₂ p := hm.spaces.inUse (.page q v) p hq hr
  obtain ⟨hS', hv'⟩ := hm.spaces.write hp (hm.spaces.page_not_table hq hr) hk
  have hvlt := user_vpn_lt hu
  refine ⟨⟨hS', fun f hf => (hm.stays f (ha.stays hf)).congr rfl, fun f hf hfq hnt => ?_,
    fun pd hpd i hi hpi => ?_, fun pd hpd u hu' hno => ?_, ?_⟩, ?_, fun k _ => ?_⟩
  · refine Keeps.trans (hk f hf.aligned (ha.ne hf)) (Keeps.trans ?_ (ha.keeps_inUse hf))
    exact hm.keeps f (ha.stays hf) hfq fun hr => hnt ((hv₁.refers_iff (s := .table q (v / 1024)) hq).1 hr)
  · rw [hv'.dirs pd hpd i hi, hm.dirs pd hpd i hi, hv₁.dirs pd hpd i hi]
    intro h1 h2
    rw [hv₁.dirs q hq i hi]
    exact hpi h1 h2
  · rw [hv'.translate_eq hpd hu', hm.other pd hpd u hu' hno, hv₁.translate_eq hpd hu']
  · rw [hv'.translate_eq hq hvlt, hm.here]
  · rw [hw]
    exact ha.fresh
  · rw [hw]

/-- Writing the entry of a page whose table is there. -/
theorem Spaces.map_present (hS : Spaces m l pds) (hq : q ∈ pds) (hu : isUser (v / 1024))
    (hpi : present (entry m.mem q (v / 1024))) (hp : Loose m l pds p) (hw : flags < frameSize)
    (hpr : present flags) :
    Mapped pds q v (flags ||| p) m l
      (m.setEntry (frameOf (entry m.mem q (v / 1024))) (v % 1024) (flags ||| p)) l := by
  have hj : v % 1024 < 1024 := Nat.mod_lt _ (by decide)
  have hv : 1024 * (v / 1024) + v % 1024 = v := by omega
  have htable : Refers m.mem (.table q (v / 1024)) (frameOf (entry m.mem q (v / 1024))) := ⟨hu, hpi, rfl⟩
  obtain ⟨hS', hdirs, htrans⟩ := hS.linkPage hq hu hpi hj hp hw hpr
  rw [hv] at htrans
  refine ⟨hS', fun f hf => hf.congr rfl, fun f hf _ hnt => ?_, fun pd hpd i hi _ => hdirs pd hpd i hi,
    fun pd hpd u hu' hno => ?_, ?_⟩
  · refine PhysMem.keeps_setEntry (frameOf_aligned _) hf.aligned hj ?_
    rintro rfl
    exact hnt htable
  · rw [htrans pd hpd u hu', if_neg hno]
  · rw [htrans q hq v (user_vpn_lt hu), if_pos ⟨rfl, rfl⟩]

/-- The present bit of a word that has it set. -/
theorem present_or (h : present w) (x : Nat) : present (x ||| w) := by
  unfold present at *
  rw [Nat.or_mod_two_eq_one]
  exact Or.inr h

/-- The address of a frame from its number. -/
theorem InUse.ppn_mul (hp : InUse m l p) (hP : Pool m l) : u32 (p / frameSize * frameSize) = p := by
  have hal := hp.aligned
  have hlt := hp.lt_word hP
  rw [frameSize_eq] at hal ⊢
  rw [u32_of_lt (by omega)]
  omega

theorem flagBits_parts (global write userMode : Bool) :
    flagBits global write userMode < frameSize ∧ present (flagBits global write userMode) := by
  revert global write userMode
  decide

/-- **`add_mapping`** of a loose frame in the user range costs a frame if there is no table yet. -/
theorem Spaces.addMapping (hS : Spaces m l pds) (hq : q ∈ pds) (hu : isUser (v / 1024))
    (hp : Loose m l pds p) (global write userMode : Bool) :
    Runs.Paid (freeFrames m l) (if present (entry m.mem q (v / 1024)) then 0 else 1)
      (m.addMapping q v (p / frameSize) global write userMode)
      fun m' n => ∃ l', freeFrames m' l' = n ∧
        Mapped pds q v (flagBits global write userMode ||| p) m l m' l' := by
  obtain ⟨hflags, hpres⟩ := flagBits_parts global write userMode
  unfold PhysMem.addMapping
  simp only
  rw [hp.inUse.ppn_mul hS.pool]
  by_cases hpi : present (entry m.mem q (v / 1024))
  · rw [if_pos hpi, if_pos hpi]
    simp only [Option.map_some]
    exact Runs.Paid.pure ⟨l, rfl, hS.map_present hq hu hpi hp hflags hpres⟩
  · rw [if_neg hpi, if_neg hpi]
    rw [Option.map_map, Option.map_eq_bind]
    apply hS.pool.alloc_paid.bind_some
    rintro ⟨pt, m₁⟩ n ⟨l₁, hn, ha⟩
    refine ⟨l₁, hn, ?_⟩
    simp only at ha
    simp only [Function.comp_apply]
    -- the new table is linked, then the page
    have hv₁ := hS.sameView_alloc ha
    have hS₁ := hS.alloc ha
    have hi := isUser_lt hu
    have hpde : entry m₁.mem q (v / 1024) = entry m.mem q (v / 1024) := hv₁.dirs q hq _ hi
    rw [hpde]
    have hnew : flagsOf (entry m.mem q (v / 1024) ||| flagBits global write userMode) < frameSize :=
      flagsOf_lt _
    obtain ⟨hS₂, hdirs, htrans, hloose⟩ := hS₁.linkTable hq hu (by rw [hpde]; exact hpi)
      (hS.loose_alloc ha) (fun j hj => by rw [ha.entry_zero hj]; exact not_present_zero) hnew
    obtain ⟨hptf, -, hptp⟩ := entry_parts hnew ha.aligned
    have hentry := hdirs q hq _ hi
    rw [if_pos ⟨rfl, rfl⟩] at hentry
    have hmap := hS₂.map_present hq hu (by
      rw [hentry, hptp, present_flagsOf]
      exact present_or hpres _) (hloose p (ha.ne hp.inUse) (hp.congr hv₁ fun _ hf => ha.stays hf))
      hflags hpres
    rw [hentry, hptf] at hmap
    refine ⟨hmap.spaces, fun f hf => hmap.stays f ((ha.stays hf).congr rfl), fun f hf hfq _ => ?_,
      fun pd hpd k hk hpk => ?_, fun pd hpd u hu' hno => ?_, hmap.here⟩
    · refine Keeps.trans (hmap.keeps f ((ha.stays hf).congr rfl) hfq ?_)
        (Keeps.trans (PhysMem.keeps_setEntry (hS.dir_aligned hq) hf.aligned hi hfq) (ha.keeps_inUse hf))
      rintro ⟨-, -, heq⟩
      rw [hentry, hptf] at heq
      exact ha.ne hf heq
    · have hno : ¬ (pd = q ∧ k = v / 1024) := by
        rintro ⟨rfl, rfl⟩
        exact hpi (hpk rfl rfl)
      rw [hmap.dirs pd hpd k hk fun h1 h2 => absurd ⟨h1, h2⟩ hno, hdirs pd hpd k hk, if_neg hno,
        hv₁.dirs pd hpd k hk]
    · rw [hmap.other pd hpd u hu' hno, htrans pd hpd u hu', hv₁.translate_eq hpd hu']

end BadApple
