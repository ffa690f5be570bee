/-
  The address space of a forked child.

  1. **The source** — `fork` makes a directory from the global one, copies the user tables and pages of the
     parent into it, and copies the parent's `VME`.
  2. **Invariant of the copy** — `Copying T V`: the tables `T` and the pages `V` have been copied, nothing
     else of the child's user range is there, the child has fresh frames only, and every frame that was in
     use before the fork is as it was.
  3. **Cost** — a frame for the directory, one for each table and one for each page of the parent's user
     range; `fork` succeeds if and only if there are as many.
  4. **The result** — `fork_sameMemory`: the child has the logical memory of the parent, in frames of its
     own, and no later access by one is seen by the other.
-/
import BadApple.Vmm.Fault

namespace BadApple

open Memory

variable {m m' m₀ m₁ m₂ : PhysMem} {mem mem₀ : Mem} {l l' l₀ l₁ l₂ pds : List Nat}
  {f p q pd i j k v w globalPageDirectory : Nat} {T V : Nat → Prop} {t u : TCB}

/-! ## The invariant of the copy -/

/-- Directory `p` has a table at `i` if and only if `q` has one, with the same flags. -/
def SameTable (mem mem₀ : Mem) (p q i : Nat) : Prop :=
  (present (entry mem p i) ↔ present (entry mem₀ q i)) ∧
    (present (entry mem₀ q i) → flagsOf (entry mem p i) = flagsOf (entry mem₀ q i))

/-- Directory `p` maps page `v` if and only if `q` does, with the same flags and the same bytes. -/
def SamePage (mem mem₀ : Mem) (p q v : Nat) : Prop :=
  (translate mem₀ q v = none ∧ translate mem p v = none) ∨
    ∃ w w', translate mem₀ q v = some w ∧ translate mem p v = some w' ∧ flagsOf w' = flagsOf w ∧
      ∀ k, k < frameSize → mem (frameOf w' + k) = mem₀ (frameOf w + k)

/-- The tables `T` and the pages `V` of directory `q`, as they were in `m₀`, have been copied to `p`. -/
structure Copying (pds : List Nat) (q p : Nat) (m₀ : PhysMem) (l₀ : List Nat) (T V : Nat → Prop)
    (m : PhysMem) (l : List Nat) : Prop where
  spaces : Spaces m l (p :: pds)
  stays : ∀ f, InUse m₀ l₀ f → InUse m l f
  keeps : ∀ f, InUse m₀ l₀ f → Keeps m.mem m₀.mem f
  fresh : ∀ s f, s.space = p → Refers m.mem s f → ¬ InUse m₀ l₀ f
  tables : ∀ i, isUser i → T i → SameTable m.mem m₀.mem p q i
  noTable : ∀ i, isUser i → ¬ T i → ¬ present (entry m.mem p i)
  copied : ∀ v, isUser (v / 1024) → V v → SamePage m.mem m₀.mem p q v
  absent : ∀ v, isUser (v / 1024) → ¬ V v → translate m.mem p v = none

/-- Nothing has been copied to a new directory. -/
theorem Opened.copying (h : Opened pds m₀ l₀ p m l) :
    Copying pds q p m₀ l₀ (fun _ => False) (fun _ => False) m l := by
  have hnone : ∀ v, isUser (v / 1024) → translate m.mem p v = none := by
    intro v hu
    unfold translate
    rw [if_neg fun hh => h.noTables _ hu hh.1]
  refine ⟨h.spaces, h.stays, h.keeps, fun s f hs hr => ?_, fun _ _ hf => hf.elim,
    fun i hu _ => h.noTables i hu, fun _ _ hf => hf.elim, fun v hu _ => hnone v hu⟩
  cases s with
  | dir pd =>
    obtain rfl : pd = p := hs
    obtain rfl : f = pd := hr
    exact h.fresh
  | table pd i =>
    obtain rfl : pd = p := hs
    exact absurd hr.2.1 (h.noTables i hr.1)
  | page pd v =>
    obtain rfl : pd = p := hs
    obtain ⟨hu, w, hw, -⟩ := hr
    rw [hnone v hu] at hw
    simp at hw

/-- The old directories map what they mapped. -/
theorem Copying.sameView (h : Copying pds q p m₀ l₀ T V m l) (hS₀ : Spaces m₀ l₀ pds) :
    SameView m m₀ pds :=
  sameView_of_keeps fun f ht => h.keeps f (hS₀.isTable_inUse ht)

/-- The new directory is no old frame. -/
theorem Copying.fresh_dir (h : Copying pds q p m₀ l₀ T V m l) : ¬ InUse m₀ l₀ p :=
  h.fresh (.dir p) p rfl rfl

/-- A page of the new directory is a frame of its own. -/
theorem Spaces.page_apart (hS : Spaces m l pds) (hp : p ∈ pds) (hr : Refers m.mem (.page p v) f) :
    f ≠ p ∧ ∀ i, ¬ Refers m.mem (.table p i) f := by
  constructor
  · rintro rfl
    exact Slot.noConfusion (hS.single (.page f v) (.dir f) f hp hp hr rfl)
  · intro i hr'
    exact Slot.noConfusion (hS.single (.page p v) (.table p i) f hp hp hr hr')

/-- A page copied stays so while its translation and its frame are kept. -/
theorem SamePage.congr {mem' : Mem} (h : SamePage mem mem₀ p q v)
    (htr : translate mem' p v = translate mem p v)
    (hk : ∀ w, translate mem p v = some w → Keeps mem' mem (frameOf w)) : SamePage mem' mem₀ p q v := by
  rcases h with ⟨h0, h1⟩ | ⟨w, w', h0, h1, hflags, hbytes⟩
  · exact Or.inl ⟨h0, by rw [htr, h1]⟩
  · refine Or.inr ⟨w, w', h0, by rw [htr, h1], hflags, fun k hk' => ?_⟩
    rw [hk w' h1 _ (by omega) (by omega), hbytes k hk']

/-- **A page is copied.** -/
theorem Copying.page {bytes : Nat → UInt8} (h : Copying pds q p m₀ l₀ T V m l) (hu : isUser (v / 1024))
    (hpi : present (entry m.mem p (v / 1024))) (hV : ¬ V v)
    (hins : Installed (p :: pds) p v w bytes m l m' l')
    (hsame : ∃ w₀, translate m₀.mem q v = some w₀ ∧ flagsOf w = flagsOf w₀ ∧
      ∀ k, k < frameSize → bytes k = m₀.mem (frameOf w₀ + k)) :
    Copying pds q p m₀ l₀ T (fun x => V x ∨ x = v) m' l' := by
  have hself : p ∈ p :: pds := List.mem_cons_self
  have hdirs : ∀ i, isUser i → entry m'.mem p i = entry m.mem p i :=
    fun i hi => hins.dirs p hself i (isUser_lt hi) fun _ heq => heq ▸ hpi
  have hother : ∀ x, isUser (x / 1024) → x ≠ v → translate m'.mem p x = translate m.mem p x :=
    fun x hx hne => hins.other p hself x (user_vpn_lt hx) fun hh => hne hh.2
  refine ⟨hins.spaces, fun f hf => hins.stays f (h.stays f hf), fun f hf => ?_, fun s f hs hr => ?_,
    fun i hi hT => ?_, fun i hi hT => ?_, fun x hx hVx => ?_, fun x hx hVx => ?_⟩
  · refine Keeps.trans (hins.keeps f (h.stays f hf) ?_ fun hr => h.fresh _ f rfl hr hf) (h.keeps f hf)
    rintro rfl
    exact h.fresh_dir hf
  · cases s with
    | dir pd => exact h.fresh (.dir pd) f hs hr
    | table pd i =>
      obtain rfl : pd = p := hs
      obtain ⟨hi, hp, heq⟩ := hr
      rw [hdirs i hi] at hp heq
      exact h.fresh (.table pd i) f rfl ⟨hi, hp, heq⟩
    | page pd x =>
      obtain rfl : pd = p := hs
      obtain ⟨hx, w', hw', rfl⟩ := hr
      by_cases hxv : x = v
      · subst hxv
        rw [hins.here, Option.some.injEq] at hw'
        subst hw'
        exact fun hf => hins.fresh (h.stays _ hf)
      · rw [hother x hx hxv] at hw'
        exact h.fresh (.page pd x) _ rfl ⟨hx, w', hw', rfl⟩
  · unfold SameTable
    rw [hdirs i hi]
    exact h.tables i hi hT
  · rw [hdirs i hi]
    exact h.noTable i hi hT
  · by_cases hxv : x = v
    · subst hxv
      obtain ⟨w₀, hw₀, hflags, hbytes⟩ := hsame
      refine Or.inr ⟨w₀, w, hw₀, hins.here, hflags, fun k hk => ?_⟩
      rw [hins.filled k hk, hbytes k hk]
    · refine (h.copied x hx (hVx.resolve_right hxv)).congr (hother x hx hxv) fun w' hw' => ?_
      have hr : Refers m.mem (.page p x) (frameOf w') := ⟨hx, w', hw', rfl⟩
      obtain ⟨hne, hnt⟩ := h.spaces.page_apart hself hr
      exact hins.keeps _ (h.spaces.inUse (.page p x) _ hself hr) hne (hnt _)
  · have hxv : x ≠ v := fun hh => hVx (Or.inr hh)
    rw [hother x hx hxv]
    exact h.absent x hx fun hh => hVx (Or.inl hh)

/-- A page that is not there is copied by leaving it out. -/
theorem Copying.noPage (h : Copying pds q p m₀ l₀ T V m l) {W : Nat → Prop}
    (hW : ∀ v, isUser (v / 1024) → W v → ¬ V v ∧ translate m₀.mem q v = none) :
    Copying pds q p m₀ l₀ T (fun v => V v ∨ W v) m l := by
  refine ⟨h.spaces, h.stays, h.keeps, h.fresh, h.tables, h.noTable, fun v hu hv => ?_,
    fun v hu hv => h.absent v hu fun hh => hv (Or.inl hh)⟩
  by_cases hV : V v
  · exact h.copied v hu hV
  · exact Or.inl ⟨(hW v hu (hv.resolve_left hV)).2, h.absent v hu hV⟩

/-! ## The loops -/

/-- What copying page `j` of table `i` costs. -/
def pageCost (mem : Mem) (pd i j : Nat) : Nat := if present (pte mem pd i j) then 1 else 0

/-- What copying table `i` costs. -/
def tableCost (mem : Mem) (pd i : Nat) : Nat :=
  if present (entry mem pd i) then 1 + Runs.total (pageCost mem pd i) (List.range 1024) else 0

/-- **One round of the inner loop.** -/
theorem Copying.copyPage (h : Copying pds q p m₀ l₀ T V m l) (hS₀ : Spaces m₀ l₀ pds) (hq : q ∈ pds)
    (hu : isUser i) (hT : T i) (hpi : present (entry m₀.mem q i)) (hj : j < 1024)
    (hV : ¬ V (1024 * i + j)) :
    Runs.Paid (freeFrames m l) (pageCost m₀.mem q i j)
      (PhysMem.copyPage (frameOf (entry m₀.mem q i)) (frameOf (entry m.mem p i)) m j)
      fun m' n => ∃ l', freeFrames m' l' = n ∧ entry m'.mem p i = entry m.mem p i ∧
        Copying pds q p m₀ l₀ T (fun x => V x ∨ x = 1024 * i + j) m' l' := by
  have hself : p ∈ p :: pds := List.mem_cons_self
  have hdiv : (1024 * i + j) / 1024 = i := by omega
  have hmod : (1024 * i + j) % 1024 = j := by omega
  have hpp : present (entry m.mem p i) := (h.tables i hu hT).1.2 hpi
  have htable : Refers m₀.mem (.table q i) (frameOf (entry m₀.mem q i)) := ⟨hu, hpi, rfl⟩
  have hpte : entry m.mem (frameOf (entry m₀.mem q i)) j = pte m₀.mem q i j :=
    (h.keeps _ (hS₀.inUse (.table q i) _ hq htable)).entry_eq hj
  unfold PhysMem.copyPage pageCost
  simp only
  rw [hpte]
  by_cases hpj : present (pte m₀.mem q i j)
  · rw [if_pos hpj, if_pos hpj]
    apply h.spaces.pool.alloc_paid.bind_some
    rintro ⟨newPa, m₁⟩ n ⟨l₁, hn, ha⟩
    simp only at ha
    have hv₁ := h.spaces.sameView_alloc ha
    have hS₁ := h.spaces.alloc ha
    have hentry : entry m₁.mem p i = entry m.mem p i := hv₁.dirs p hself i (isUser_lt hu)
    have hframe := entry_parts (flagsOf_lt (pte m₀.mem q i j)) ha.aligned
    -- the page is mapped
    have hmap := hS₁.map_present (v := 1024 * i + j) hself (by rw [hdiv]; exact hu)
      (by rw [hdiv, hentry]; exact hpp) (h.spaces.loose_alloc ha) (flagsOf_lt (pte m₀.mem q i j))
      (present_flagsOf.2 hpj)
    rw [hdiv, hmod, hentry] at hmap
    -- and its bytes are those of the parent's page
    have hr : Refers m₀.mem (.page q (1024 * i + j)) (frameOf (pte m₀.mem q i j)) := by
      refine ⟨by rw [hdiv]; exact hu, _, translate_eq_some.2 ⟨?_, hpj, ?_⟩, rfl⟩
      · rw [hdiv]
        exact hpi
      · rw [hdiv, hmod]
    have hsrc : InUse m₀ l₀ (frameOf (pte m₀.mem q i j)) :=
      hS₀.inUse (.page q (1024 * i + j)) _ hq hr
    have hins := h.spaces.install hself (by rw [hdiv]; exact hu) ha hmap hframe.1
      (Memory.memcpy (m₁.setEntry (frameOf (entry m.mem p i)) j (flagsOf (pte m₀.mem q i j) ||| newPa)).mem newPa
        (frameOf (pte m₀.mem q i j)) frameSize) fun g hg hne => by
        apply same_memcpy
        rcases frames_apart hg ha.aligned hne with h | h
        · exact Or.inr h
        · exact Or.inl h
    refine ⟨l₁, hn, ?_, ?_⟩
    · exact hins.dirs p hself i (isUser_lt hu) fun _ _ => hpp
    · refine h.page (by rw [hdiv]; exact hu) (by rw [hdiv]; exact hpp) hV hins ?_
      obtain ⟨-, w₀, hw₀, -⟩ := hr
      obtain ⟨-, -, hw₀'⟩ := translate_eq_some.1 hw₀
      rw [hdiv, hmod] at hw₀'
      subst hw₀'
      refine ⟨_, hw₀, hframe.2.1, fun k hk => ?_⟩
      have hne : frameOf (pte m₀.mem q i j) ≠ newPa := ha.ne (h.stays _ hsrc)
      have hkeep : Keeps (m₁.setEntry (frameOf (entry m.mem p i)) j
          (flagsOf (pte m₀.mem q i j) ||| newPa)).mem m₀.mem (frameOf (pte m₀.mem q i j)) := by
        refine Keeps.trans (PhysMem.keeps_setEntry (frameOf_aligned _) hsrc.aligned hj ?_)
          (Keeps.trans (ha.keeps_inUse (h.stays _ hsrc)) (h.keeps _ hsrc))
        intro heq
        exact h.fresh (.table p i) _ rfl ⟨hu, hpp, heq⟩ hsrc
      rw [memcpy_at hk, hkeep _ (by omega) (by omega)]
  · rw [if_neg hpj, if_neg hpj]
    refine Runs.Paid.pure ⟨l, rfl, rfl, h.noPage (W := fun x => x = 1024 * i + j) ?_⟩
    rintro v - rfl
    refine ⟨hV, ?_⟩
    unfold translate
    rw [hdiv, hmod, if_neg fun hh => hpj hh.2]

/-- What is seen of `V` is all that counts. -/
theorem Copying.congr {W : Nat → Prop} (h : Copying pds q p m₀ l₀ T V m l) (hVW : ∀ v, V v ↔ W v) :
    Copying pds q p m₀ l₀ T W m l := by
  have hsame : V = W := funext fun v => propext (hVW v)
  rw [← hsame]
  exact h

/-- A new table is linked into the child's directory. -/
theorem Copying.table (h : Copying pds q p m₀ l₀ T V m l) (hu : isUser i) (hT : ¬ T i)
    (hpi : present (entry m₀.mem q i)) (ha : Allocated m l j m₁ l₁) :
    Copying pds q p m₀ l₀ (fun x => T x ∨ x = i) V
        (m₁.setEntry p i (flagsOf (entry m₀.mem q i) ||| j)) l₁ ∧
      frameOf (entry (m₁.setEntry p i (flagsOf (entry m₀.mem q i) ||| j)).mem p i) = j := by
  have hself : p ∈ p :: pds := List.mem_cons_self
  have hi := isUser_lt hu
  have hv₁ := h.spaces.sameView_alloc ha
  have hS₁ := h.spaces.alloc ha
  have hnone : ¬ present (entry m₁.mem p i) := by
    rw [hv₁.dirs p hself i hi]
    exact h.noTable i hu hT
  obtain ⟨hframe, hflags, hpres⟩ := entry_parts (flagsOf_lt (entry m₀.mem q i)) ha.aligned
  obtain ⟨hS₂, hdirs, htrans, -⟩ := hS₁.linkTable hself hu hnone (h.spaces.loose_alloc ha)
    (fun k hk => by rw [ha.entry_zero hk]; exact not_present_zero) (flagsOf_lt (entry m₀.mem q i))
  have hentry := hdirs p hself i hi
  rw [if_pos ⟨rfl, rfl⟩] at hentry
  have hother : ∀ k, isUser k → k ≠ i →
      entry (m₁.setEntry p i (flagsOf (entry m₀.mem q i) ||| j)).mem p k = entry m.mem p k := by
    intro k hk hne
    rw [hdirs p hself k (isUser_lt hk), if_neg fun hh => hne hh.2, hv₁.dirs p hself k (isUser_lt hk)]
  have hpage : ∀ v, isUser (v / 1024) →
      translate (m₁.setEntry p i (flagsOf (entry m₀.mem q i) ||| j)).mem p v = translate m.mem p v := by
    intro v hv
    rw [htrans p hself v (user_vpn_lt hv), hv₁.translate_eq hself (user_vpn_lt hv)]
  have hkeeps : ∀ f, InUse m l f → f ≠ p →
      Keeps (m₁.setEntry p i (flagsOf (entry m₀.mem q i) ||| j)).mem m.mem f := fun f hf hne =>
    Keeps.trans (PhysMem.keeps_setEntry (h.spaces.dir_aligned hself) hf.aligned hi hne)
      (ha.keeps_inUse hf)
  refine ⟨⟨hS₂, fun f hf => (ha.stays (h.stays f hf)).congr rfl, fun f hf => ?_, fun s f hs hr => ?_,
    fun k hk hTk => ?_, fun k hk hTk => ?_, fun v hv hV => ?_, fun v hv hV => ?_⟩, by rw [hentry, hframe]⟩
  · refine Keeps.trans (hkeeps f (h.stays f hf) ?_) (h.keeps f hf)
    rintro rfl
    exact h.fresh_dir hf
  · cases s with
    | dir pd => exact h.fresh (.dir pd) f hs hr
    | table pd k =>
      obtain rfl : pd = p := hs
      obtain ⟨hk, hp, heq⟩ := hr
      by_cases hki : k = i
      · subst hki
        rw [hentry, hframe] at heq
        rw [heq]
        exact fun hf => ha.fresh (h.stays j hf)
      · rw [hother k hk hki] at hp heq
        exact h.fresh (.table pd k) f rfl ⟨hk, hp, heq⟩
    | page pd v =>
      obtain rfl : pd = p := hs
      obtain ⟨hv, w, hw, heq⟩ := hr
      rw [hpage v hv] at hw
      exact h.fresh (.page pd v) f rfl ⟨hv, w, hw, heq⟩
  · by_cases hki : k = i
    · subst hki
      refine ⟨?_, fun _ => by rw [hentry, hflags]⟩
      rw [hentry, hpres, present_flagsOf]
    · unfold SameTable
      rw [hother k hk hki]
      exact h.tables k hk (hTk.resolve_right hki)
  · rw [hother k hk fun hki => hTk (Or.inr hki)]
    exact h.noTable k hk fun hh => hTk (Or.inl hh)
  · refine (h.copied v hv hV).congr (hpage v hv) fun w hw => ?_
    have hr : Refers m.mem (.page p v) (frameOf w) := ⟨hv, w, hw, rfl⟩
    exact hkeeps _ (h.spaces.inUse (.page p v) _ hself hr) (h.spaces.page_apart hself hr).1
  · rw [hpage v hv]
    exact h.absent v hv hV

/-- **One round of the outer loop**: a table and all of its pages. -/
theorem Copying.copyTable (h : Copying pds q p m₀ l₀ T (fun v => T (v / 1024)) m l)
    (hS₀ : Spaces m₀ l₀ pds) (hq : q ∈ pds) (hu : isUser i) (hT : ¬ T i) :
    Runs.Paid (freeFrames m l) (tableCost m₀.mem q i) (PhysMem.copyTable q p m i)
      fun m' n => ∃ l', freeFrames m' l' = n ∧
        Copying pds q p m₀ l₀ (fun x => T x ∨ x = i) (fun v => T (v / 1024) ∨ v / 1024 = i) m' l' := by
  have hpde : entry m.mem q i = entry m₀.mem q i := (h.sameView hS₀).dirs q hq i (isUser_lt hu)
  unfold PhysMem.copyTable tableCost
  simp only
  rw [hpde]
  by_cases hpi : present (entry m₀.mem q i)
  · rw [if_pos hpi, if_pos hpi]
    apply h.spaces.pool.alloc_paid.bind
    rintro ⟨newPt, m₁⟩ n ⟨l₁, rfl, ha⟩
    simp only at ha
    obtain ⟨htable, hframe⟩ := h.table hu hT hpi ha
    -- the inner loop
    refine (Runs.Paid.foldlM (D := fun _ => False)
      (I := fun seen m n => ∃ l, freeFrames m l = n ∧ frameOf (entry m.mem p i) = newPt ∧
        Copying pds q p m₀ l₀ (fun x => T x ∨ x = i)
          (fun v => T (v / 1024) ∨ ∃ y, seen y ∧ v = 1024 * i + y) m l)
      List.nodup_range (fun _ _ => not_false) ?_ ⟨l₁, rfl, hframe, ?_⟩).mono ?_
    · rintro y hy seen m n hseen ⟨l, rfl, rfl, hc⟩
      have hy' := List.mem_range.1 hy
      refine (hc.copyPage hS₀ hq hu (Or.inr rfl) hpi hy' ?_).mono ?_
      · rintro (hTy | ⟨y', hy', heq⟩)
        · rw [show (1024 * i + y) / 1024 = i by omega] at hTy
          exact hT hTy
        · obtain rfl : y = y' := by omega
          exact hseen hy'
      · rintro m' n' ⟨l', hn', hentry, hc'⟩
        refine ⟨l', hn', by rw [hentry], hc'.congr fun v => ?_⟩
        constructor
        · rintro ((hTv | ⟨y', hs, rfl⟩) | rfl)
          · exact Or.inl hTv
          · exact Or.inr ⟨y', Or.inl hs, rfl⟩
          · exact Or.inr ⟨y, Or.inr rfl, rfl⟩
        · rintro (hTv | ⟨y', hs | rfl, rfl⟩)
          · exact Or.inl (Or.inl hTv)
          · exact Or.inl (Or.inr ⟨y', hs, rfl⟩)
          · exact Or.inr rfl
    · refine htable.congr fun v => ⟨Or.inl, ?_⟩
      rintro (hTv | ⟨y, hs, -⟩)
      · exact hTv
      · exact hs.elim
    · rintro m' n' ⟨l', hn', -, hc⟩
      refine ⟨l', hn', hc.congr fun v => ?_⟩
      constructor
      · rintro (hTv | ⟨y, hs, rfl⟩)
        · exact Or.inl hTv
        · have hy := List.mem_range.1 (hs.resolve_left not_false)
          exact Or.inr (by omega)
      · rintro (hTv | hv)
        · exact Or.inl hTv
        · exact Or.inr ⟨v % 1024, Or.inr (List.mem_range.2 (by omega)), by omega⟩
  · rw [if_neg hpi, if_neg hpi]
    refine Runs.Paid.pure ⟨l, rfl, ?_⟩
    have hskip : Copying pds q p m₀ l₀ (fun x => T x ∨ x = i) (fun v => T (v / 1024)) m l := by
      refine ⟨h.spaces, h.stays, h.keeps, h.fresh, fun k hk hTk => ?_,
        fun k hk hTk => h.noTable k hk fun hh => hTk (Or.inl hh), h.copied, h.absent⟩
      by_cases hki : k = i
      · subst hki
        refine ⟨⟨fun hp => absurd hp (h.noTable k hk hT), fun hp => absurd hp hpi⟩,
          fun hp => absurd hp hpi⟩
      · exact h.tables k hk (hTk.resolve_right hki)
    refine hskip.noPage fun v _ hv => ?_
    subst hv
    refine ⟨hT, ?_⟩
    unfold translate
    rw [if_neg fun hh => hpi hh.1]

/-- What `copy_page_directory` costs. -/
def spaceCost (mem : Mem) (pd : Nat) : Nat :=
  Runs.total (tableCost mem pd) (List.range' PhysMem.userPDI PhysMem.userPDIs)

/-- **`copy_page_directory`** into a new directory copies every table and page of the user range. -/
theorem Opened.copyPageDirectory (h : Opened pds m₀ l₀ p m l) (hS₀ : Spaces m₀ l₀ pds) (hq : q ∈ pds) :
    Runs.Paid (freeFrames m l) (spaceCost m₀.mem q) (m.copyPageDirectory q p)
      fun m' n => ∃ l', freeFrames m' l' = n ∧
        Copying pds q p m₀ l₀ isUser (fun v => isUser (v / 1024)) m' l' := by
  have hmem : ∀ i, i ∈ List.range' PhysMem.userPDI PhysMem.userPDIs ↔ isUser i := by
    intro i
    rw [List.mem_range'_1]
    exact Iff.rfl
  have hall : (fun i => False ∨ i ∈ List.range' PhysMem.userPDI PhysMem.userPDIs) = isUser := by
    funext i
    rw [false_or, hmem i]
  unfold PhysMem.copyPageDirectory spaceCost
  refine (Runs.Paid.foldlM (D := fun _ => False)
    (I := fun seen m n => ∃ l, freeFrames m l = n ∧
      Copying pds q p m₀ l₀ seen (fun v => seen (v / 1024)) m l)
    List.nodup_range' (fun _ _ => not_false) ?_ ⟨l, rfl, h.copying⟩).mono ?_
  · rintro i hi seen m n hseen ⟨l, rfl, hc⟩
    exact hc.copyTable hS₀ hq ((hmem i).1 hi) hseen
  · rw [hall]
    exact fun m' n hc => hc

/-! ## Fork -/

/-- What `fork` costs. -/
def forkCost (mem : Mem) (pd : Nat) : Nat := 1 + spaceCost mem pd

/-- A frame for the directory, one for each table of the user range and one for each of its pages are
    enough. -/
theorem forkCost_le (mem : Mem) (pd : Nat) : forkCost mem pd ≤ 1 + 448 * 1025 := by
  have hpage : ∀ i j, pageCost mem pd i j ≤ 1 := by
    intro i j
    unfold pageCost
    split <;> omega
  have htable : ∀ i, tableCost mem pd i ≤ 1025 := by
    intro i
    have h := Runs.total_le (hpage i) (List.range 1024)
    rw [List.length_range] at h
    unfold tableCost
    split <;> omega
  have h := Runs.total_le htable (List.range' PhysMem.userPDI PhysMem.userPDIs)
  rw [List.length_range'] at h
  unfold forkCost spaceCost
  exact Nat.add_le_add_left h 1

/-- **What a fork gives**: `child`, in the state `m'`, is a copy of `parent` in the state `m`. -/
structure Forked (pds : List Nat) (parent child : TCB) (m : PhysMem) (l : List Nat) (m' : PhysMem)
    (l' : List Nat) : Prop where
  spaces : Spaces m' l' (child.pd :: pds)
  /-- Child and parent have the same logical memory. -/
  agree : ∀ va, UserAddress va → child.byteAt m' va = parent.byteAt m' va
  /-- The same pages are mapped, with the same flags and bytes. -/
  pages : ∀ v, isUser (v / 1024) → SamePage m'.mem m.mem child.pd parent.pd v
  /-- The same tables are there, with the same flags. -/
  tables : ∀ i, isUser i → SameTable m'.mem m.mem child.pd parent.pd i
  /-- The parent's logical memory is as it was. -/
  parentSame : ∀ va, UserAddress va → parent.byteAt m' va = parent.byteAt m va
  /-- So is every frame that was in use: those of the parent, and of all others. -/
  keeps : ∀ f, InUse m l f → Keeps m'.mem m.mem f
  /-- No frame of the child was in use before. -/
  fresh : ∀ s f, s.space = child.pd → Refers m'.mem s f → ¬ InUse m l f
  /-- No frame of the child is referred to twice, in its own address space or in another. -/
  apart : ∀ s s' f, s.space = child.pd → s'.space ∈ child.pd :: pds → Refers m'.mem s f →
    Refers m'.mem s' f → s = s'

/-- A complete copy has the logical memory of the original. -/
theorem Copying.byteAt_eq (h : Copying pds t.pd u.pd m₀ l₀ isUser (fun v => isUser (v / 1024)) m l)
    (hvme : u.vme = t.vme) {va : Nat} (hva : UserAddress va) : u.byteAt m va = t.byteAt m₀ va := by
  unfold TCB.byteAt
  rcases h.copied _ hva.isUser hva.isUser with ⟨h0, h1⟩ | ⟨w, w', h0, h1, -, hbytes⟩
  · rw [h0, h1, hvme]
  · rw [h0, h1]
    simp only
    rw [hbytes _ (Nat.mod_lt _ (by decide))]

/-- The original keeps its logical memory. -/
theorem Copying.byteAt_parent (h : Copying pds q p m₀ l₀ T V m l) (hS₀ : Spaces m₀ l₀ pds)
    (ht : t.pd ∈ pds) {va : Nat} (hva : UserAddress va) : t.byteAt m va = t.byteAt m₀ va := by
  refine TCB.byteAt_congr ((h.sameView hS₀).translate_eq ht (user_vpn_lt hva.isUser)) fun w hw => ?_
  exact h.keeps _ (hS₀.inUse (.page t.pd (va / frameSize)) _ ht ⟨hva.isUser, w, hw, rfl⟩)

/-- **`fork`** is paid for by its tables and pages, and gives a copy. -/
theorem Spaces.fork (hS : Spaces m l pds) (ht : t.pd ∈ pds) (hG : globalPageDirectory ∈ pds)
    (hnone : NoUserTables m.mem globalPageDirectory) :
    Runs.Paid (freeFrames m l) (forkCost m.mem t.pd) (t.fork m globalPageDirectory)
      fun cm _ => ∃ l', Forked pds t cm.1 m l cm.2 l' := by
  unfold TCB.fork forkCost
  refine (hS.newPageDirectory hG hnone).bind ?_
  rintro ⟨p, m₁⟩ n ⟨l₁, rfl, hop⟩
  refine (hop.copyPageDirectory hS ht).bind_some ?_
  rintro m' n ⟨l', -, hc⟩
  refine ⟨l', ?_⟩
  have hparent : ∀ va, UserAddress va → t.byteAt m' va = t.byteAt m va :=
    fun va hva => hc.byteAt_parent hS ht hva
  refine ⟨hc.spaces, fun va hva => ?_, fun v hu => hc.copied v hu hu, fun i hu => hc.tables i hu hu,
    hparent, hc.keeps, hc.fresh, fun s s' f hs hs' hr hr' => ?_⟩
  · rw [hparent va hva]
    exact hc.byteAt_eq (u := ⟨p, t.vme.duplicate⟩) (VME.duplicate_eq _) hva
  · exact hc.spaces.single s s' f (hs ▸ List.mem_cons_self) hs' hr hr'

/-- **Fork gives the child the same logical user memory**, if there are frames for it, and only then does
    it succeed.  After it, whatever the threads of the machine access in their user ranges, no access by
    parent or child is seen by the other. -/
theorem fork_sameMemory (m : PhysMem) (l pds : List Nat) (parent : TCB) (globalPageDirectory : Nat)
    (hS : Spaces m l pds) (hparent : parent.pd ∈ pds) (hG : globalPageDirectory ∈ pds)
    (hnone : NoUserTables m.mem globalPageDirectory) :
    ((parent.fork m globalPageDirectory).isSome = true ↔ forkCost m.mem parent.pd ≤ freeFrames m l) ∧
      ∀ child m', parent.fork m globalPageDirectory = some (child, m') →
        (∃ l', Forked pds parent child m l m' l') ∧ child.pd ≠ parent.pd ∧
          ∀ ts : List TCB, (∀ t ∈ ts, t.pd ∈ child.pd :: pds) → ∀ shared m₁ a m₂,
            Runs.Reached (fun s => s = m') (Access ts shared) m₁ → Access ts shared m₁ a m₂ →
              (a.1 = child → ∀ va, UserAddress va → parent.byteAt m₂ va = parent.byteAt m₁ va) ∧
              (a.1 = parent → ∀ va, UserAddress va → child.byteAt m₂ va = child.byteAt m₁ va) := by
  have hpaid := hS.fork hparent hG hnone
  refine ⟨hpaid.isSome_iff, fun child m' hf => ?_⟩
  obtain ⟨-, -, l', h⟩ := hpaid.of_some hf
  have hne : child.pd ≠ parent.pd := by
    intro heq
    refine h.fresh (.dir child.pd) child.pd rfl rfl ?_
    rw [heq]
    exact hS.inUse (.dir parent.pd) _ hparent rfl
  refine ⟨⟨l', h⟩, hne, fun ts hts shared m₁ a m₂ hrun ⟨ha, hva, hstep⟩ => ?_⟩
  obtain ⟨l₁, hS₁⟩ := h.spaces.accesses hts hrun
  obtain ⟨l₂, -, hiso⟩ := hS₁.access (hts _ ha) hva hstep
  constructor
  · intro heq
    rw [heq] at hiso
    exact hiso parent (List.mem_cons_of_mem _ hparent) (Ne.symm hne)
  · intro heq
    rw [heq] at hiso
    exact hiso child List.mem_cons_self hne

/-- A process with a page mapped forks. -/
theorem fork_sameMemory_mapped : ∃ (m : PhysMem) (parent child : TCB) (m' : PhysMem) (pd : Nat),
    (translate m.mem parent.pd 0x80000).isSome = true ∧ parent.fork m pd = some (child, m') ∧
      child.byteAt m' 0x80000000 = parent.byteAt m' 0x80000000 := by
  obtain ⟨m, l, pd, pd', g, hS, -, hnone, hfree, hpage, -⟩ := exists_twoProcesses
  have hg : g ∈ [pd, pd', g] := List.mem_cons_of_mem _ (List.mem_cons_of_mem _ List.mem_cons_self)
  obtain ⟨hiff, hall⟩ := fork_sameMemory m l [pd, pd', g] ⟨pd, onePage⟩ g hS List.mem_cons_self hg hnone
  have hcost : forkCost m.mem pd ≤ freeFrames m l := by
    have := forkCost_le m.mem pd
    omega
  obtain ⟨⟨child, m'⟩, hf⟩ := Option.isSome_iff_exists.1 (hiff.2 hcost)
  obtain ⟨⟨l', h⟩, -⟩ := hall child m' hf
  refine ⟨m, ⟨pd, onePage⟩, child, m', g, hpage, hf, h.agree 0x80000000 ?_⟩
  unfold UserAddress
  decide

end BadApple
