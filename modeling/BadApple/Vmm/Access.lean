/-
  What user code may access, and what mapping and unmapping do to the memory it sees.

  1. **Flags** — the tables and pages of a process are present, writable and for users (`Accessible`), so that
     the processor allows an access if and only if the page is mapped.  A page fault and `fork` keep this.
  2. **Entries and pages** — in the runs of a `VME` in which no request wraps, the pages of an entry are those
     of its addresses.
  3. **Views** — what unmapping does to the logical memory of the process, and to that of others.
-/
import BadApple.Vme.Entries
import BadApple.Vmm.Fork
import BadApple.Vmm.Destroy

namespace BadApple

open Memory

variable {m m' m₁ m₂ : PhysMem} {mem mem' : Mem} {l l' l₁ l₂ pds : List Nat} {f p q pd i j k v w va : Nat}
  {t u : TCB} {vme shared : VME BlockIo} {e : VMEEntry BlockIo}

/-! ## Flags -/

/-- Present, writable, and for users. -/
def UserFlags (w : Nat) : Prop := w % 8 = 7

theorem and_seven (w : Nat) : w &&& 0x7 = w % 8 := Nat.and_two_pow_sub_one_eq_mod w 3

theorem UserFlags.and_eq (h : UserFlags w) (write : Bool) :
    w &&& (if write then 0x7 else 0x5) = if write then 0x7 else 0x5 := by
  have h7 : w &&& 0x7 = 0x7 := by rw [and_seven, h]
  cases write with
  | true => exact h7
  | false =>
    show w &&& (0x7 &&& 0x5) = 0x5
    rw [← Nat.and_assoc, h7]
    rfl

theorem UserFlags.present (h : UserFlags w) : present w := by
  have h8 : w % 8 = 7 := h
  show w % 2 = 1
  omega

/-- The flags of an entry are in its low bits. -/
theorem userFlags_congr (h : flagsOf w = flagsOf v) : UserFlags w ↔ UserFlags v := by
  have h4096 : w % 4096 = v % 4096 := h
  show w % 8 = 7 ↔ v % 8 = 7
  omega

/-- What is put together with the flags of a user page has them. -/
theorem userFlags_or (x : Nat) : UserFlags (x ||| flagBits false true true) := by
  show (x ||| flagBits false true true) % 8 = 7
  rw [← and_seven, show flagBits false true true = 0x7 by decide, Nat.and_or_distrib_right, Nat.and_self]
  have hx : x &&& 0x7 < 2 ^ 3 := Nat.and_lt_two_pow x (by decide)
  generalize x &&& 0x7 = y at hx
  revert y
  decide

/-- The tables and pages of a directory in the user range are accessible to users. -/
structure Accessible (mem : Mem) (pd : Nat) : Prop where
  dirs : ∀ i, isUser i → present (entry mem pd i) → UserFlags (entry mem pd i)
  pages : ∀ v, isUser (v / 1024) → ∀ w, translate mem pd v = some w → UserFlags w

/-- **The processor allows an access** if and only if the page is mapped. -/
theorem Accessible.allowed_iff (h : Accessible mem pd) (hu : isUser (v / 1024)) (write : Bool) :
    TCB.allowed mem pd v write = true ↔ (translate mem pd v).isSome = true := by
  constructor
  · intro hal
    rw [TCB.translate_of_allowed hal]
    rfl
  · intro hsome
    obtain ⟨w, hw⟩ := Option.isSome_iff_exists.1 hsome
    obtain ⟨hpde, -, hpte⟩ := translate_eq_some.1 hw
    refine decide_eq_true ⟨(h.dirs _ hu hpde).and_eq write, ?_⟩
    rw [hpte]
    exact (h.pages v hu w hw).and_eq write

/-- It depends on what the directory maps. -/
theorem Accessible.congr (h : Accessible mem pd)
    (hdirs : ∀ i, isUser i → present (entry mem' pd i) → entry mem' pd i = entry mem pd i)
    (hpages : ∀ v, isUser (v / 1024) → ∀ w, translate mem' pd v = some w → translate mem pd v = some w) :
    Accessible mem' pd := by
  refine ⟨fun i hu hp => ?_, fun v hu w hw => h.pages v hu w (hpages v hu w hw)⟩
  have hsame := hdirs i hu hp
  rw [hsame] at hp ⊢
  exact h.dirs i hu hp

theorem SameView.accessible (hv : SameView m' m pds) (hpd : pd ∈ pds) (h : Accessible m.mem pd) :
    Accessible m'.mem pd :=
  h.congr (fun i hu _ => hv.dirs pd hpd i (isUser_lt hu)) fun v hu w hw => by
    rw [← hv.translate_eq hpd (user_vpn_lt hu)]
    exact hw

/-- A directory without user tables. -/
theorem NoUserTables.accessible (h : NoUserTables mem pd) : Accessible mem pd :=
  ⟨fun i hu hp => absurd hp (h i hu), fun _ hu _ hw => absurd (translate_eq_some.1 hw).1 (h _ hu)⟩

/-- The entry of a directory that `add_mapping` writes. -/
theorem Spaces.addMapping_dirs (hS : Spaces m l pds) (hq : q ∈ pds) (hu : isUser (v / 1024))
    (h : m.addMapping q v (p / frameSize) false true true = some m')
    (hflags : ∀ i, isUser i → present (entry m.mem q i) → UserFlags (entry m.mem q i)) :
    ∀ i, isUser i → present (entry m'.mem q i) → UserFlags (entry m'.mem q i) := by
  have hal := hS.dir_aligned hq
  have hj : v % 1024 < 1024 := Nat.mod_lt _ (by decide)
  rw [PhysMem.addMapping] at h
  simp only at h
  by_cases hpi : present (entry m.mem q (v / 1024))
  · rw [if_pos hpi] at h
    obtain rfl := Option.some.inj h
    intro i hi
    rw [PhysMem.entry_setEntry_of_ne (frameOf_aligned _) hal hj (isUser_lt hi)
      (Or.inl (hS.table_ne_dir hq hq hu hpi))]
    exact hflags i hi
  · rw [if_neg hpi] at h
    cases halloc : m.allocFrame with
    | none =>
      rw [halloc] at h
      cases h
    | some pm =>
      obtain ⟨pt, m₁⟩ := pm
      obtain ⟨n, -, l₁, -, ha⟩ := hS.pool.alloc_paid.of_some halloc
      simp only at ha
      have hv₁ := hS.sameView_alloc ha
      rw [halloc] at h
      obtain rfl := Option.some.inj h
      intro i hi
      -- the entry of the new table is written to the directory, then the page to the new table
      rw [PhysMem.entry_setEntry_of_ne ha.aligned hal hj (isUser_lt hi)
        (Or.inl (ha.ne (hS.inUse (.dir q) q hq rfl)))]
      have hbits : flagsOf (entry m₁.mem q (v / 1024) ||| flagBits false true true) < frameSize := flagsOf_lt _
      by_cases hiv : i = v / 1024
      · subst hiv
        rw [PhysMem.entry_setEntry ((hS.alloc ha).entry_word (hS.loose_alloc ha).inUse hbits)]
        intro _
        have hsplit := (entry_parts hbits ha.aligned).2.1
        have hflagsOf : ∀ x, flagsOf (flagsOf x) = flagsOf x := fun x => Nat.mod_mod x _
        exact (userFlags_congr (hsplit.trans (hflagsOf _).symm)).2
          ((userFlags_congr (hflagsOf _)).2 (userFlags_or _))
      · rw [PhysMem.entry_setEntry_of_ne hal hal (isUser_lt hu) (isUser_lt hi) (Or.inr hiv),
          hv₁.dirs q hq i (isUser_lt hi)]
        exact hflags i hi

/-- **A page fault** keeps the pages of the process accessible. -/
theorem Spaces.pageFault_accessible (hS : Spaces m l pds) (hq : q ∈ pds) (hva : UserAddress va)
    (h : m.pageFault q vme shared va = some m') (hacc : Accessible m.mem q) : Accessible m'.mem q := by
  have hu := hva.isUser
  rw [PhysMem.pageFault_user hva] at h
  obtain ⟨e, -, h⟩ := Option.bind_eq_some_iff.1 h
  obtain ⟨⟨p, m₁⟩, halloc, h⟩ := Option.bind_eq_some_iff.1 h
  obtain ⟨m₂, hadd, h⟩ := Option.bind_eq_some_iff.1 h
  obtain rfl := Option.some.inj h
  obtain ⟨n, -, l₁, -, ha⟩ := hS.pool.alloc_paid.of_some halloc
  simp only at ha hadd
  have hv₁ := hS.sameView_alloc ha
  have hS₁ := hS.alloc ha
  have hloose := hS.loose_alloc ha
  have hacc₁ := hv₁.accessible hq hacc
  have hdirs := hS₁.addMapping_dirs hq hu hadd hacc₁.dirs
  obtain ⟨n₂, -, l₂, -, hm⟩ := (hS₁.addMapping hq hu hloose false true true).of_some hadd
  -- the bytes go to the new page, which is no table
  obtain ⟨hflags, -⟩ := flagBits_parts false true true
  have hr : Refers m₂.mem (.page q (va / frameSize)) p :=
    ⟨hu, _, hm.here, (entry_parts hflags ha.aligned).1.symm⟩
  have hlen := e.pageBytes_length va
  have hkeeps : ∀ g, g % frameSize = 0 → g ≠ p → Keeps (store m₂.mem p (e.pageBytes va)) m₂.mem g := by
    intro g hg hne
    apply same_store
    rcases frames_apart hg ha.aligned hne with h | h
    · exact Or.inr h
    · exact Or.inl (by omega)
  have hv := (hm.spaces.write (hm.spaces.inUse (.page q _) p hq hr) (hm.spaces.page_not_table hq hr) hkeeps).2
  refine hv.accessible hq ⟨hdirs, fun v hv w hw => ?_⟩
  by_cases hself : v = va / frameSize
  · subst hself
    rw [hm.here] at hw
    obtain rfl := Option.some.inj hw
    rw [Nat.or_comm]
    exact userFlags_or p
  · rw [hm.other q hq v (user_vpn_lt hv) fun hh => hself hh.2] at hw
    exact hacc₁.pages v hv w hw

/-- **A forked child** has the flags of its parent. -/
theorem Forked.accessible (h : Forked pds t u m l m' l') (hacc : Accessible m.mem t.pd) :
    Accessible m'.mem u.pd := by
  refine ⟨fun i hu hp => ?_, fun v hu w hw => ?_⟩
  · obtain ⟨hiff, hflags⟩ := h.tables i hu
    have hp' := hiff.1 hp
    exact (userFlags_congr (hflags hp')).2 (hacc.dirs i hu hp')
  · rcases h.pages v hu with ⟨-, hnone⟩ | ⟨w₀, w', h0, h1, hflags, -⟩
    · rw [hnone] at hw
      cases hw
    · rw [h1] at hw
      obtain rfl := Option.some.inj hw
      exact (userFlags_congr hflags).2 (hacc.pages v hu w₀ h0)

/-! ## Entries and pages -/

namespace VME

variable {v : VME BlockIo} {va : Nat}

/-- What `get` finds in the private region of a process. -/
theorem InRun.get_iff (h : InRun .user v) (e : VMEEntry BlockIo) :
    v.get va = some e ↔ e ∈ v.entries ∧ e.range.Has va := by
  constructor
  · intro hget
    have he := List.mem_of_find?_eq_some hget
    have hb := inRun_inBounds (r := .user) trivial h
    have hend := Nat.lt_of_le_of_lt (hb.entries e he).2 hb.avail_lt
    exact ⟨he, (covers_iff_has hend).1 (List.find?_some hget)⟩
  · rintro ⟨he, hhas⟩
    exact InRun.get_eq (r := .user) trivial h he hhas

/-- The entries of a process lie in its region. -/
theorem InRun.inUserRange (h : InRun .user v) : InUserRange v.entries := by
  intro e he
  have hb := inRun_inBounds (r := .user) trivial h
  obtain ⟨h1, h2⟩ := hb.entries e he
  have hlimit : v.limit = 0xF0000000 := hb.limit_eq
  exact ⟨h1, Nat.le_trans h2 (hlimit ▸ hb.avail_le)⟩

theorem InRun.aligned (h : InRun .user v) : Aligned v :=
  AnyRun.aligned (r := .user) trivial (InRun.wordRun h).anyRun

end VME

namespace VME

variable {v v' : VME BlockIo}

/-- **One entry more**: `get` finds it at its addresses, where it found none, and elsewhere what it found. -/
theorem InRun.get_perm (h : InRun .user v) (va : Nat) (h' : InRun .user v')
    (hperm : v'.entries.Perm (e :: v.entries)) :
    (e.range.Has va → v'.get va = some e ∧ v.get va = none) ∧ (¬ e.range.Has va → v'.get va = v.get va) := by
  have hmem : ∀ x, x ∈ v'.entries ↔ x = e ∨ x ∈ v.entries := fun x => by rw [hperm.mem_iff, List.mem_cons]
  constructor
  · intro hhas
    refine ⟨(h'.get_iff e).2 ⟨(hmem e).2 (Or.inl rfl), hhas⟩, ?_⟩
    cases hget : v.get va with
    | none => rfl
    | some x =>
      -- the address would be in two entries
      obtain ⟨hx, hxhas⟩ := (h.get_iff x).1 hget
      have hone := InRun.once (r := .user) trivial h' va
      rw [hits_ranges, Ranges.hits_perm (hperm.map VMEEntry.range), List.map_cons, Ranges.hits_cons,
        if_pos hhas] at hone
      have hpos := Ranges.hits_pos_iff.2 ⟨x.range, List.mem_map_of_mem hx, hxhas⟩
      omega
  · intro hno
    cases hget : v.get va with
    | none =>
      cases hget' : v'.get va with
      | none => rfl
      | some x =>
        obtain ⟨hx, hxhas⟩ := (h'.get_iff x).1 hget'
        rcases (hmem x).1 hx with rfl | hx
        · exact absurd hxhas hno
        · rw [(h.get_iff x).2 ⟨hx, hxhas⟩] at hget
          cases hget
    | some x =>
      obtain ⟨hx, hxhas⟩ := (h.get_iff x).1 hget
      exact (h'.get_iff x).2 ⟨(hmem x).2 (Or.inr hx), hxhas⟩

/-- What a request does to the entries, if it is granted; one that is refused does nothing. -/
theorem InRun.addEntry_cases (h : InRun .user v) (size : Nat) (file : Option BlockIo) (fileOffset : Nat)
    (user : Bool) :
    ((v.addEntry size file fileOffset user).1 = 0 ∧ (v.addEntry size file fileOffset user).2 = v) ∨
      ((v.addEntry size file fileOffset user).1 ≠ 0 ∧ (v.addEntry size file fileOffset user).2.entries.Perm
        (⟨(v.addEntry size file fileOffset user).1, requiredPages size, size, file, fileOffset, user⟩ ::
          v.entries)) := by
  have hb := inRun_inBounds (r := .user) trivial h
  have hpos : 0 < v.avail := Nat.lt_of_lt_of_le (start_pos .user) hb.start_le
  rcases VME.addEntry_cases v size file fileOffset user hb.free_pos hpos with
    ⟨va, fs, -, hne, heq⟩ | ⟨-, -, hne, heq⟩ | ⟨-, -, heq⟩
  · rw [heq]
    exact Or.inr ⟨hne, insertEntrySorted_perm _ _⟩
  · rw [heq]
    exact Or.inr ⟨hne, insertEntrySorted_perm _ _⟩
  · rw [heq]
    exact Or.inl ⟨rfl, rfl⟩

/-- What a removal does to the entries. -/
theorem removeEntry_cases (v : VME BlockIo) (p : Nat) (user : Bool) :
    v.removeEntry p user = (none, v) ∨
      ∃ e, (v.removeEntry p user).1 = some e ∧ v.entries.Perm (e :: (v.removeEntry p user).2.entries) := by
  rw [removeEntry]
  cases hun : unlinkEntry p user v.entries with
  | none => exact Or.inl rfl
  | some x =>
    obtain ⟨e, rest⟩ := x
    obtain ⟨⟨l₁, l₂, h1, h2⟩, -, -⟩ := unlinkEntry_some hun
    refine Or.inr ⟨e, rfl, ?_⟩
    show v.entries.Perm (e :: rest)
    rw [h1, h2]
    exact List.perm_middle

end VME

/-- The pages of one entry more. -/
theorem entryPage_perm {es es' : List (VMEEntry BlockIo)} (h : es'.Perm (e :: es)) :
    EntryPage es' v ↔ EntryPage [e] v ∨ EntryPage es v := by
  constructor
  · rintro ⟨x, hx, hn⟩
    rcases List.mem_cons.1 (h.mem_iff.1 hx) with rfl | hx
    · exact Or.inl ⟨x, List.mem_singleton.2 rfl, hn⟩
    · exact Or.inr ⟨x, hx, hn⟩
  · rintro (⟨x, hx, hn⟩ | ⟨x, hx, hn⟩)
    · exact ⟨x, h.mem_iff.2 (List.mem_cons.2 (Or.inl (List.mem_singleton.1 hx))), hn⟩
    · exact ⟨x, h.mem_iff.2 (List.mem_cons_of_mem _ hx), hn⟩

/-- **The pages of entries** are those of their addresses. -/
theorem entryPage_iff {es : List (VMEEntry BlockIo)} (hrange : InUserRange es)
    (halign : ∀ e ∈ es, e.start % frameSize = 0) :
    EntryPage es (va / frameSize) ↔ ∃ e ∈ es, e.range.Has va := by
  have hword : ∀ e ∈ es, ∀ n < e.numPages,
      u32 (e.start + u32 (n * frameSize)) = e.start + n * frameSize := by
    intro e he n hn
    obtain ⟨h1, h2⟩ := hrange e he
    have hle := Nat.mul_le_mul_right frameSize (Nat.succ_le_of_lt hn)
    rw [frameSize_eq] at h2 hle ⊢
    rw [u32_of_lt (n := n * 4096) (by omega), u32_of_lt (by omega)]
  constructor
  · rintro ⟨e, he, n, hn, heq⟩
    have hn' := List.mem_range.1 hn
    rw [hword e he n hn'] at heq
    have hal := halign e he
    have hle := Nat.mul_le_mul_right frameSize (Nat.succ_le_of_lt hn')
    refine ⟨e, he, ?_⟩
    show e.start ≤ va ∧ va < e.start + e.numPages * frameSize
    rw [frameSize_eq] at heq hal hle ⊢
    omega
  · rintro ⟨e, he, hhas⟩
    obtain ⟨h1, h2⟩ : e.start ≤ va ∧ va < e.start + e.numPages * frameSize := hhas
    have hal := halign e he
    have hn : (va - e.start) / frameSize < e.numPages := by
      rw [frameSize_eq] at h2 ⊢
      omega
    refine ⟨e, he, (va - e.start) / frameSize, List.mem_range.2 hn, ?_⟩
    rw [hword e he _ hn]
    rw [frameSize_eq] at hal ⊢
    omega

/-! ## What is kept -/

/-- Directory `pd` has no new tables and pages. -/
structure Shrinks (mem' mem : Mem) (pd : Nat) : Prop where
  dirs : ∀ i, isUser i → present (entry mem' pd i) → entry mem' pd i = entry mem pd i
  pages : ∀ v, isUser (v / 1024) → ∀ w, translate mem' pd v = some w → translate mem pd v = some w

theorem Shrinks.accessible (h : Shrinks mem' mem pd) (hacc : Accessible mem pd) : Accessible mem' pd :=
  hacc.congr h.dirs h.pages

theorem Shrinks.noUserTables (h : Shrinks mem' mem pd) (hnone : NoUserTables mem pd) :
    NoUserTables mem' pd := by
  intro i hu hp
  rw [h.dirs i hu hp] at hp
  exact hnone i hu hp

theorem Shrinks.trans {mem'' : Mem} (h' : Shrinks mem'' mem' pd) (h : Shrinks mem' mem pd) :
    Shrinks mem'' mem pd := by
  refine ⟨fun i hu hp => ?_, fun v hu w hw => h.pages v hu w (h'.pages v hu w hw)⟩
  have hsame := h'.dirs i hu hp
  rw [hsame] at hp
  rw [hsame, h.dirs i hu hp]

theorem SameView.shrinks (hv : SameView m' m pds) (hpd : pd ∈ pds) : Shrinks m'.mem m.mem pd :=
  ⟨fun i hu _ => hv.dirs pd hpd i (isUser_lt hu), fun v hu w hw => by
    rw [← hv.translate_eq hpd (user_vpn_lt hu)]
    exact hw⟩

/-- The pages outside of `P` are mapped to the frames to which they were mapped, and these hold what they
    held. -/
def KeepsPages (m' m : PhysMem) (pds : List Nat) (P : Nat → Nat → Prop) : Prop :=
  ∀ pd ∈ pds, ∀ v, isUser (v / 1024) → ¬ P pd v → translate m'.mem pd v = translate m.mem pd v ∧
    ∀ w, translate m.mem pd v = some w → Keeps m'.mem m.mem (frameOf w)

variable {P P₁ P₂ : Nat → Nat → Prop}

theorem KeepsPages.refl (m : PhysMem) (pds : List Nat) (P : Nat → Nat → Prop) : KeepsPages m m pds P :=
  fun _ _ _ _ _ => ⟨rfl, fun _ _ _ _ _ => rfl⟩

theorem KeepsPages.mono (h : KeepsPages m' m pds P₁) (himp : ∀ pd v, P₁ pd v → P₂ pd v) :
    KeepsPages m' m pds P₂ :=
  fun pd hpd v hu hno => h pd hpd v hu fun hP => hno (himp pd v hP)

/-- One after the other. -/
theorem KeepsPages.trans (h₂ : KeepsPages m₂ m₁ pds P) (h₁ : KeepsPages m₁ m pds P) :
    KeepsPages m₂ m pds P := by
  intro pd hpd v hu hno
  obtain ⟨htr₁, hk₁⟩ := h₁ pd hpd v hu hno
  obtain ⟨htr₂, hk₂⟩ := h₂ pd hpd v hu hno
  refine ⟨htr₂.trans htr₁, fun w hw => (hk₂ w ?_).trans (hk₁ w hw)⟩
  rw [htr₁]
  exact hw

/-- **Logical memory outside of `P`** is as it was. -/
theorem KeepsPages.byteAt_eq (h : KeepsPages m' m pds P) (ht : t.pd ∈ pds) (hva : UserAddress va)
    (hno : ¬ P t.pd (va / frameSize)) : t.byteAt m' va = t.byteAt m va := by
  obtain ⟨htr, hk⟩ := h t.pd ht _ hva.isUser hno
  exact TCB.byteAt_congr htr hk

/-- Writes to frames that are no pages. -/
theorem SameView.keepsPages (hv : SameView m' m pds)
    (hk : ∀ pd ∈ pds, ∀ v w, isUser (v / 1024) → ¬ P pd v → translate m.mem pd v = some w →
      Keeps m'.mem m.mem (frameOf w)) : KeepsPages m' m pds P :=
  fun pd hpd v hu hno => ⟨hv.translate_eq hpd (user_vpn_lt hu), fun w => hk pd hpd v w hu hno⟩

/-- Everything in use is kept. -/
theorem keepsPages_of_keeps (hS : Spaces m l pds) (h : ∀ f, InUse m l f → Keeps m'.mem m.mem f) :
    KeepsPages m' m pds P :=
  SameView.keepsPages (sameView_of_keeps fun f hf => h f (hS.isTable_inUse hf)) fun pd hpd v w hu _ hw =>
    h _ (hS.inUse (.page pd v) _ hpd ⟨hu, w, hw, rfl⟩)

/-- **A page installed.** -/
theorem Installed.keepsPages {bytes : Nat → UInt8} (hS : Spaces m l pds) (hq : q ∈ pds)
    (h : Installed pds q v w bytes m l m' l') : KeepsPages m' m pds fun pd u => pd = q ∧ u = v := by
  intro pd hpd u hu hno
  refine ⟨h.other pd hpd u (user_vpn_lt hu) hno, fun x hx => ?_⟩
  have hr : Refers m.mem (.page pd u) (frameOf x) := ⟨hu, x, hx, rfl⟩
  refine h.keeps _ (hS.inUse (.page pd u) _ hpd hr) (fun heq => ?_) fun hr' => ?_
  · exact Slot.noConfusion (hS.single (.page pd u) (.dir q) _ hpd hq hr heq)
  · exact Slot.noConfusion (hS.single (.page pd u) (.table q _) _ hpd hq hr hr')

/-- Directories other than the one in which a page is installed. -/
theorem Installed.shrinks {bytes : Nat → UInt8} (h : Installed pds q v w bytes m l m' l') (hpd : pd ∈ pds)
    (hne : pd ≠ q) : Shrinks m'.mem m.mem pd := by
  refine ⟨fun i hu _ => h.dirs pd hpd i (isUser_lt hu) fun heq => absurd heq hne, fun u hu x hx => ?_⟩
  rw [← h.other pd hpd u (user_vpn_lt hu) fun hh => hne hh.1]
  exact hx

/-! ## Unmapping -/

/-- Pages have been unmapped, and the frames of all others hold what they held. -/
structure UnmappedKeeping (pds : List Nat) (q : Nat) (V : Nat → Prop) (m : PhysMem) (l : List Nat)
    (m' : PhysMem) (l' : List Nat) : Prop extends Unmapped pds q V m l m' l' where
  keepsPages : KeepsPages m' m pds fun pd v => pd = q ∧ V v

/-- No directory has anything new. -/
theorem Unmapped.shrinks {V : Nat → Prop} (h : Unmapped pds q V m l m' l') (hpd : pd ∈ pds) :
    Shrinks m'.mem m.mem pd := by
  refine ⟨fun i hu _ => h.dirs pd hpd i (isUser_lt hu), fun v hu w hw => ?_⟩
  by_cases hself : pd = q ∧ V v
  · obtain ⟨rfl, hV⟩ := hself
    rw [h.gone v (user_vpn_lt hu) hV] at hw
    cases hw
  · rw [← h.other pd hpd v (user_vpn_lt hu) hself]
    exact hw

theorem UnmappedKeeping.trans {V₁ V₂ : Nat → Prop} (h₁ : UnmappedKeeping pds q V₁ m l m₁ l₁)
    (h₂ : UnmappedKeeping pds q V₂ m₁ l₁ m₂ l') (hq : q ∈ pds) :
    UnmappedKeeping pds q (fun v => V₁ v ∨ V₂ v) m l m₂ l' :=
  ⟨h₁.toUnmapped.trans h₂.toUnmapped hq,
    (h₂.keepsPages.mono fun _ _ hP => ⟨hP.1, Or.inr hP.2⟩).trans
      (h₁.keepsPages.mono fun _ _ hP => ⟨hP.1, Or.inl hP.2⟩)⟩

/-- **`remove_mapping`** writes to a table and to the frame it gives back. -/
theorem Spaces.removeMapping_keeps (hS : Spaces m l pds) (hq : q ∈ pds) (hu : isUser (v / 1024))
    (h : m.removeMapping q v = some m') : KeepsPages m' m pds fun pd u => pd = q ∧ u = v := by
  have hq0 : q ≠ 0 := Nat.ne_of_gt (hS.inUse (.dir q) q hq rfl).pos
  have hj : v % 1024 < 1024 := Nat.mod_lt _ (by decide)
  rw [PhysMem.removeMapping, if_neg hq0] at h
  simp only at h
  by_cases hp : present (entry m.mem q (v / 1024))
  · rw [if_pos hp] at h
    obtain ⟨m₁, hfree, rfl⟩ := Option.map_eq_some_iff.1 h
    -- the page is given back, if there is one
    have hkeeps : ∀ g, g % frameSize = 0 → (∀ w, translate m.mem q v = some w → g ≠ frameOf w) →
        Keeps m₁.mem m.mem g := by
      intro g hg hne
      by_cases hpte : present (entry m.mem (frameOf (entry m.mem q (v / 1024))) (v % 1024))
      · rw [if_pos hpte] at hfree
        have hw := translate_eq_some.2 ⟨hp, hpte, rfl⟩
        have hin := hS.inUse (.page q v) _ hq ⟨hu, _, hw, rfl⟩
        obtain ⟨m₂, hd, -, -, hk⟩ := hS.pool.dealloc hin
        rw [hd] at hfree
        obtain rfl := Option.some.inj hfree
        exact hk g hg (hne _ hw)
      · rw [if_neg hpte] at hfree
        obtain rfl := Option.some.inj hfree
        exact fun _ _ _ => rfl
    have hview : SameView m₁ m pds := by
      refine sameView_of_keeps fun g hg => hkeeps g (hS.isTable_inUse hg).aligned ?_
      rintro w hw rfl
      exact hS.page_not_table hq ⟨hu, w, hw, rfl⟩ hg
    have htrans := (hS.view_setPte hview hq hu hp hj (w := 0) (by decide)).2
    rw [show 1024 * (v / 1024) + v % 1024 = v by omega] at htrans
    intro pd hpd u huu hno
    refine ⟨by rw [htrans pd hpd u (user_vpn_lt huu), if_neg hno], fun w hw => ?_⟩
    have hr : Refers m.mem (.page pd u) (frameOf w) := ⟨huu, w, hw, rfl⟩
    have hne : frameOf w ≠ frameOf (entry m.mem q (v / 1024)) := fun heq =>
      Slot.noConfusion (hS.single (.page pd u) (.table q _) _ hpd hq hr ⟨hu, hp, heq⟩)
    refine (PhysMem.keeps_setEntry (frameOf_aligned _) (frameOf_aligned _) hj hne).trans
      (hkeeps _ (frameOf_aligned _) fun w' hw' heq => ?_)
    have hslot := hS.single (.page pd u) (.page q v) _ hpd hq hr ⟨hu, w', hw', heq⟩
    exact hno (Slot.page.inj hslot)
  · rw [if_neg hp] at h
    obtain rfl := Option.some.inj h
    exact KeepsPages.refl _ _ _

/-- **Destroying entries**: their pages are unmapped from the directory in `CR3`, and all others are kept. -/
theorem Spaces.destroyEntries_keeps (hS : Spaces m l pds) (hq : q ∈ pds) {es : List (VMEEntry BlockIo)}
    (hrange : InUserRange es) : ∃ m' l', es.foldlM (PhysMem.destroyEntry q) m = some m' ∧
      UnmappedKeeping pds q (EntryPage es) m l m' l' := by
  have hloop : ∀ {α : Type} {step : PhysMem → α → Option PhysMem} {V : α → Nat → Prop} {xs : List α},
      (∀ x ∈ xs, ∀ m l, Spaces m l pds →
        ∃ m' l', step m x = some m' ∧ UnmappedKeeping pds q (V x) m l m' l') →
      ∀ {m : PhysMem} {l : List Nat}, Spaces m l pds → ∃ m' l', xs.foldlM step m = some m' ∧
        UnmappedKeeping pds q (fun v => ∃ x ∈ xs, V x v) m l m' l' := by
    intro α step V xs hstep m l hS
    apply Runs.foldlM_effect (R := UnmappedKeeping pds q) (I := fun m l => Spaces m l pds) (V := V)
    · exact fun m l hS => ⟨hS.unmapped_none (by simp), KeepsPages.refl _ _ _⟩
    · exact fun V₁ V₂ m l m₁ l₁ m₂ l₂ h₁ h₂ => h₁.trans h₂ hq
    · exact fun V m l m' l' h => h.spaces
    · exact hstep
    · exact hS
  refine hloop (fun e he m l hS => ?_) hS
  refine hloop (fun n hn m l hS => ?_) hS
  have hu := hrange.isUser ⟨e, he, n, hn, rfl⟩
  obtain ⟨m', l', hd, h⟩ := hS.removeMapping hq hu
  exact ⟨m', l', hd, h, hS.removeMapping_keeps hq hu hd⟩

/-- Tables have been given back, and the frames of all other pages hold what they held. -/
structure ClearedKeeping (pds : List Nat) (q : Nat) (I : Nat → Prop) (m : PhysMem) (l : List Nat)
    (m' : PhysMem) (l' : List Nat) : Prop extends Cleared pds q I m l m' l' where
  keepsPages : KeepsPages m' m pds fun pd v => pd = q ∧ I (v / 1024)

/-- No directory has anything new. -/
theorem Cleared.shrinks {I : Nat → Prop} (h : Cleared pds q I m l m' l') (hpd : pd ∈ pds) :
    Shrinks m'.mem m.mem pd := by
  have hdirs : ∀ i, i < 1024 → present (entry m'.mem pd i) → ¬ (pd = q ∧ I i) := by
    rintro i hi hp ⟨rfl, hI⟩
    exact h.gone i hi hI hp
  refine ⟨fun i hu hp => h.dirs pd hpd i (isUser_lt hu) (hdirs i (isUser_lt hu) hp), fun v hu w hw => ?_⟩
  have hp := (translate_eq_some.1 hw).1
  rw [← h.other pd hpd v (user_vpn_lt hu) (hdirs _ (isUser_lt hu) hp)]
  exact hw

/-- **`remove_PT_mapping`** writes to the directory and to the table it gives back. -/
theorem Spaces.removePTMapping_keeps (hS : Spaces m l pds) (hq : q ∈ pds) (hu : isUser i)
    (h : m.removePTMapping q i = some m') : KeepsPages m' m pds fun pd v => pd = q ∧ v / 1024 = i := by
  obtain ⟨m₂, l₂, h₂, hcl⟩ := hS.removePTMapping hq hu
  obtain rfl : m₂ = m' := by
    rw [h] at h₂
    exact (Option.some.inj h₂).symm
  rw [PhysMem.removePTMapping] at h
  intro pd hpd v huv hno
  refine ⟨hcl.other pd hpd v (user_vpn_lt huv) hno, fun w hw => ?_⟩
  have hr : Refers m.mem (.page pd v) (frameOf w) := ⟨huv, w, hw, rfl⟩
  by_cases hp : present (entry m.mem q i)
  · rw [if_pos hp] at h
    obtain ⟨m₁, hd, rfl⟩ := Option.map_eq_some_iff.1 h
    have htable : Refers m.mem (.table q i) (frameOf (entry m.mem q i)) := ⟨hu, hp, rfl⟩
    obtain ⟨m₃, hd₃, -, -, hk⟩ := hS.pool.dealloc (hS.inUse (.table q i) _ hq htable)
    rw [hd₃] at hd
    obtain rfl := Option.some.inj hd
    refine (PhysMem.keeps_setEntry (hS.dir_aligned hq) (frameOf_aligned _) (isUser_lt hu) fun heq => ?_).trans
      (hk _ (frameOf_aligned _) fun heq => ?_)
    · exact Slot.noConfusion (hS.single (.page pd v) (.dir q) _ hpd hq hr heq)
    · exact Slot.noConfusion (hS.single (.page pd v) (.table q i) _ hpd hq hr ⟨hu, hp, heq⟩)
  · rw [if_neg hp] at h
    obtain rfl := Option.some.inj h
    exact fun _ _ _ => rfl

/-- **Clearing the user range** of a directory, which keeps the pages of all others. -/
theorem Spaces.clearUser_keeps (hS : Spaces m l pds) (hq : q ∈ pds) :
    ∃ m' l', (List.range' PhysMem.userPDI PhysMem.userPDIs).foldlM (fun m i => m.removePTMapping q i) m =
      some m' ∧ ClearedKeeping pds q isUser m l m' l' := by
  have hmem : ∀ i, i ∈ List.range' PhysMem.userPDI PhysMem.userPDIs ↔ isUser i := by
    intro i
    rw [List.mem_range'_1]
    exact Iff.rfl
  have hsame : (fun i => ∃ k ∈ List.range' PhysMem.userPDI PhysMem.userPDIs, i = k) = isUser := by
    funext i
    refine propext ⟨?_, fun hi => ⟨i, (hmem i).2 hi, rfl⟩⟩
    rintro ⟨k, hk, rfl⟩
    exact (hmem i).1 hk
  rw [← hsame]
  apply Runs.foldlM_effect (R := ClearedKeeping pds q) (I := fun m l => Spaces m l pds)
    (V := fun k i => i = k)
  · exact fun m l hS => ⟨hS.cleared_none (by simp), KeepsPages.refl _ _ _⟩
  · exact fun I₁ I₂ m l m₁ l₁ m₂ l₂ h₁ h₂ => ⟨h₁.toCleared.trans h₂.toCleared hq,
      (h₂.keepsPages.mono fun _ _ hP => ⟨hP.1, Or.inr hP.2⟩).trans
        (h₁.keepsPages.mono fun _ _ hP => ⟨hP.1, Or.inl hP.2⟩)⟩
  · exact fun I m l m' l' h => h.spaces
  · intro k hk m l hS
    have hu := (hmem k).1 hk
    obtain ⟨m', l', hd, h⟩ := hS.removePTMapping hq hu
    exact ⟨m', l', hd, h, hS.removePTMapping_keeps hq hu hd⟩
  · exact hS

/-! ## Bytes written, directories given back -/

/-- Fewer directories. -/
theorem Spaces.subset {pds' : List Nat} (hS : Spaces m l pds) (h : ∀ pd ∈ pds', pd ∈ pds) :
    Spaces m l pds' := by
  refine ⟨hS.pool, fun s f hs hr => hS.inUse s f (h _ hs) hr,
    fun s s' f hs hs' hr hr' => hS.single s s' f (h _ hs) (h _ hs') hr hr', fun pd hpd i hi hu hp => ?_⟩
  obtain ⟨hin, hno⟩ := hS.shared pd (h pd hpd) i hi hu hp
  exact ⟨hin, fun s hs => hno s (h _ hs)⟩

/-- A frame lies in front of its end. -/
theorem offset_lt (a : Nat) : a % frameSize < frameSize := Nat.mod_lt _ (by decide)

/-- **A byte written by user code** is the only one that changes, in any address space. -/
theorem Spaces.storeByte (hS : Spaces m l pds) (ht : t.pd ∈ pds) (hva : UserAddress va)
    (hw : translate m.mem t.pd (va / frameSize) = some w) (b : UInt8) :
    Spaces { m with mem := store m.mem (frameOf w + va % frameSize) [b] } l pds ∧
      SameView { m with mem := store m.mem (frameOf w + va % frameSize) [b] } m pds ∧
      ∀ u : TCB, u.pd ∈ pds → ∀ a, UserAddress a →
        u.byteAt { m with mem := store m.mem (frameOf w + va % frameSize) [b] } a =
          if u.pd = t.pd ∧ a = va then some b else u.byteAt m a := by
  have hlt := offset_lt va
  have hr : Refers m.mem (.page t.pd (va / frameSize)) (frameOf w) := ⟨hva.isUser, w, hw, rfl⟩
  have hkeeps : ∀ g, g % frameSize = 0 → g ≠ frameOf w →
      Keeps (store m.mem (frameOf w + va % frameSize) [b]) m.mem g := by
    intro g hg hne
    apply same_store
    rw [List.length_singleton]
    rcases frames_apart hg (frameOf_aligned _) hne with h | h
    · exact Or.inr (by omega)
    · exact Or.inl (by omega)
  obtain ⟨hS', hv⟩ := hS.write (hS.inUse (.page t.pd _) _ ht hr) (hS.page_not_table ht hr) hkeeps
  refine ⟨hS', hv, fun u hu a ha => ?_⟩
  have htr := hv.translate_eq hu (user_vpn_lt ha.isUser)
  by_cases hpage : u.pd = t.pd ∧ a / frameSize = va / frameSize
  · -- another byte of the same page, or this one
    obtain ⟨hpd, hsame⟩ := hpage
    have hwa : translate m.mem u.pd (a / frameSize) = some w := by
      rw [hpd, hsame]
      exact hw
    have hone : store m.mem (frameOf w + va % frameSize) [b] =
        Function.update m.mem (frameOf w + va % frameSize) b := by
      rw [store_cons, store_nil]
    rw [TCB.byteAt, TCB.byteAt, htr, hwa]
    simp only
    rw [hone]
    by_cases heq : a = va
    · rw [if_pos ⟨hpd, heq⟩, heq, Function.update_self]
    · have hne : frameOf w + a % frameSize ≠ frameOf w + va % frameSize := by
        rw [frameSize_eq] at hsame ⊢
        omega
      rw [if_neg fun hh => heq hh.2, Function.update_of_ne hne]
  · rw [if_neg fun hh => hpage ⟨hh.1, by rw [hh.2]⟩]
    refine TCB.byteAt_congr htr fun x hx => hkeeps _ (frameOf_aligned _) fun heq => hpage ?_
    rw [← heq] at hr
    have hx' : Refers m.mem (.page u.pd (a / frameSize)) (frameOf x) := ⟨ha.isUser, x, hx, rfl⟩
    exact Slot.page.inj (hS.single (.page u.pd _) (.page t.pd _) _ hu ht hx' hr)

/-- **Giving back a directory** leaves all others as they are. -/
theorem Spaces.release {others : List Nat} (hS : Spaces m l (q :: others)) (hq : q ∉ others)
    (h : m.deallocFrame q = some m') :
    Spaces m' (q :: l) others ∧ SameView m' m others ∧ KeepsPages m' m others fun _ _ => False := by
  have hself : q ∈ q :: others := List.mem_cons_self
  have hin := hS.inUse (.dir q) q hself rfl
  obtain ⟨m₁, hd, hP, hiff, hkeep⟩ := hS.pool.dealloc hin
  rw [h] at hd
  obtain rfl := Option.some.inj hd
  have hS' : Spaces m l others := hS.subset fun pd hpd => List.mem_cons_of_mem _ hpd
  -- nothing of the others is the directory
  have hapart : ∀ s f, s.space ∈ others → Refers m.mem s f → f ≠ q := by
    rintro s f hs hr rfl
    have hslot := hS.single s (.dir f) f (List.mem_cons_of_mem _ hs) hself hr rfl
    rw [hslot] at hs
    exact hq hs
  have hshared : ∀ pd ∈ others, ∀ i, i < 1024 → present (entry m.mem pd i) →
      frameOf (entry m.mem pd i) ≠ q := by
    intro pd hpd i hi hp heq
    by_cases hu : isUser i
    · exact hapart (.table pd i) _ hpd ⟨hu, hp, rfl⟩ heq
    · exact (hS.shared pd (List.mem_cons_of_mem _ hpd) i hi hu hp).2 (.dir q) hself heq
  have hview : SameView m' m others := by
    refine sameView_of_keeps fun g hg => hkeep g (hS'.isTable_inUse hg).aligned ?_
    rintro rfl
    obtain ⟨pd, hpd, rfl | ⟨i, hi, hp, heq⟩⟩ := hg
    · exact hq hpd
    · exact hshared pd hpd i hi hp heq.symm
  have hold : ∀ s f, s.space ∈ others → Refers m'.mem s f → Refers m.mem s f := fun s f hs hr =>
    (hview.refers_iff hs).1 hr
  refine ⟨⟨hP, fun s f hs hr => ?_, fun s s' f hs hs' hr hr' => ?_, fun pd hpd i hi hu hp => ?_⟩, hview,
    hview.keepsPages fun pd hpd v w hu _ hw => ?_⟩
  · have hr' := hold s f hs hr
    exact (hiff f).2 ⟨hS'.inUse s f hs hr', hapart s f hs hr'⟩
  · exact hS'.single s s' f hs hs' (hold s f hs hr) (hold s' f hs' hr')
  · rw [hview.dirs pd hpd i hi] at hp ⊢
    obtain ⟨h1, h2⟩ := hS'.shared pd hpd i hi hu hp
    exact ⟨(hiff _).2 ⟨h1, hshared pd hpd i hi hp⟩, fun s hs hr => h2 s hs (hold s _ hs hr)⟩
  · exact hkeep _ (frameOf_aligned _) (hapart (.page pd v) _ hpd ⟨hu, w, hw, rfl⟩)

/-- **Clearing an address space**, as `execl` does: the entries are destroyed while it is in `CR3`, and its
    tables are given back. -/
theorem Spaces.clearSpace (hS : Spaces m l pds) (hq : q ∈ pds) {es : List (VMEEntry BlockIo)}
    (hrange : InUserRange es) : ∃ m₁ m' l', es.foldlM (PhysMem.destroyEntry q) m = some m₁ ∧
      (List.range' PhysMem.userPDI PhysMem.userPDIs).foldlM (fun m i => m.removePTMapping q i) m₁ = some m' ∧
      Spaces m' l' pds ∧ (∀ pd ∈ pds, Shrinks m'.mem m.mem pd) ∧ NoUserTables m'.mem q ∧
      KeepsPages m' m pds fun pd _ => pd = q := by
  obtain ⟨m₁, l₁, h₁, hun⟩ := hS.destroyEntries_keeps hq hrange
  obtain ⟨m', l', h', hcl⟩ := hun.spaces.clearUser_keeps hq
  refine ⟨m₁, m', l', h₁, h', hcl.spaces, fun pd hpd => (hcl.shrinks hpd).trans (hun.shrinks hpd),
    fun i hu => hcl.gone i (isUser_lt hu) hu, ?_⟩
  exact (hcl.keepsPages.mono fun _ _ h => h.1).trans (hun.keepsPages.mono fun _ _ h => h.1)

/-- **What `~TCB` leaves of the others**: the thread that runs loses the pages that the dead thread's entries
    cover, and nothing else changes. -/
theorem Spaces.destroy_keeps {others : List Nat} {cr3 : Nat} (hS : Spaces m l (t.pd :: others))
    (ht : t.pd ∉ others) (hcr3 : cr3 ∈ others) (hrange : InUserRange t.vme.entries)
    (h : t.destroy m cr3 = some m') : ∃ l', Spaces m' l' others ∧ (∀ pd ∈ others, Shrinks m'.mem m.mem pd) ∧
      KeepsPages m' m others (fun pd v => pd = cr3 ∧ EntryPage t.vme.entries v) ∧
      ∀ v, isUser (v / 1024) → EntryPage t.vme.entries v → translate m'.mem cr3 v = none := by
  have hself : t.pd ∈ t.pd :: others := List.mem_cons_self
  have hcons : ∀ pd ∈ others, pd ∈ t.pd :: others := fun pd hpd => List.mem_cons_of_mem _ hpd
  obtain ⟨m₁, l₁, h₁, hun⟩ := hS.destroyEntries_keeps (hcons _ hcr3) hrange
  obtain ⟨m₂, l₂, h₂, hcl⟩ := hun.spaces.clearUser_keeps hself
  rw [TCB.destroy, h₁] at h
  simp only [Option.bind_eq_bind, Option.bind_some] at h
  rw [h₂] at h
  obtain ⟨hS₃, hview, hk₃⟩ := hcl.spaces.release ht h
  have hne : ∀ pd ∈ others, pd ≠ t.pd := fun pd hpd heq => ht (heq ▸ hpd)
  refine ⟨_, hS₃, fun pd hpd => ?_, fun pd hpd v hu hno => ?_, fun v hu hv => ?_⟩
  · exact (hview.shrinks hpd).trans ((hcl.shrinks (hcons pd hpd)).trans (hun.shrinks (hcons pd hpd)))
  · obtain ⟨htr₁, hk₁⟩ := hun.keepsPages pd (hcons pd hpd) v hu hno
    obtain ⟨htr₂, hk₂⟩ := hcl.keepsPages pd (hcons pd hpd) v hu fun hh => hne pd hpd hh.1
    obtain ⟨htr₃, hk₃⟩ := hk₃ pd hpd v hu not_false
    refine ⟨htr₃.trans (htr₂.trans htr₁), fun w hw => ?_⟩
    have hw₁ := htr₁.trans hw
    exact (hk₃ w (htr₂.trans hw₁)).trans ((hk₂ w hw₁).trans (hk₁ w hw))
  · rw [hview.translate_eq hcr3 (user_vpn_lt hu),
      hcl.other cr3 (hcons _ hcr3) v (user_vpn_lt hu) fun hh => hne cr3 hcr3 hh.1]
    exact hun.gone v (user_vpn_lt hu) hv

end BadApple
