/-
  What `vmm_pageFault` puts into a page that has a file.

  1. **What should be there** — `fileByte`: the byte of the file that belongs to a place of the page, with all
     sums as natural numbers; zero after the end of the entry and after the end of the file.
  2. **What is read** — the handler adds the offset of the page to the offset of the mapping in 32 bits.  The
     other sums and differences are exact, for every entry that `get` finds.
  3. **The frame** — it is new and zero before the file is read into it, in both regions.
  4. **The result** — `pageFault_contents`: the page is right if and only if the sum does not wrap, or only
     zeros are read.
-/
import BadApple.Vme.Entries
import BadApple.Vmm.Fault
import BadApple.Vmm.SharedTables

namespace BadApple

open Memory

open Ranges (Range)

variable {m m' m₁ m₂ : PhysMem} {mem mem' : Mem} {l pds : List Nat} {va cr3 p k : Nat} {e : VMEEntry BlockIo}
  {file : BlockIo} {r : Region} {v other : VME BlockIo}

/-! ## What should be there -/

namespace VMEEntry

/-- The first address of the page of `va`, counted from the start of the entry. -/
def pageOffset (e : VMEEntry BlockIo) (va : Nat) : Nat := va / frameSize * frameSize - e.start

/-- The byte that belongs at `k` of the page of `va`. -/
def fileByte (e : VMEEntry BlockIo) (file : BlockIo) (va k : Nat) : UInt8 :=
  let i := e.pageOffset va + k
  if i < e.size ∧ e.fileOffset + i < file.sizeInBytes then file.byte (e.fileOffset + i) else 0

/-- Where the handler reads the file from. -/
def readsFrom (e : VMEEntry BlockIo) (va : Nat) : Nat := u32 (e.fileOffset + e.pageOffset va)

/-- The sum of the offsets does not wrap; or, from where the handler reads, there are only zeros. -/
def OffsetFits (e : VMEEntry BlockIo) (file : BlockIo) (va : Nat) : Prop :=
  e.fileOffset + e.pageOffset va < 4294967296 ∨ ∀ k, k < frameSize → e.pageOffset va + k < e.size →
    e.readsFrom va + k < file.sizeInBytes → file.byte (e.readsFrom va + k) = 0

/-- The page begins in the entry, before the end of its size: no difference underflows. -/
def HasPage (e : VMEEntry BlockIo) (va : Nat) : Prop :=
  e.start ≤ va / frameSize * frameSize ∧ e.pageOffset va < e.size

end VMEEntry

/-- What the types say about a file. -/
structure BlockIo.Sized (file : BlockIo) : Prop where
  block : 0 < file.blockSize
  size : file.sizeInBytes < 4294967296

/-! ## What is read -/

/-- **What the handler puts at a place of the page.** -/
theorem VMEEntry.pageByte_eq (hfile : e.file = some file) (hok : file.Sized) (hpage : e.HasPage va)
    (hsize : e.size < 4294967296) (hk : k < frameSize) : e.pageByte va k =
      if e.pageOffset va + k < e.size ∧ e.readsFrom va + k < file.sizeInBytes then file.byte (e.readsFrom va + k)
      else 0 := by
  obtain ⟨hstart, hlt⟩ := hpage
  have hoffset : u32 (va / frameSize * frameSize + 4294967296 - e.start) = e.pageOffset va := by
    unfold VMEEntry.pageOffset at *
    rw [u32_eq]
    omega
  have hleft : u32 (e.size + 4294967296 - e.pageOffset va) = e.size - e.pageOffset va := by
    rw [u32_eq]
    omega
  unfold VMEEntry.pageByte VMEEntry.pageBytes
  simp only [hfile, hoffset, hleft]
  rw [show u32 (e.fileOffset + e.pageOffset va) = e.readsFrom va from rfl]
  by_cases hread : e.readsFrom va ≤ file.sizeInBytes
  · rw [BlockIo.readAll_eq hok.block _ _ hread, BlockIo.bytesFrom_getD]
    refine if_congr ?_ rfl rfl
    by_cases hlong : frameSize < e.size - e.pageOffset va
    · rw [if_pos hlong]
      omega
    · rw [if_neg hlong]
      omega
  · -- past the end of the file, nothing is read
    have hn : 0 < if frameSize < e.size - e.pageOffset va then frameSize else e.size - e.pageOffset va := by
      split <;> omega
    rw [(BlockIo.readAllCount_past (Nat.lt_of_not_le hread) hn).2, if_neg fun h => hread (by omega)]
    rfl

/-- **A page is what it should be** if and only if the offsets fit. -/
theorem VMEEntry.pageByte_eq_fileByte_iff (hfile : e.file = some file) (hok : file.Sized) (hpage : e.HasPage va)
    (hsize : e.size < 4294967296) :
    (∀ k, k < frameSize → e.pageByte va k = e.fileByte file va k) ↔ e.OffsetFits file va := by
  by_cases hwrap : e.fileOffset + e.pageOffset va < 4294967296
  · refine ⟨fun _ => Or.inl hwrap, fun _ k hk => ?_⟩
    rw [pageByte_eq hfile hok hpage hsize hk, fileByte, readsFrom, u32_of_lt hwrap]
    simp only [Nat.add_assoc]
  · -- the file has no byte at the sum
    have hnone : ∀ k, e.fileByte file va k = 0 := by
      intro k
      have hend := hok.size
      rw [fileByte]
      exact if_neg fun h => hwrap (by omega)
    constructor
    · intro h
      refine Or.inr fun k hk hin hthere => ?_
      have hbyte := h k hk
      rwa [pageByte_eq hfile hok hpage hsize hk, hnone k, if_pos ⟨hin, hthere⟩] at hbyte
    · rintro (hfits | hzeros) k hk
      · exact absurd hfits hwrap
      · rw [pageByte_eq hfile hok hpage hsize hk, hnone k]
        by_cases hread : e.pageOffset va + k < e.size ∧ e.readsFrom va + k < file.sizeInBytes
        · rw [if_pos hread]
          exact hzeros k hk hread.1 hread.2
        · exact if_neg hread

/-! ## The frame -/

/-- The addresses of a region. -/
def Region.Address : Region → Nat → Prop
  | .user, va => UserAddress va
  | .shared _ _, va => 0xF0000000 ≤ va ∧ va < 4294967296

/-- A machine on which a page of the region may fault: the address spaces are apart; or the tables of the
    shared region are as they should be, and the page is not there. -/
def Region.Ready (m : PhysMem) (cr3 va : Nat) : Region → Prop
  | .user => ∃ l pds, Spaces m l pds ∧ cr3 ∈ pds
  | .shared _ _ => ∃ l dirs table old t, SharedTables m l dirs table old ∧ dirs t = cr3 ∧
      ¬ present (sharedPte table m.mem (va / frameSize))

/-- `vmm_pageFault`, where `v` is the `VME` of the region and `other` the one that is not asked. -/
def Region.fault (m : PhysMem) (cr3 : Nat) (v other : VME BlockIo) (va : Nat) : Region → Option PhysMem
  | .user => m.pageFault cr3 v other va
  | .shared _ _ => m.pageFault cr3 other v va

/-- What a page fault does before it reads the file: frame `p` is taken and mapped. -/
def FrameMapped (m : PhysMem) (cr3 va p : Nat) (m₂ : PhysMem) : Prop :=
  ∃ m₁, m.allocFrame = some (p, m₁) ∧
    m₁.addMapping cr3 (va / frameSize) (p / frameSize) false true true = some m₂

/-- A page fault that returns has found an entry, mapped a frame, and read the bytes of the page into it. -/
theorem Region.fault_some (haddress : r.Address va) (hready : r.Ready m cr3 va)
    (h : r.fault m cr3 v other va = some m') : ∃ e p m₂, v.get va = some e ∧ FrameMapped m cr3 va p m₂ ∧
      m' = { m₂ with mem := store m₂.mem p (e.pageBytes va) } := by
  have hparts : ((v.get va).bind fun e => m.allocFrame.bind fun pm =>
      (pm.2.addMapping cr3 (va / frameSize) (pm.1 / frameSize) false true true).bind fun m =>
        some { m with mem := store m.mem pm.1 (e.pageBytes va) }) = some m' := by
    cases r with
    | user => exact (PhysMem.pageFault_user haddress).symm.trans h
    | shared ioAPIC localAPIC =>
      obtain ⟨l, dirs, table, old, t, hT, rfl, habsent⟩ := hready
      have hno : ¬ m.checkVPN (dirs t) (va / frameSize) = true :=
        fun hc => habsent ((hT.checkVPN_iff (isShared_of_address haddress.1 haddress.2) t).1 hc)
      rw [← h]
      unfold Region.fault PhysMem.pageFault
      simp only
      rw [if_neg fun hh => hno hh.2, if_pos haddress.1]
      cases v.get va with
      | none => rfl
      | some e => rfl
  obtain ⟨e, hget, hrest⟩ := Option.bind_eq_some_iff.1 hparts
  obtain ⟨⟨p, m₁⟩, halloc, hrest⟩ := Option.bind_eq_some_iff.1 hrest
  obtain ⟨m₂, hadd, hm'⟩ := Option.bind_eq_some_iff.1 hrest
  exact ⟨e, p, m₂, hget, ⟨m₁, halloc, hadd⟩, (Option.some.inj hm').symm⟩

/-- **The frame is zero, and the page is there** after the bytes have been written. -/
theorem Region.frame_mapped (haddress : r.Address va) (hready : r.Ready m cr3 va)
    (h : FrameMapped m cr3 va p m₂) {bytes : List UInt8} (hlen : bytes.length ≤ frameSize) :
    (∀ k, k < frameSize → m₂.mem (p + k) = 0) ∧
      ∃ w, translate (store m₂.mem p bytes) cr3 (va / frameSize) = some w ∧ frameOf w = p := by
  obtain ⟨m₁, halloc, hadd⟩ := h
  have hkeeps : p % frameSize = 0 → ∀ g, g % frameSize = 0 → g ≠ p → Keeps (store m₂.mem p bytes) m₂.mem g := by
    intro hp g hg hne
    apply same_store
    rcases frames_apart hg hp hne with h | h
    · exact Or.inr h
    · exact Or.inl (by omega)
  cases r with
  | user =>
    obtain ⟨l, pds, hS, hq⟩ := hready
    have hu := UserAddress.isUser haddress
    obtain ⟨n, -, l₁, rfl, ha⟩ := hS.pool.alloc_paid.of_some halloc
    simp only at ha
    obtain ⟨n, -, l₂, -, hm⟩ := ((hS.alloc ha).addMapping hq hu (hS.loose_alloc ha) false true true).of_some hadd
    obtain ⟨hflags, -⟩ := flagBits_parts false true true
    have hframe := (entry_parts hflags ha.aligned).1
    have hins := hS.install hq hu ha hm hframe (store m₂.mem p bytes) (hkeeps ha.aligned)
    exact ⟨hS.mapped_zero hq ha hm, _, hins.here, hframe⟩
  | shared ioAPIC localAPIC =>
    obtain ⟨l, dirs, table, old, t, hT, rfl, habsent⟩ := hready
    have hv := isShared_of_address haddress.1 haddress.2
    obtain ⟨m₂', hadd', ⟨l', hT'⟩, hpresent, hframe, -, hzero, -⟩ := hT.install (t := t) hv halloc
    obtain rfl := Option.some.inj (hadd.symm.trans hadd')
    obtain ⟨huse, hdir, htable⟩ := hT'.page _ hv (fun hold => habsent (hT.stays _ hv hold)) hpresent
    rw [hframe] at huse hdir htable
    obtain ⟨hpte, hT''⟩ := hT'.write huse ⟨hdir, htable⟩ (hkeeps huse.aligned)
    refine ⟨hzero, sharedPte table m₂.mem (va / frameSize), ?_, hframe⟩
    have htr := hT''.translate_eq hv t
    simp only at htr
    rw [htr, hpte _ hv, if_pos hpresent]

/-! ## The result -/

/-- After the page fault, the page is in a new frame that holds what belongs there, and the file read has
    changed nothing else. -/
def FilledRight (m : PhysMem) (cr3 : Nat) (e : VMEEntry BlockIo) (file : BlockIo) (va : Nat) (m' : PhysMem) :
    Prop :=
  ∃ p m₂, FrameMapped m cr3 va p m₂ ∧ (∃ w, translate m'.mem cr3 (va / frameSize) = some w ∧ frameOf w = p) ∧
    (∀ k, k < frameSize → m'.mem (p + k) = e.fileByte file va k) ∧
    ∀ a, a < p ∨ p + frameSize ≤ a → m'.mem a = m₂.mem a

/-- **A page fault on an entry** that `get` finds. -/
theorem filledRight_iff (haddress : r.Address va) (hget : v.get va = some e) (hfile : e.file = some file)
    (hok : file.Sized) (hpage : e.HasPage va) (hsize : e.size < 4294967296) (hready : r.Ready m cr3 va)
    (h : r.fault m cr3 v other va = some m') : FilledRight m cr3 e file va m' ↔ e.OffsetFits file va := by
  obtain ⟨e', p, m₂, hget', hmapped, rfl⟩ := Region.fault_some haddress hready h
  obtain rfl := Option.some.inj (hget'.symm.trans hget)
  have hlen := e'.pageBytes_length va
  obtain ⟨hzero, hhere⟩ := Region.frame_mapped haddress hready hmapped hlen
  have hbyte : ∀ k, k < frameSize → store m₂.mem p (e'.pageBytes va) (p + k) = e'.pageByte va k := by
    intro k hk
    rw [store_at, hzero k hk]
    rfl
  rw [← VMEEntry.pageByte_eq_fileByte_iff hfile hok hpage hsize]
  constructor
  · rintro ⟨p', m₂', ⟨m₁', halloc', hadd'⟩, -, hbytes, -⟩ k hk
    obtain ⟨m₁, halloc, hadd⟩ := hmapped
    obtain ⟨rfl, rfl⟩ := Prod.mk.inj (Option.some.inj (halloc.symm.trans halloc'))
    rw [← hbyte k hk]
    exact hbytes k hk
  · intro hall
    refine ⟨p, m₂, hmapped, hhere, fun k hk => (hbyte k hk).trans (hall k hk), fun a ha => ?_⟩
    exact same_store (q := a) (k := 1) (by omega) a (Nat.le_refl a) (Nat.lt_succ_self a)

/-- **No difference underflows** on the page of an entry that `get` finds. -/
theorem hasPage_of_get (hr : r.Valid) (h : VME.WordRun r v) (hget : v.get va = some e)
    (hfile : e.file = some file) :
    e.HasPage va ∧ e.size < 4294967296 := by
  have he := List.mem_of_find?_eq_some hget
  obtain ⟨hsize, hpages⟩ := VME.WordRun.sized h e he (by rw [hfile]; exact Option.some_ne_none file)
  exact ⟨VME.covers_page_start ((h.anyRun.aligned hr).entries e he) hpages (List.find?_some hget), hsize⟩

/-- Addresses of entries are addresses of the region, in runs without a wrapping request. -/
theorem address_of_has (hr : r.Valid) (h : VME.InRun r v) (he : e ∈ v.entries) (hhas : e.range.Has va) :
    r.Address va := by
  have hb := VME.inRun_inBounds hr h
  obtain ⟨hstart, hend⟩ := hb.entries e he
  obtain ⟨hle, hlt⟩ := hhas
  have hlim := hb.avail_le
  rw [hb.limit_eq] at hlim
  simp only [VMEEntry.range, frameSize_eq] at hle hlt
  cases r with
  | user =>
    simp only [Region.start, Region.limit] at hstart hlim
    constructor <;> omega
  | shared ioAPIC localAPIC =>
    simp only [Region.start, Region.limit] at hstart hlim
    constructor <;> omega

/-- **Page contents**: in runs without a wrapping request, for every entry with a file and every address of
    its pages, no difference underflows, and a page fault leaves a new frame with the file's bytes, and has
    read the file to nowhere else, if and only if the offsets fit; and so it is in all runs for the entry
    that `get` finds. -/
theorem pageFault_contents (r : Region) (hr : r.Valid) :
    (∀ v : VME BlockIo, VME.InRun r v → ∀ e ∈ v.entries, ∀ file, e.file = some file → file.Sized →
      ∀ va, e.range.Has va → e.HasPage va ∧ ∀ m cr3 other m', r.Ready m cr3 va →
        r.fault m cr3 v other va = some m' → (FilledRight m cr3 e file va m' ↔ e.OffsetFits file va)) ∧
    ∀ v : VME BlockIo, VME.WordRun r v → ∀ va e file, r.Address va → v.get va = some e → e.file = some file →
      file.Sized → e.HasPage va ∧ ∀ m cr3 other m', r.Ready m cr3 va →
        r.fault m cr3 v other va = some m' → (FilledRight m cr3 e file va m' ↔ e.OffsetFits file va) := by
  have hfound : ∀ v : VME BlockIo, VME.WordRun r v → ∀ va e file, r.Address va → v.get va = some e →
      e.file = some file → file.Sized → e.HasPage va ∧ ∀ m cr3 other m', r.Ready m cr3 va →
        r.fault m cr3 v other va = some m' → (FilledRight m cr3 e file va m' ↔ e.OffsetFits file va) := by
    intro v hv va e file haddress hget hfile hok
    obtain ⟨hpage, hsize⟩ := hasPage_of_get hr hv hget hfile
    exact ⟨hpage, fun m cr3 other m' hready h => filledRight_iff haddress hget hfile hok hpage hsize hready h⟩
  refine ⟨fun v hv e he file hfile hok va hhas => ?_, hfound⟩
  exact hfound v hv.wordRun va e file (address_of_has hr hv he hhas) (hv.get_eq hr he hhas) hfile hok

/-- A machine with one empty directory on which a page of an entry is to be filled. -/
theorem exists_filled (haddress : UserAddress va) (hget : v.get va = some e) :
    ∃ m cr3 m', Region.Ready m cr3 va .user ∧ Region.fault m cr3 v other va .user = some m' := by
  obtain ⟨m₀, -, havail, hlimit, hP⟩ := Pool.init
    (show 0x1000 % frameSize = 0 by decide) (show 0x7FFFF000 % frameSize = 0 by decide) (by decide)
    (by decide) fun _ => 0
  have hfree₀ : freeFrames m₀ [] = 524287 := by
    unfold freeFrames
    rw [havail, hlimit]
    decide
  obtain ⟨q, m, l, -, ha⟩ := hP.alloc (by omega)
  have hfree := ha.count
  have hS := (hP.spaces.blankDir ha).spaces
  have hpaid := hS.pageFault List.mem_cons_self haddress hget other
  obtain ⟨m', -, hm', -⟩ := hpaid.exists_some (by split <;> omega)
  exact ⟨m, q, m', ⟨l, _, hS, List.mem_cons_self⟩, hm'⟩

/-- A mapping of two pages, of a file of 5000 bytes, from its byte 16 on. -/
def filePages : VMEEntry BlockIo :=
  ⟨0x80000000, 2, 0x2000, some ⟨512, 5000, fun b i => UInt8.ofNat (b + i)⟩, 16, true⟩

theorem filePages_inRun : VME.InRun .user ⟨0x80002000, 0xF0000000, [filePages], []⟩ := by
  refine Runs.Guarded.next (a := .add 0x2000 (some ⟨512, 5000, fun b i => UInt8.ofNat (b + i)⟩) 16 true)
    (Runs.Guarded.start rfl)
    ⟨by decide, by decide, Or.inr ⟨?_, ?_⟩⟩ ?_
  · decide
  · decide
  · with_unfolding_all rfl

/-- Its second page begins with byte 4112 of the file, and is zero from the file's end on. -/
theorem pageFault_contents_user : ∃ m cr3 m' p, Region.Ready m cr3 0x80001000 .user ∧
    Region.fault m cr3 ⟨0x80002000, 0xF0000000, [filePages], []⟩ ⟨0x80002000, 0xF0000000, [filePages], []⟩
      0x80001000 .user = some m' ∧
    (∃ w, translate m'.mem cr3 0x80001 = some w ∧ frameOf w = p) ∧ m'.mem p = 24 ∧ m'.mem (p + 888) = 0 := by
  have hhas : filePages.range.Has 0x80001000 := by decide
  have hget := filePages_inRun.get_eq (r := .user) trivial List.mem_cons_self hhas
  have haddress : UserAddress 0x80001000 := by
    unfold UserAddress
    decide
  obtain ⟨m, cr3, m', hready, hm'⟩ := exists_filled haddress hget
  obtain ⟨-, hfault⟩ := (pageFault_contents .user trivial).1 _ filePages_inRun filePages List.mem_cons_self _ rfl
    ⟨by decide, by decide⟩ 0x80001000 hhas
  obtain ⟨p, -, -, hhere, hbytes, -⟩ := (hfault m cr3 _ m' hready hm').2 (Or.inl (by decide))
  refine ⟨m, cr3, m', p, hready, hm', hhere, ?_, ?_⟩
  · exact (hbytes 0 (by decide)).trans (by decide +kernel)
  · exact (hbytes 888 (by decide)).trans (by decide +kernel)

/-- A mapping of two pages, of a file of one byte, from the offset `0xFFFFF000` on. -/
def lastPages : VMEEntry BlockIo := ⟨0x80000000, 2, 0x2000, some ⟨1, 1, fun _ _ => 7⟩, 0xFFFFF000, true⟩

theorem lastPages_inRun : VME.InRun .user ⟨0x80002000, 0xF0000000, [lastPages], []⟩ := by
  refine Runs.Guarded.next (a := .add 0x2000 (some ⟨1, 1, fun _ _ => 7⟩) 0xFFFFF000 true)
    (Runs.Guarded.start rfl)
    ⟨by decide, by decide, Or.inr ⟨?_, ?_⟩⟩ ?_
  · decide
  · decide
  · with_unfolding_all rfl

/-- **The defect**: at the second page the sum of the offsets is `2 ^ 32`, and the handler reads the file
    from its start. -/
theorem pageFault_wraps : ∃ v : VME BlockIo, VME.InRun .user v ∧ lastPages ∈ v.entries ∧
    lastPages.range.Has 0x80001000 ∧ ∃ file, lastPages.file = some file ∧ file.Sized ∧ ∃ m cr3 m',
      Region.Ready m cr3 0x80001000 .user ∧ Region.fault m cr3 v v 0x80001000 .user = some m' ∧
      ¬ FilledRight m cr3 lastPages file 0x80001000 m' := by
  have hhas : lastPages.range.Has 0x80001000 := by decide
  have hok : BlockIo.Sized ⟨1, 1, fun _ _ => 7⟩ := ⟨by decide, by decide⟩
  have hget := lastPages_inRun.get_eq (r := .user) trivial List.mem_cons_self hhas
  have haddress : UserAddress 0x80001000 := by
    unfold UserAddress
    decide
  obtain ⟨m, cr3, m', hready, hm'⟩ := exists_filled haddress hget
  refine ⟨_, lastPages_inRun, List.mem_cons_self, hhas, _, rfl, hok, m, cr3, m', hready, hm', ?_⟩
  obtain ⟨hpage, hsize⟩ := hasPage_of_get (r := .user) trivial lastPages_inRun.wordRun hget rfl
  rw [filledRight_iff (r := .user) haddress hget rfl hok hpage hsize hready hm']
  have hreads : lastPages.readsFrom 0x80001000 = 0 := by decide +kernel
  rintro (hfits | hzeros)
  · exact absurd hfits (by decide)
  · rw [hreads] at hzeros
    exact absurd (hzeros 0 (by decide) (by decide) (by decide)) (by decide)

end BadApple
