/-
  Page faults, and what user code sees.

  1. **Page faults** — `vmm_pageFault` in the user range: it fails if no entry covers the address or if
     there is no frame; otherwise it installs a page with the bytes of its entry.
  2. **Logical memory** — `byteAt`: the byte of the mapped frame, else the byte that a page fault would
     put there.
  3. **Isolation** — an access by one thread changes the logical memory of no thread with another
     directory, after any run of accesses.
-/
import BadApple.Vmm.Grow

namespace BadApple

open Memory

variable {m m' m₁ m₂ : PhysMem} {mem mem' : Mem} {l l' l₁ l₂ pds : List Nat} {q pd v w va : Nat}
  {e : VMEEntry BlockIo} {vme shared : VME BlockIo} {t u : TCB}

/-- The byte that the handler puts at `k` of the page of `va`. -/
def VMEEntry.pageByte (e : VMEEntry BlockIo) (va k : Nat) : UInt8 := (e.pageBytes va).getD k 0

/-- The bytes of a page fit its frame. -/
theorem VMEEntry.pageBytes_length (e : VMEEntry BlockIo) (va : Nat) :
    (e.pageBytes va).length ≤ frameSize := by
  unfold VMEEntry.pageBytes
  cases e.file with
  | none => simp
  | some file =>
    simp only
    refine Nat.le_trans (file.readAll_length _ _) ?_
    split
    · exact Nat.le_refl _
    · omega

/-! ## Page faults -/

/-- Addresses of the user range. -/
def UserAddress (va : Nat) : Prop := 0x80000000 ≤ va ∧ va < 0xF0000000

theorem UserAddress.isUser (h : UserAddress va) : isUser (va / frameSize / 1024) := by
  obtain ⟨h1, h2⟩ := h
  rw [isUser_iff, frameSize_eq]
  omega

/-- What a page fault in the user range finds: the entry of the thread's own `VME`. -/
theorem PhysMem.pageFault_user (h : UserAddress va) : m.pageFault q vme shared va =
    (vme.get va).bind fun e => m.allocFrame.bind fun pm =>
      (pm.2.addMapping q (va / frameSize) (pm.1 / frameSize) false true true).bind fun m =>
        some { m with mem := store m.mem pm.1 (e.pageBytes va) } := by
  obtain ⟨h1, h2⟩ := h
  have hno : ¬ 0xF0000000 ≤ va := by omega
  unfold PhysMem.pageFault
  rw [if_neg fun hh => hno hh.1]
  simp only
  rw [if_neg hno, if_pos h1]
  cases vme.get va with
  | none => rfl
  | some e => rfl

/-- A frame that has been handed out and mapped is still zero. -/
theorem Spaces.mapped_zero {p : Nat} (hS : Spaces m l pds) (hq : q ∈ pds) (ha : Allocated m l p m₁ l₁)
    (hm : Mapped pds q v w m₁ l₁ m₂ l₂) (k : Nat) (hk : k < frameSize) : m₂.mem (p + k) = 0 := by
  have hloose := hS.loose_alloc ha
  have hkeep := hm.keeps p hloose.inUse (fun h => hloose.notTable ⟨q, hq, Or.inl h⟩) (hloose.notReferred _ hq)
  rw [hkeep (p + k) (by omega) (by omega)]
  exact ha.zero k hk

/-- **A page fault in the user range**: a frame, and one more for the table if there is none, are taken;
    the page holds the bytes of its entry, then zeros. -/
theorem Spaces.pageFault (hS : Spaces m l pds) (hq : q ∈ pds) (hva : UserAddress va)
    (hget : vme.get va = some e) (shared : VME BlockIo) :
    Runs.Paid (freeFrames m l) (1 + if present (entry m.mem q (va / frameSize / 1024)) then 0 else 1)
      (m.pageFault q vme shared va)
      fun m' n => ∃ l' w, freeFrames m' l' = n ∧
        Installed pds q (va / frameSize) w (fun k => (e.pageBytes va).getD k 0) m l m' l' := by
  have hu := hva.isUser
  rw [PhysMem.pageFault_user hva, hget]
  apply hS.pool.alloc_paid.bind
  rintro ⟨p, m₁⟩ n ⟨l₁, rfl, ha⟩
  simp only at ha
  have hv₁ := hS.sameView_alloc ha
  have hS₁ := hS.alloc ha
  have hloose := hS.loose_alloc ha
  rw [← hv₁.dirs q hq _ (isUser_lt hu)]
  refine (hS₁.addMapping hq hu hloose false true true).bind_some ?_
  rintro m₂ n ⟨l₂, hn, hm⟩
  obtain ⟨hflags, -⟩ := flagBits_parts false true true
  have hframe := (entry_parts hflags ha.aligned).1
  refine ⟨l₂, flagBits false true true ||| p, hn, ?_⟩
  -- the bytes are written to the new frame only, and it was zero
  have hlen := e.pageBytes_length va
  have hins := hS.install hq hu ha hm hframe (store m₂.mem p (e.pageBytes va)) fun g hg hne => by
    apply same_store
    rcases frames_apart hg ha.aligned hne with h | h
    · exact Or.inr h
    · exact Or.inl (by omega)
  refine ⟨hins.toMapped, hins.fresh, fun k hk => ?_⟩
  rw [hins.filled k hk, store_at, hS.mapped_zero hq ha hm k hk]

/-- A page fault that returns found an entry. -/
theorem Spaces.pageFault_some (hS : Spaces m l pds) (hq : q ∈ pds) (hva : UserAddress va)
    (h : m.pageFault q vme shared va = some m') :
    ∃ e l' w, vme.get va = some e ∧
      Installed pds q (va / frameSize) w (fun k => (e.pageBytes va).getD k 0) m l m' l' := by
  cases hget : vme.get va with
  | none =>
    rw [PhysMem.pageFault_user hva, hget] at h
    simp at h
  | some e =>
    obtain ⟨-, -, l', w, -, hins⟩ := (hS.pageFault hq hva hget shared).of_some h
    exact ⟨e, l', w, rfl, hins⟩

/-! ## Logical memory -/

namespace TCB

/-- The byte at a user address: that of the mapped frame; else that which a page fault would put there, if
    an entry covers the address. -/
def byteAt (t : TCB) (m : PhysMem) (va : Nat) : Option UInt8 :=
  match translate m.mem t.pd (va / frameSize) with
  | some w => some (m.mem (frameOf w + va % frameSize))
  | none => (t.vme.get va).map fun e => (e.pageBytes va).getD (va % frameSize) 0

/-- The processor lets user code read, or write, page `v`: both entries are present and for users, and
    writable for a write. -/
def allowed (mem : Mem) (pd v : Nat) (write : Bool) : Bool :=
  let mask := if write then 0x7 else 0x5
  decide (entry mem pd (v / 1024) &&& mask = mask ∧ pte mem pd (v / 1024) (v % 1024) &&& mask = mask)

/-- One access by user code: a read, or a write of a byte.  It is done if the processor allows it;
    otherwise there is a page fault, and the access will be tried again. -/
def access (t : TCB) (m : PhysMem) (shared : VME BlockIo) (va : Nat) (b : Option UInt8) :
    Option PhysMem :=
  if allowed m.mem t.pd (va / frameSize) b.isSome then
    match b with
    | none => some m
    | some b =>
      let w := pte m.mem t.pd (va / frameSize / 1024) (va / frameSize % 1024)
      some { m with mem := store m.mem (frameOf w + va % frameSize) [b] }
  else m.pageFault t.pd t.vme shared va

end TCB

/-- What is allowed is mapped. -/
theorem TCB.translate_of_allowed {write : Bool} (h : allowed mem pd v write = true) :
    translate mem pd v = some (pte mem pd (v / 1024) (v % 1024)) := by
  have hodd : ∀ x, x &&& (if write then 0x7 else 0x5) = (if write then 0x7 else 0x5) → present x := by
    intro x hx
    have hmod : (x &&& if write then 0x7 else 0x5) % 2 = 1 := by
      rw [hx]
      cases write <;> decide
    exact (Nat.and_mod_two_eq_one.1 hmod).1
  obtain ⟨h1, h2⟩ := of_decide_eq_true h
  exact translate_eq_some.2 ⟨hodd _ h1, hodd _ h2, rfl⟩

/-- **The byte that a page fault installs** is the one that was there logically. -/
theorem TCB.byteAt_pageFault (hS : Spaces m l pds) (ht : t.pd ∈ pds) (hva : UserAddress va)
    (hnone : translate m.mem t.pd (va / frameSize) = none)
    (h : m.pageFault t.pd t.vme shared va = some m') : t.byteAt m' va = t.byteAt m va := by
  obtain ⟨e, l', w, hget, hins⟩ := hS.pageFault_some ht hva h
  unfold TCB.byteAt
  rw [hnone, hins.here, hget]
  simp only [Option.map_some]
  rw [hins.filled _ (Nat.mod_lt _ (by decide))]

/-- Logical memory depends on a translation and on the frame. -/
theorem TCB.byteAt_congr {va : Nat}
    (htr : translate m'.mem t.pd (va / frameSize) = translate m.mem t.pd (va / frameSize))
    (hk : ∀ w, translate m.mem t.pd (va / frameSize) = some w → Keeps m'.mem m.mem (frameOf w)) :
    t.byteAt m' va = t.byteAt m va := by
  unfold TCB.byteAt
  rw [htr]
  cases hw : translate m.mem t.pd (va / frameSize) with
  | none => rfl
  | some w =>
    simp only
    have hlt : va % frameSize < frameSize := Nat.mod_lt _ (by decide)
    rw [hk w hw _ (by omega) (by omega)]

/-! ## Isolation -/

/-- Every thread with another directory has the same logical memory. -/
def Isolated (m' m : PhysMem) (pds : List Nat) (pd : Nat) : Prop :=
  ∀ u : TCB, u.pd ∈ pds → u.pd ≠ pd → ∀ a, UserAddress a → u.byteAt m' a = u.byteAt m a

/-- Changes to tables and frames of one address space only. -/
theorem isolated_of_keeps
    (htr : ∀ pd ∈ pds, pd ≠ q → ∀ v, isUser (v / 1024) → translate m'.mem pd v = translate m.mem pd v)
    (hk : ∀ f pd v, pd ∈ pds → pd ≠ q → Refers m.mem (.page pd v) f → Keeps m'.mem m.mem f) :
    Isolated m' m pds q := by
  intro u hu hne a ha
  refine TCB.byteAt_congr (htr u.pd hu hne _ ha.isUser) fun w hw => ?_
  exact hk _ u.pd _ hu hne ⟨ha.isUser, w, hw, rfl⟩

/-- A page installed in one address space leaves the others alone. -/
theorem Installed.isolated {bytes : Nat → UInt8} (hS : Spaces m l pds) (hq : q ∈ pds)
    (h : Installed pds q v w bytes m l m' l') : Isolated m' m pds q := by
  refine isolated_of_keeps (fun pd hpd hne v hu => ?_) fun f pd v hpd hne hr => ?_
  · exact h.other pd hpd v (user_vpn_lt hu) fun hh => hne hh.1
  · refine h.keeps f (hS.inUse (.page pd v) f hpd hr) ?_ fun hr' => ?_
    · rintro rfl
      exact Slot.noConfusion (hS.single (.page pd v) (.dir f) f hpd hq hr rfl)
    · exact Slot.noConfusion (hS.single (.page pd v) (.table q _) f hpd hq hr hr')

/-- **One access** keeps the invariant and is invisible to threads with another directory. -/
theorem Spaces.access (hS : Spaces m l pds) (ht : t.pd ∈ pds) (hva : UserAddress va) {b : Option UInt8}
    (h : t.access m shared va b = some m') :
    ∃ l', Spaces m' l' pds ∧ Isolated m' m pds t.pd := by
  unfold TCB.access at h
  by_cases hal : TCB.allowed m.mem t.pd (va / frameSize) b.isSome = true
  · rw [if_pos hal] at h
    have hw := TCB.translate_of_allowed hal
    have hr : Refers m.mem (.page t.pd (va / frameSize))
        (frameOf (pte m.mem t.pd (va / frameSize / 1024) (va / frameSize % 1024))) :=
      ⟨hva.isUser, _, hw, rfl⟩
    cases b with
    | none =>
      obtain rfl := Option.some.inj h
      exact ⟨l, hS, fun u _ _ a _ => rfl⟩
    | some b =>
      obtain rfl := Option.some.inj h
      have hlt : va % frameSize < frameSize := Nat.mod_lt _ (by decide)
      have hkeeps : ∀ g, g % frameSize = 0 →
          g ≠ frameOf (pte m.mem t.pd (va / frameSize / 1024) (va / frameSize % 1024)) →
          Keeps (store m.mem (frameOf (pte m.mem t.pd (va / frameSize / 1024) (va / frameSize % 1024)) +
            va % frameSize) [b]) m.mem g := by
        intro g hg hne
        apply same_store
        rw [List.length_singleton]
        rcases frames_apart hg (frameOf_aligned _) hne with h | h
        · exact Or.inr (by omega)
        · exact Or.inl (by omega)
      obtain ⟨hS', hv'⟩ := hS.write (hS.inUse (.page t.pd _) _ ht hr) (hS.page_not_table ht hr) hkeeps
      refine ⟨l, hS', isolated_of_keeps (fun pd hpd _ v hu => hv'.translate_eq hpd (user_vpn_lt hu)) ?_⟩
      intro f pd v hpd hne hr'
      refine hkeeps f (hS.inUse (.page pd v) f hpd hr').aligned ?_
      rintro rfl
      exact hne (Slot.page.inj (hS.single (.page pd v) (.page t.pd _) _ hpd ht hr' hr)).1
  · rw [if_neg hal] at h
    obtain ⟨e, l', w, -, hins⟩ := hS.pageFault_some ht hva h
    exact ⟨l', hins.spaces, hins.isolated hS ht⟩

/-- An access by one of the threads `ts`, anywhere in the user range. -/
def Access (ts : List TCB) (shared : VME BlockIo) (m : PhysMem) (a : TCB × Nat × Option UInt8)
    (m' : PhysMem) : Prop :=
  a.1 ∈ ts ∧ UserAddress a.2.1 ∧ a.1.access m shared a.2.1 a.2.2 = some m'

/-- **Every run of accesses** keeps the invariant. -/
theorem Spaces.accesses {ts : List TCB} (hS : Spaces m l pds) (hts : ∀ t ∈ ts, t.pd ∈ pds)
    (h : Runs.Reached (fun s => s = m) (Access ts shared) m') : ∃ l', Spaces m' l' pds := by
  apply Runs.Reached.invariant (I := fun m => ∃ l, Spaces m l pds) ?_ ?_ h
  · rintro s rfl
    exact ⟨l, hS⟩
  · rintro s a s' - ⟨l₁, hS₁⟩ ⟨ht, hva, hstep⟩
    obtain ⟨l₂, hS₂, -⟩ := hS₁.access (hts _ ht) hva hstep
    exact ⟨l₂, hS₂⟩

/-! ## Two processes with one page each -/

/-- A machine without directories. -/
theorem Pool.spaces (hP : Pool m l) : Spaces m l [] :=
  ⟨hP, by simp, by simp, by simp⟩

/-- A `VME` with one page of zeros at the start of the user range. -/
def onePage : VME BlockIo := ⟨0x80001000, 0xF0000000, [⟨0x80000000, 1, 0, none, 0, true⟩], []⟩

theorem onePage_get : onePage.get 0x80000000 = some ⟨0x80000000, 1, 0, none, 0, true⟩ := by
  unfold VME.get onePage
  rw [List.find?_cons_of_pos]
  decide +kernel

/-- A page fault at the start of the user range, in a directory of a process that has `onePage`. -/
theorem Spaces.firstFault (hS : Spaces m l pds) (hq : q ∈ pds) (hfree : 2 ≤ freeFrames m l) :
    ∃ m' l' w bytes, freeFrames m l ≤ freeFrames m' l' + 2 ∧
      Installed pds q 0x80000 w bytes m l m' l' := by
  have hva : UserAddress 0x80000000 := by
    unfold UserAddress
    decide
  have hpaid := hS.pageFault hq hva onePage_get onePage
  obtain ⟨m', n, -, hn, l', w, rfl, hins⟩ := hpaid.exists_some (by split <;> omega)
  refine ⟨m', l', w, _, ?_, hins⟩
  split at hn <;> omega

/-- **Two processes**, both with the page at the start of the user range, beside the global directory. -/
theorem exists_twoProcesses : ∃ m l pd pd' globalPageDirectory,
    Spaces m l [pd, pd', globalPageDirectory] ∧ pd ∉ [pd', globalPageDirectory] ∧
      NoUserTables m.mem globalPageDirectory ∧ 524280 ≤ freeFrames m l ∧
      (translate m.mem pd 0x80000).isSome = true ∧ (translate m.mem pd' 0x80000).isSome = true := by
  obtain ⟨m₀, -, havail, hlimit, hP⟩ := Pool.init
    (show 0x1000 % frameSize = 0 by decide) (show 0x7FFFF000 % frameSize = 0 by decide) (by decide)
    (by decide) fun _ => 0
  have hfree₀ : freeFrames m₀ [] = 524287 := by
    unfold freeFrames
    rw [havail, hlimit]
    decide
  -- the global directory, and one for each process
  obtain ⟨g, m₁, l₁, -, ha⟩ := hP.alloc (by omega)
  have hfree₁ := ha.count
  have h₁ := hP.spaces.blankDir ha
  obtain ⟨⟨pd', m₂⟩, n₂, -, hn₂, l₂, hfree₂, h₂⟩ :=
    (h₁.spaces.newPageDirectory List.mem_cons_self h₁.noTables).exists_some (by omega)
  have hnone₂ : NoUserTables m₂.mem g := by
    intro i hu
    rw [h₂.entry_eq h₁.spaces List.mem_cons_self (isUser_lt hu)]
    exact h₁.noTables i hu
  obtain ⟨⟨pd, m₃⟩, n₃, -, hn₃, l₃, hfree₃, h₃⟩ :=
    (h₂.spaces.newPageDirectory (List.mem_cons_of_mem _ List.mem_cons_self) hnone₂).exists_some (by omega)
  have hg₂ : g ∈ [pd', g] := List.mem_cons_of_mem _ List.mem_cons_self
  have hnone₃ : NoUserTables m₃.mem g := by
    intro i hu
    rw [h₃.entry_eq h₂.spaces hg₂ (isUser_lt hu)]
    exact hnone₂ i hu
  -- a page for each
  have hpd : pd ∈ [pd, pd', g] := List.mem_cons_self
  have hpd' : pd' ∈ [pd, pd', g] := List.mem_cons_of_mem _ List.mem_cons_self
  have hg : g ∈ [pd, pd', g] := List.mem_cons_of_mem _ hg₂
  simp only at hfree₂ hn₃ hfree₃ h₂ h₃
  obtain ⟨m₄, l₄, w, b, hfree₄, h₄⟩ := h₃.spaces.firstFault hpd (by omega)
  obtain ⟨m₅, l₅, w', b', hfree₅, h₅⟩ := h₄.spaces.firstFault hpd' (by omega)
  have hnot := h₃.not_mem h₂.spaces
  have hgpd : g ≠ pd := fun heq => hnot (heq ▸ hg₂)
  have hgpd' : g ≠ pd' := fun heq => h₂.not_mem h₁.spaces (heq ▸ List.mem_cons_self)
  refine ⟨m₅, l₅, pd, pd', g, h₅.spaces, hnot, fun i hu => ?_, by omega, ?_, ?_⟩
  · rw [h₅.dirs g hg i (isUser_lt hu) fun h => absurd h hgpd',
      h₄.dirs g hg i (isUser_lt hu) fun h => absurd h hgpd]
    exact hnone₃ i hu
  · rw [h₅.other pd hpd 0x80000 (by decide) fun hh => hnot (hh.1 ▸ List.mem_cons_self), h₄.here]
    rfl
  · rw [h₅.here]
    rfl

end BadApple
