/-
  What page faults on the shared region leave in its pages.

  1. **The file's bytes** — `HoldsPage`: a frame holds what the handler reads for a page, then zeros.
  2. **Pending** — a handler that has mapped its page and not read it.  Till then the frame is zero, and
     everybody sees it.
  3. **The invariant** — the tables are as they should be; each pending page is pending in one thread; each
     other page that is there holds the file's bytes.
  4. **The result** — `sharedPages_iff`: a page that is there holds the file's bytes if and only if it is not
     pending, or all of its bytes are zero.
-/
import BadApple.Vme.Aligned
import BadApple.Vmm.Fault
import BadApple.Vmm.Handler
import BadApple.Vmm.SharedTables

namespace BadApple

open Function (update)

open Memory

variable {m m' : Machine} {mem mem' : Mem} {l l' : List Nat} {table : Nat → Nat}
  {threads f p t u v va va' : Nat}
  {e e' : VMEEntry BlockIo} {s : Tokens.State Unit Machine FaultPlace}

/-! ## The file's bytes -/

/-- Frame `f` holds the bytes of the page of `va`. -/
def HoldsPage (mem : Mem) (f : Nat) (e : VMEEntry BlockIo) (va : Nat) : Prop :=
  ∀ k, k < frameSize → mem (f + k) = e.pageByte va k

/-- All bytes of the page of `va` are zero. -/
def ZeroPage (e : VMEEntry BlockIo) (va : Nat) : Prop := ∀ k, k < frameSize → e.pageByte va k = 0

/-- The bytes are those of the page. -/
theorem VMEEntry.pageByte_page (h : va / frameSize = va' / frameSize) (k : Nat) :
    e.pageByte va k = e.pageByte va' k := by
  unfold VMEEntry.pageByte VMEEntry.pageBytes
  rw [h]

theorem HoldsPage.congr (h : HoldsPage mem f e va) (hk : Keeps mem' mem f) : HoldsPage mem' f e va := by
  intro k hlt
  rw [hk (f + k) (by omega) (by omega)]
  exact h k hlt

/-- Reading into a frame of zeros. -/
theorem holdsPage_store (hzero : ∀ k, k < frameSize → mem (f + k) = 0) :
    HoldsPage (store mem f (e.pageBytes va)) f e va := by
  intro k hlt
  rw [store_at, hzero k hlt]
  rfl

/-- Reading into a frame changes no other. -/
theorem keeps_store_page (hf : f % frameSize = 0) {g : Nat} (hg : g % frameSize = 0) (hne : g ≠ f) :
    Keeps (store mem f (e.pageBytes va)) mem g := by
  have hlen := e.pageBytes_length va
  apply same_store
  rcases frames_apart hg hf hne with h | h
  · exact Or.inr h
  · exact Or.inl (by omega)

/-! ## Pending pages -/

/-- What a handler that has mapped its page has still to read: the address, the entry and the frame. -/
def FaultPlace.pending : FaultPlace → Option (Nat × VMEEntry BlockIo × Nat)
  | .unlock va e newPage | .read va e newPage => some (va, e, newPage)
  | _ => none

/-- Giving the lock back leaves pending what is. -/
theorem FaultPlace.pending_up {p next : FaultPlace} {i : Unit} (h : code p = .up i next) :
    next.pending = p.pending ∧ ∀ va, next ≠ .lock va ∧ next ≠ .locked va ∧ next ≠ .notShared va := by
  cases p <;> cases h
  · exact ⟨rfl, fun _ => ⟨FaultPlace.noConfusion, FaultPlace.noConfusion, FaultPlace.noConfusion⟩⟩
  · exact ⟨rfl, fun _ => ⟨FaultPlace.noConfusion, FaultPlace.noConfusion, FaultPlace.noConfusion⟩⟩

/-- What is pending in each thread. -/
abbrev Pending := Nat → Option (Nat × VMEEntry BlockIo × Nat)

/-- Some handler has mapped page `v` and not read it. -/
def PendingPage (threads : Nat) (pend : Pending) (v : Nat) : Prop :=
  ∃ t, t < threads ∧ ∃ va e newPage, pend t = some (va, e, newPage) ∧ va / frameSize = v

/-- What is pending stays, whatever becomes of a thread that has another page pending, or none. -/
theorem PendingPage.update {pend : Pending} (h : PendingPage threads pend v)
    (ht : ∀ va e newPage, pend t = some (va, e, newPage) → va / frameSize ≠ v)
    (x : Option (Nat × VMEEntry BlockIo × Nat)) : PendingPage threads (Function.update pend t x) v := by
  obtain ⟨u, hu, va, e, newPage, hpend, hva⟩ := h
  refine ⟨u, hu, va, e, newPage, ?_, hva⟩
  rw [Function.update_of_ne]
  · exact hpend
  · rintro rfl
    exact ht va e newPage hpend hva

/-- What is pending after a thread has moved. -/
theorem pending_update (pc : Nat → FaultPlace) (t : Nat) (p : FaultPlace) :
    (fun u => (update pc t p u).pending) = update (fun u => (pc u).pending) t p.pending := by
  funext u
  by_cases hu : u = t
  · subst hu
    rw [Function.update_self, Function.update_self]
  · rw [Function.update_of_ne hu, Function.update_of_ne hu]

/-- The machine before the first fault: the tables are those that `global_init` has made, no page of an entry
    with a file is there, and the entries are those of calls of `naive_mmap` and `naive_munmap`. -/
structure SharedStart (m : Machine) (table : Nat → Nat) (ioAPIC localAPIC : Nat) : Prop where
  tables : ∃ l, SharedTables m.phys l m.cr3 table fun v => present (sharedPte table m.phys.mem v)
  layout : ApicLayout ioAPIC localAPIC
  entries : VME.AnyRun (.shared ioAPIC localAPIC) m.shared
  fresh : ∀ va e, 0xF0000000 ≤ va → va < 4294967296 → m.shared.get va = some e → e.file ≠ none →
    ¬ present (sharedPte table m.phys.mem (va / frameSize))

/-- The entries are on page boundaries. -/
theorem SharedStart.aligned {ioAPIC localAPIC : Nat} (h : SharedStart m table ioAPIC localAPIC) :
    m.shared.Aligned :=
  VME.AnyRun.aligned (r := .shared ioAPIC localAPIC) h.layout h.entries

/-- The pages that are there at the start. -/
def Machine.oldPage (m : Machine) (table : Nat → Nat) (v : Nat) : Prop :=
  present (sharedPte table m.phys.mem v)

/-- What is pending in a thread: an entry for a shared page, and its frame of zeros. -/
structure PendingOk (m : Machine) (table : Nat → Nat) (mem : Mem) (va : Nat) (e : VMEEntry BlockIo)
    (newPage : Nat) : Prop where
  le : 0xF0000000 ≤ va
  lt : va < 4294967296
  get : m.shared.get va = some e
  new : ¬ m.oldPage table (va / frameSize)
  present : present (sharedPte table mem (va / frameSize))
  frame : frameOf (sharedPte table mem (va / frameSize)) = newPage
  zero : ∀ k, k < frameSize → mem (newPage + k) = 0

/-- Only the word of the page and its frame matter. -/
theorem PendingOk.congr {newPage : Nat} (h : PendingOk m table mem va e newPage)
    (hpte : sharedPte table mem' (va / frameSize) = sharedPte table mem (va / frameSize))
    (hkeeps : Keeps mem' mem newPage) : PendingOk m table mem' va e newPage := by
  refine ⟨h.le, h.lt, h.get, h.new, ?_, ?_, fun k hk => ?_⟩
  · rw [hpte]
    exact h.present
  · rw [hpte]
    exact h.frame
  · rw [hkeeps (newPage + k) (by omega) (by omega)]
    exact h.zero k hk

/-- **The invariant** of the machine, in runs that start with `m`. -/
structure SharedPagesOk (m : Machine) (table : Nat → Nat) (threads : Nat) (m' : Machine) (pend : Pending) :
    Prop where
  cr3 : m'.cr3 = m.cr3
  shared : m'.shared = m.shared
  tables : ∃ l, SharedTables m'.phys l m.cr3 table (m.oldPage table)
  pending : ∀ t va e newPage, t < threads → pend t = some (va, e, newPage) →
    PendingOk m table m'.phys.mem va e newPage
  single : ∀ t u va e newPage va' e' newPage', t < threads → u < threads → pend t = some (va, e, newPage) →
    pend u = some (va', e', newPage') → va / frameSize = va' / frameSize → t = u
  filled : ∀ va e, 0xF0000000 ≤ va → va < 4294967296 → m.shared.get va = some e →
    ¬ m.oldPage table (va / frameSize) → present (sharedPte table m'.phys.mem (va / frameSize)) →
    ¬ PendingPage threads pend (va / frameSize) →
    HoldsPage m'.phys.mem (frameOf (sharedPte table m'.phys.mem (va / frameSize))) e va

/-- A place of a handler that deals with a shared address. -/
def FaultPlace.SharedPlace (p : FaultPlace) : Prop :=
  (∀ va, p = .lock va ∨ p = .locked va → 0xF0000000 ≤ va ∧ va < 4294967296) ∧ ∀ va, p ≠ .notShared va

theorem sharedPagesOk_start {ioAPIC localAPIC : Nat} (h : SharedStart m table ioAPIC localAPIC) :
    SharedPagesOk m table threads m fun _ => none := by
  refine ⟨rfl, rfl, h.tables, ?_, ?_, ?_⟩
  · intro t va e newPage _ h
    cases h
  · intro t u va e newPage va' e' newPage' _ _ h
    cases h
  · intro va e _ _ _ hnew hpresent _
    exact absurd hpresent hnew

/-! ## Steps -/

variable {pend : Pending} {newPage : Nat}

/-- Page frames of pending pages are in use, and are no tables. -/
theorem SharedPagesOk.pending_frame (h : SharedPagesOk m table threads m' pend)
    (hT : SharedTables m'.phys l m.cr3 table (m.oldPage table)) (ht : t < threads)
    (hpend : pend t = some (va, e, newPage)) :
    InUse m'.phys l newPage ∧ Plain m.cr3 table newPage := by
  obtain ⟨hle, hlt, -, hnew, hpr, hframe, -⟩ := h.pending t va e newPage ht hpend
  obtain ⟨huse, hdir, htable⟩ := hT.page _ (isShared_of_address hle hlt) hnew hpr
  rw [hframe] at huse hdir htable
  exact ⟨huse, hdir, htable⟩

/-- **A page is mapped**: it is pending in the thread that has mapped it. -/
theorem SharedPagesOk.install (h : SharedPagesOk m table threads m' pend) (ht : t < threads)
    (hnone : pend t = none) (hle : 0xF0000000 ≤ va) (hlt : va < 4294967296)
    (habsent : ¬ present (sharedPte table m'.phys.mem (va / frameSize))) (hget : m.shared.get va = some e)
    {m'' : Machine} (hinstall : m'.install t va = some (newPage, m'')) :
    SharedPagesOk m table threads m'' (update pend t (some (va, e, newPage))) := by
  obtain ⟨l, hT⟩ := h.tables
  have hv := isShared_of_address hle hlt
  have hnew : ¬ m.oldPage table (va / frameSize) := fun ho => habsent (hT.stays _ hv ho)
  unfold Machine.install at hinstall
  rw [h.cr3] at hinstall
  cases halloc : m'.phys.allocFrame with
  | none =>
    rw [halloc] at hinstall
    cases hinstall
  | some r =>
    obtain ⟨q, phys⟩ := r
    obtain ⟨phys', hadd, htables, hpresent, hframe, hother, hzero, hkeeps⟩ := hT.install (t := t) hv halloc
    rw [halloc] at hinstall
    simp only [Option.bind_eq_bind, Option.bind_some, hadd] at hinstall
    obtain ⟨rfl, rfl⟩ := Prod.mk.inj (Option.some.inj hinstall)
    -- the other pending pages are other pages
    have hne : ∀ u va' e' q', u < threads → pend u = some (va', e', q') → va' / frameSize ≠ va / frameSize := by
      intro u va' e' q' hu hpend heq
      have hpr := (h.pending u va' e' q' hu hpend).present
      rw [heq] at hpr
      exact habsent hpr
    refine ⟨rfl, h.shared, htables, fun u va' e' q' hu hpend => ?_,
      fun u u' va₁ e₁ q₁ va₂ e₂ q₂ hu hu' hpend hpend' heq => ?_,
      fun va' e' hle' hlt' hget' hnew' hpr hno => ?_⟩
    · by_cases hut : u = t
      · subst hut
        rw [Function.update_self] at hpend
        obtain ⟨rfl, hrest⟩ := Prod.mk.inj (Option.some.inj hpend)
        obtain ⟨rfl, rfl⟩ := Prod.mk.inj hrest
        exact ⟨hle, hlt, hget, hnew, hpresent, hframe, hzero⟩
      · rw [Function.update_of_ne hut] at hpend
        have hok := h.pending u va' e' q' hu hpend
        obtain ⟨huse, hplain⟩ := h.pending_frame hT hu hpend
        have hsame := hother _ (isShared_of_address hok.le hok.lt) (hne u va' e' q' hu hpend)
        exact hok.congr hsame (hkeeps q' huse hplain)
    · by_cases hut : u = t
      · by_cases hut' : u' = t
        · rw [hut, hut']
        · subst hut
          rw [Function.update_self] at hpend
          rw [Function.update_of_ne hut'] at hpend'
          obtain ⟨rfl, -⟩ := Prod.mk.inj (Option.some.inj hpend)
          exact absurd heq.symm (hne u' va₂ e₂ q₂ hu' hpend')
      · rw [Function.update_of_ne hut] at hpend
        by_cases hut' : u' = t
        · subst hut'
          rw [Function.update_self] at hpend'
          obtain ⟨rfl, -⟩ := Prod.mk.inj (Option.some.inj hpend')
          exact absurd heq (hne u va₁ e₁ q₁ hu hpend)
        · rw [Function.update_of_ne hut'] at hpend'
          exact h.single u u' va₁ e₁ q₁ va₂ e₂ q₂ hu hu' hpend hpend' heq
    · have hv' := isShared_of_address hle' hlt'
      by_cases hsame : va' / frameSize = va / frameSize
      · refine absurd ⟨t, ht, va, e, _, Function.update_self _ _ _, hsame.symm⟩ hno
      · rw [hother _ hv' hsame] at hpr ⊢
        obtain ⟨huse, hdir, htable⟩ := hT.page _ hv' hnew' hpr
        refine (h.filled va' e' hle' hlt' hget' hnew' hpr fun hpend => hno (hpend.update ?_ _)).congr
          (hkeeps _ huse ⟨hdir, htable⟩)
        intro va₁ e₁ q₁ hpend₁
        rw [hnone] at hpend₁
        cases hpend₁

/-- **The file is read** into the page: it is pending no more, and holds the file's bytes. -/
theorem SharedPagesOk.fill (h : SharedPagesOk m table threads m' pend) (haligned : m.shared.Aligned)
    (ht : t < threads) (hpend : pend t = some (va, e, newPage)) :
    SharedPagesOk m table threads (m'.fillPage va e newPage) (update pend t none) := by
  obtain ⟨l, hT⟩ := h.tables
  obtain ⟨huse, hplain⟩ := h.pending_frame hT ht hpend
  obtain ⟨hle, hlt, hget, hnew, hpr, hframe, hzero⟩ := h.pending t va e newPage ht hpend
  have hkeeps : ∀ g, g % frameSize = 0 → g ≠ newPage →
      Keeps (store m'.phys.mem newPage (e.pageBytes va)) m'.phys.mem g :=
    fun g hg hne => keeps_store_page huse.aligned hg hne
  obtain ⟨hpte, hT'⟩ := hT.write huse hplain hkeeps
  have hv := isShared_of_address hle hlt
  -- other pages have other frames
  have hne : ∀ v, IsShared v → ¬ m.oldPage table v → present (sharedPte table m'.phys.mem v) →
      v ≠ va / frameSize → frameOf (sharedPte table m'.phys.mem v) ≠ newPage := by
    intro v hv' hnew' hpr' hvne heq
    exact hvne (hT.pageSingle v _ hv' hv hnew' hnew hpr' hpr (heq.trans hframe.symm))
  refine ⟨h.cr3, h.shared, ⟨l, hT'⟩, fun u va' e' q' hu hpend' => ?_,
    fun u u' va₁ e₁ q₁ va₂ e₂ q₂ hu hu' hpend₁ hpend₂ heq => ?_,
    fun va' e' hle' hlt' hget' hnew' hpr' hno => ?_⟩
  · by_cases hut : u = t
    · subst hut
      rw [Function.update_self] at hpend'
      cases hpend'
    · rw [Function.update_of_ne hut] at hpend'
      have hok := h.pending u va' e' q' hu hpend'
      have hv' := isShared_of_address hok.le hok.lt
      have hvne : va' / frameSize ≠ va / frameSize :=
        fun heq => hut (h.single u t va' e' q' va e newPage hu ht hpend' hpend heq)
      have hqne := hne _ hv' hok.new hok.present hvne
      rw [hok.frame] at hqne
      obtain ⟨huse', -⟩ := h.pending_frame hT hu hpend'
      exact hok.congr (hpte _ hv') (hkeeps q' huse'.aligned hqne)
  · have hold : ∀ {u va e q}, update pend t none u = some (va, e, q) → pend u = some (va, e, q) := by
      intro u va e q hpend'
      by_cases hut : u = t
      · subst hut
        rw [Function.update_self] at hpend'
        cases hpend'
      · rwa [Function.update_of_ne hut] at hpend'
    exact h.single u u' va₁ e₁ q₁ va₂ e₂ q₂ hu hu' (hold hpend₁) (hold hpend₂) heq
  · have hv' := isShared_of_address hle' hlt'
    show HoldsPage (store m'.phys.mem newPage (e.pageBytes va))
      (frameOf (sharedPte table (store m'.phys.mem newPage (e.pageBytes va)) (va' / frameSize))) e' va'
    rw [show sharedPte table (m'.fillPage va e newPage).phys.mem (va' / frameSize)
      = sharedPte table m'.phys.mem (va' / frameSize) from hpte _ hv'] at hpr'
    rw [hpte _ hv']
    by_cases hsame : va' / frameSize = va / frameSize
    · -- the page that has been read
      have hee : e' = e := by
        rw [haligned.get_page hsame, hget] at hget'
        exact (Option.some.inj hget').symm
      subst hee
      rw [hsame, hframe]
      intro k hk
      rw [holdsPage_store hzero k hk, VMEEntry.pageByte_page hsame]
    · refine (h.filled va' e' hle' hlt' hget' hnew' hpr' fun hpend' => hno (hpend'.update ?_ _)).congr
        (hkeeps _ (frameOf_aligned _) (hne _ hv' hnew' hpr' hsame))
      intro va₁ e₁ q₁ hpend₁ heq
      rw [hpend] at hpend₁
      obtain ⟨rfl, -⟩ := Prod.mk.inj (Option.some.inj hpend₁)
      exact hsame heq.symm

/-! ## Runs -/

/-- A fault on the shared region. -/
theorem FaultPlace.fault_shared {p next : FaultPlace} (h : fault 0xF0000000 va m p = some (m', next)) :
    p = .running ∧ (0xF0000000 ≤ va ∧ va < 4294967296) ∧ m' = m ∧ next = .lock va := by
  cases p with
  | running =>
    rw [fault] at h
    by_cases hva : 0xF0000000 ≤ va ∧ va < 4294967296
    · rw [if_pos hva, if_pos hva.1] at h
      obtain ⟨rfl, rfl⟩ := Prod.mk.inj (Option.some.inj h)
      exact ⟨rfl, hva, rfl, rfl⟩
    · rw [if_neg hva] at h
      cases h
  | _ => cases h

/-- A thread that has the same pending as before. -/
theorem pending_same {pc : Nat → FaultPlace} {p : FaultPlace} (h : p.pending = (pc t).pending) :
    (fun u => (update pc t p u).pending) = fun u => (pc u).pending := by
  rw [pending_update, h]
  exact Function.update_eq_self t fun u => (pc u).pending

/-- The places after one thread has moved. -/
theorem sharedPlace_update {pc : Nat → FaultPlace} {p : FaultPlace}
    (h : ∀ u, u < threads → (pc u).SharedPlace) (hp : p.SharedPlace) (u : Nat) (hu : u < threads) :
    (update pc t p u).SharedPlace := by
  by_cases hut : u = t
  · subst hut
    rwa [Function.update_self]
  · rw [Function.update_of_ne hut]
    exact h u hu

/-- Places without an address that is still to be looked up. -/
theorem sharedPlace_of {p : FaultPlace} (h : ∀ va, p ≠ .lock va ∧ p ≠ .locked va ∧ p ≠ .notShared va) :
    p.SharedPlace :=
  ⟨fun va hp => hp.elim (fun hp => absurd hp (h va).1) fun hp => absurd hp (h va).2.1, fun va => (h va).2.2⟩

/-- What is kept in every run. -/
def FaultInv (m : Machine) (table : Nat → Nat) (threads : Nat) (s : Tokens.State Unit Machine FaultPlace) :
    Prop :=
  SharedPagesOk m table threads s.mem (fun u => (s.pc u).pending) ∧ ∀ u, u < threads → (s.pc u).SharedPlace

/-- **A section** keeps the invariant. -/
theorem FaultInv.section (h : FaultInv m table threads s) (ht : t < threads) (hpc : s.pc t = .locked va) :
    FaultInv m table threads
      ⟨s.count, (s.mem.sharedSection t va).1, update s.pc t (s.mem.sharedSection t va).2⟩ := by
  obtain ⟨hok, hplaces⟩ := h
  obtain ⟨hle, hlt⟩ := (hplaces t ht).1 va (Or.inr hpc)
  obtain ⟨l, hT⟩ := hok.tables
  have hnone : (s.pc t).pending = none := by rw [hpc]; rfl
  -- a handler that does not map a page leaves all as it was
  have hsame : ∀ p : FaultPlace, p.pending = none →
      SharedPagesOk m table threads s.mem fun u => (update s.pc t p u).pending := by
    intro p hp
    rw [pending_same (hp.trans hnone.symm)]
    exact hok
  unfold Machine.sharedSection
  by_cases hpresent : s.mem.phys.checkVPN (s.mem.cr3 t) (va / frameSize) = true
  · rw [if_pos hpresent]
    refine ⟨hsame _ rfl, sharedPlace_update hplaces (sharedPlace_of fun va => ⟨?_, ?_, ?_⟩)⟩
    all_goals exact FaultPlace.noConfusion
  · rw [if_neg hpresent]
    cases hget : s.mem.shared.get va with
    | none =>
      refine ⟨hsame _ rfl, sharedPlace_update hplaces (sharedPlace_of fun va => ⟨?_, ?_, ?_⟩)⟩
      all_goals exact FaultPlace.noConfusion
    | some e =>
      cases hinstall : s.mem.install t va with
      | none =>
        refine ⟨hsame _ rfl, sharedPlace_update hplaces (sharedPlace_of fun va => ⟨?_, ?_, ?_⟩)⟩
        all_goals exact FaultPlace.noConfusion
      | some r =>
        obtain ⟨newPage, m''⟩ := r
        refine ⟨?_, sharedPlace_update hplaces (sharedPlace_of fun va => ⟨?_, ?_, ?_⟩)⟩
        · rw [pending_update]
          refine hok.install ht hnone hle hlt (fun hpr => hpresent ?_) (hok.shared ▸ hget) hinstall
          rw [hok.cr3]
          exact (hT.checkVPN_iff (isShared_of_address hle hlt) t).2 hpr
        all_goals exact FaultPlace.noConfusion

/-- **Every run** keeps the invariant. -/
theorem faultInv_of_reached {ioAPIC localAPIC : Nat} (hm : SharedStart m table ioAPIC localAPIC)
    {ok : Nat → Machine → FaultPlace → Prop}
    (h : Tokens.Guarded (FaultPlace.program 0xF0000000) threads ok ⟨fun _ => 1, m, fun _ => .running⟩ s) :
    FaultInv m table threads s := by
  apply Tokens.Guarded.invariant (I := FaultInv m table threads) ?_ ?_ ?_ ?_ ?_ h
  · refine ⟨sharedPagesOk_start hm, fun u _ => sharedPlace_of fun va => ⟨?_, ?_, ?_⟩⟩
    all_goals exact FaultPlace.noConfusion
  · rintro s t va mem p ht ⟨hok, hplaces⟩ hcode hcall
    obtain ⟨hpc, hva, rfl, rfl⟩ := FaultPlace.fault_shared hcall
    refine ⟨?_, sharedPlace_update hplaces ⟨fun va' hp => ?_, fun va => FaultPlace.noConfusion⟩⟩
    · rw [pending_same (by rw [hpc]; rfl)]
      exact hok
    · rcases hp with hp | hp
      · obtain rfl := FaultPlace.lock.inj hp
        exact hva
      · cases hp
  · rintro s t i next ht ⟨hok, hplaces⟩ hcode -
    obtain ⟨va, hpc, rfl⟩ := FaultPlace.code_down hcode
    refine ⟨?_, sharedPlace_update hplaces ⟨fun va' hp => ?_, fun va => FaultPlace.noConfusion⟩⟩
    · rw [pending_same (by rw [hpc]; rfl)]
      exact hok
    · rcases hp with hp | hp
      · cases hp
      · obtain rfl := FaultPlace.locked.inj hp
        exact (hplaces t ht).1 va (Or.inl hpc)
  · rintro s t i next ht ⟨hok, hplaces⟩ hcode
    obtain ⟨hsame, hnext⟩ := FaultPlace.pending_up hcode
    refine ⟨?_, sharedPlace_update hplaces (sharedPlace_of hnext)⟩
    rw [pending_same hsame]
    exact hok
  · rintro s t f ht ⟨hok, hplaces⟩ hcode -
    rcases FaultPlace.code_act hcode with ⟨va, hpc, rfl⟩ | ⟨va, hpc, rfl⟩ | ⟨va, e, newPage, hpc, rfl⟩
    · exact FaultInv.section ⟨hok, hplaces⟩ ht hpc
    · exact absurd hpc ((hplaces t ht).2 va)
    · refine ⟨?_, sharedPlace_update hplaces (sharedPlace_of fun va => ⟨?_, ?_, ?_⟩)⟩
      · rw [pending_update]
        exact hok.fill hm.aligned ht (by rw [hpc]; rfl)
      all_goals exact FaultPlace.noConfusion

/-- A section maps only pages of zeros. -/
def InstallsZeros (t : Nat) (m : Machine) (p : FaultPlace) : Prop :=
  ∀ va e, p = .locked va → m.phys.checkVPN (m.cr3 t) (va / frameSize) = false → m.shared.get va = some e →
    ZeroPage e va

/-- A place of a handler that deals with a shared address, and has only zeros to read. -/
structure FaultPlace.Zeros (p : FaultPlace) : Prop where
  shared : ∀ va, p ≠ .notShared va
  pending : ∀ va e newPage, p.pending = some (va, e, newPage) → ZeroPage e va

/-- Places with nothing pending. -/
theorem FaultPlace.zeros_of_none {p : FaultPlace} (h : ∀ va, p ≠ .notShared va) (hp : p.pending = none) :
    p.Zeros :=
  ⟨h, fun va e newPage hpend => by rw [hp] at hpend; cases hpend⟩

/-- Where a section goes on. -/
theorem Machine.sharedSection_zeros (m : Machine) (t va : Nat) (h : ∀ e,
    m.phys.checkVPN (m.cr3 t) (va / frameSize) = false → m.shared.get va = some e → ZeroPage e va) :
    (m.sharedSection t va).2.Zeros := by
  unfold Machine.sharedSection
  by_cases hpresent : m.phys.checkVPN (m.cr3 t) (va / frameSize) = true
  · rw [if_pos hpresent]
    exact FaultPlace.zeros_of_none (fun va => FaultPlace.noConfusion) rfl
  · rw [if_neg hpresent]
    cases hget : m.shared.get va with
    | none => exact FaultPlace.zeros_of_none (fun va => FaultPlace.noConfusion) rfl
    | some e =>
      cases m.install t va with
      | none => exact FaultPlace.zeros_of_none (fun va => FaultPlace.noConfusion) rfl
      | some r =>
        refine ⟨fun va => FaultPlace.noConfusion, fun va' e' newPage hpend => ?_⟩
        cases hpend
        exact h e (Bool.eq_false_iff.2 hpresent) hget

/-- **Runs that map only pages of zeros** have nothing else to read. -/
theorem zeros_of_guarded
    (h : Tokens.Guarded (FaultPlace.program 0xF0000000) threads InstallsZeros
      ⟨fun _ => 1, m, fun _ => .running⟩ s) :
    ∀ t, (s.pc t).Zeros := by
  have hupdate : ∀ {pc : Nat → FaultPlace} {t : Nat} {p : FaultPlace}, (∀ u, (pc u).Zeros) → p.Zeros →
      ∀ u, (update pc t p u).Zeros := by
    intro pc t p hpc hp u
    by_cases hut : u = t
    · subst hut
      rwa [Function.update_self]
    · rw [Function.update_of_ne hut]
      exact hpc u
  apply Tokens.Guarded.invariant (I := fun s => ∀ t, (s.pc t).Zeros) ?_ ?_ ?_ ?_ ?_ h
  · exact fun t => FaultPlace.zeros_of_none (fun va => FaultPlace.noConfusion) rfl
  · intro s t va mem p ht hI _ hcall
    obtain ⟨-, hva, -, rfl⟩ := FaultPlace.fault_shared hcall
    exact hupdate hI (FaultPlace.zeros_of_none (fun va => FaultPlace.noConfusion) rfl)
  · intro s t i next ht hI hcode _
    obtain ⟨va, -, rfl⟩ := FaultPlace.code_down hcode
    exact hupdate hI (FaultPlace.zeros_of_none (fun va => FaultPlace.noConfusion) rfl)
  · intro s t i next ht hI hcode
    obtain ⟨hsame, hnext⟩ := FaultPlace.pending_up hcode
    exact hupdate hI ⟨fun va => (hnext va).2.2,
      fun va e newPage hpend => (hI t).pending va e newPage (hsame ▸ hpend)⟩
  · intro s t f ht hI hcode hok
    rcases FaultPlace.code_act hcode with ⟨va, hpc, rfl⟩ | ⟨va, hpc, rfl⟩ | ⟨va, e, newPage, hpc, rfl⟩
    · exact hupdate hI (Machine.sharedSection_zeros _ _ _ fun e => hok va e hpc)
    · exact absurd hpc ((hI t).shared va)
    · exact hupdate hI (FaultPlace.zeros_of_none (fun va => FaultPlace.noConfusion) rfl)

/-! ## The result -/

/-- What is pending is pending where the thread is seen. -/
theorem pending_place (s : Tasks Unit Machine FaultPlace) (t : Nat) :
    (s.place (FaultPlace.program 0xF0000000) t).pending = (s.pc t).pending := by
  by_cases hgranted : s.phase t = .granted
  · cases hpc : s.pc t with
    | lock va =>
      have hcode : (FaultPlace.program 0xF0000000).code (s.pc t) = .down () (.locked va) := by
        rw [hpc]
        rfl
      rw [Tasks.place_granted hcode hgranted]
      rfl
    | _ =>
      unfold Tasks.place
      rw [hpc]
      rfl
  · rw [Tasks.place_of_ne hgranted]

/-- Every shared page that is there holds the bytes of its file, for every thread. -/
def SharedContents (s : Tasks Unit Machine FaultPlace) : Prop :=
  ∀ t va e w, 0xF0000000 ≤ va → va < 4294967296 → s.mem.shared.get va = some e → e.file ≠ none →
    translate s.mem.phys.mem (s.mem.cr3 t) (va / frameSize) = some w →
    HoldsPage s.mem.phys.mem (frameOf w) e va

/-- **When a page holds its bytes**: it is not pending, or all of its bytes are zero. -/
theorem FaultInv.holdsPage_iff {ioAPIC localAPIC : Nat} (hm : SharedStart m table ioAPIC localAPIC)
    (h : FaultInv m table threads s) {w : Nat} (hle : 0xF0000000 ≤ va) (hlt : va < 4294967296)
    (hget : s.mem.shared.get va = some e) (hfile : e.file ≠ none)
    (htr : translate s.mem.phys.mem (s.mem.cr3 t) (va / frameSize) = some w) :
    HoldsPage s.mem.phys.mem (frameOf w) e va ↔
      ¬ PendingPage threads (fun u => (s.pc u).pending) (va / frameSize) ∨ ZeroPage e va := by
  obtain ⟨hok, -⟩ := h
  obtain ⟨l, hT⟩ := hok.tables
  have hv := isShared_of_address hle hlt
  rw [hok.shared] at hget
  rw [hok.cr3, hT.translate_eq hv] at htr
  by_cases hpresent : present (sharedPte table s.mem.phys.mem (va / frameSize))
  · rw [if_pos hpresent] at htr
    obtain rfl := Option.some.inj htr
    by_cases hpend : PendingPage threads (fun u => (s.pc u).pending) (va / frameSize)
    · -- the frame holds zeros
      obtain ⟨u, hu, va', e', newPage, hp, hpage⟩ := hpend
      have hpending := hok.pending u va' e' newPage hu hp
      have hframe := hpending.frame
      rw [hpage] at hframe
      have hzero : ∀ k, k < frameSize → s.mem.phys.mem
          (frameOf (sharedPte table s.mem.phys.mem (va / frameSize)) + k) = 0 := by
        intro k hk
        rw [hframe]
        exact hpending.zero k hk
      constructor
      · exact fun hholds => Or.inr fun k hk => (hholds k hk).symm.trans (hzero k hk)
      · rintro (hno | hz)
        · exact absurd ⟨u, hu, va', e', newPage, hp, hpage⟩ hno
        · exact fun k hk => (hzero k hk).trans (hz k hk).symm
    · refine ⟨fun _ => Or.inl hpend, fun _ => ?_⟩
      exact hok.filled va e hle hlt hget (hm.fresh va e hle hlt hget hfile) hpresent hpend
  · rw [if_neg hpresent] at htr
    cases htr

/-- **Pages of the shared region**: whatever the order of steps, a page that is there holds the bytes of its
    file if and only if no handler has mapped it and not read it yet, or all of its bytes are zero; and so
    all pages do in every run in which the sections map only pages of zeros. -/
theorem sharedPages_iff {ioAPIC localAPIC : Nat} (hm : SharedStart m table ioAPIC localAPIC) (threads : Nat) :
    (∀ s, FaultRunsIf InstallsZeros 0xF0000000 threads m s → SharedContents s) ∧
    ∀ s, FaultRuns 0xF0000000 threads m s → ∀ t va e w, 0xF0000000 ≤ va → va < 4294967296 →
      s.mem.shared.get va = some e → e.file ≠ none →
      translate s.mem.phys.mem (s.mem.cr3 t) (va / frameSize) = some w →
      (HoldsPage s.mem.phys.mem (frameOf w) e va ↔
        ¬ PendingPage threads (fun u => (s.pc u).pending) (va / frameSize) ∨ ZeroPage e va) := by
  refine ⟨fun s hr t va e w hle hlt hget hfile htr => ?_, fun s hr t va e w hle hlt hget hfile htr => ?_⟩
  · have hview := Tasks.Guarded.view hr
    refine ((faultInv_of_reached hm hview).holdsPage_iff hm (t := t) hle hlt hget hfile htr).2 ?_
    by_cases hpend : PendingPage threads (fun u => (s.place (FaultPlace.program 0xF0000000) u).pending)
        (va / frameSize)
    · right
      obtain ⟨u, hu, va', e', newPage, hp, hpage⟩ := hpend
      have hzero := (zeros_of_guarded hview u).pending va' e' newPage hp
      -- the entry that is pending is that of the address
      have hok := (faultInv_of_reached hm hview).1
      have hget' := (hok.pending u va' e' newPage hu hp).get
      rw [hm.aligned.get_page hpage, ← hok.shared] at hget'
      obtain rfl := Option.some.inj (hget'.symm.trans hget)
      intro k hk
      rw [VMEEntry.pageByte_page hpage.symm]
      exact hzero k hk
    · exact Or.inl hpend
  · have hinv := faultInv_of_reached hm (Tasks.Guarded.view hr)
    have h := hinv.holdsPage_iff hm (t := t) hle hlt hget hfile htr
    simp only [Tasks.view, pending_place] at h
    exact h

/-! ## A file of one byte -/

/-- A directory at `0x1000`, with tables from `0x2000` on for the shared region; all else is zero. -/
def tablesMem : Mem := fun a =>
  if 0x1F00 ≤ a ∧ a < 0x2000 then
    UInt8.ofNat ((0x2007 + (a / 4 - 1984) * 0x1000) >>> (8 * (a % 4)))
  else 0

/-- The table for each part of the shared region. -/
def tableAt (i : Nat) : Nat := 0x2000 + (i - 960) * 0x1000

/-- One page is mapped: a file of one byte. -/
def Machine.oneByte : Machine :=
  ⟨⟨tablesMem, 0, 0x42000, 0x80000000⟩, fun _ => 0x1000, fun _ => .new 0x80000000 0xF0000000,
    ((Region.shared 0xFEC00000 0xFEE00000).init : VME BlockIo).apply
      (.add 4096 (some ⟨1, 1, fun _ _ => 7⟩) 0 false)⟩

/-- The entry of that page. -/
def oneByteEntry : VMEEntry BlockIo := ⟨0xF0000000, 1, 4096, some ⟨1, 1, fun _ _ => 7⟩, 0, false⟩

theorem oneByte_get : Machine.oneByte.shared.get 0xF0000000 = some oneByteEntry := by
  have hentries : Machine.oneByte.shared.entries =
      [oneByteEntry, Region.apicEntry 0xFEC00000, Region.apicEntry 0xFEE00000] := by
    with_unfolding_all rfl
  unfold VME.get
  rw [hentries, List.find?_cons_of_pos]
  decide +kernel

/-- A byte of the directory. -/
theorem tablesMem_byte {i k : Nat} (h : IsSharedDir i) (hk : k < 4) :
    (tablesMem (0x1000 + 4 * i + k)).toNat = (tableAt i + 7) >>> (8 * k) % 256 := by
  obtain ⟨h1, h2⟩ := h
  unfold tablesMem tableAt
  rw [if_pos (by omega), UInt8.toNat_ofNat', show (0x1000 + 4 * i + k) % 4 = k by omega,
    show (0x1000 + 4 * i + k) / 4 - 1984 = i - 960 by omega,
    show 0x2007 + (i - 960) * 0x1000 = 0x2000 + (i - 960) * 0x1000 + 7 by omega]

theorem tablesMem_dir {i : Nat} (h : IsSharedDir i) : entry tablesMem 0x1000 i = tableAt i + 7 := by
  have h0 := tablesMem_byte (k := 0) h (by omega)
  have h1 := tablesMem_byte (k := 1) h (by omega)
  have h2 := tablesMem_byte (k := 2) h (by omega)
  have h3 := tablesMem_byte (k := 3) h (by omega)
  obtain ⟨hle, hlt⟩ := h
  unfold entry word
  rw [Nat.add_zero] at h0
  rw [h0, h1, h2, h3]
  unfold tableAt
  omega

theorem tablesMem_pte (v : Nat) : sharedPte tableAt tablesMem v = 0 := by
  have hzero : ∀ a, 0x2000 ≤ a → tablesMem a = 0 := fun a ha => if_neg (by omega)
  unfold sharedPte entry word tableAt
  rw [hzero _ (by omega), hzero _ (by omega), hzero _ (by omega), hzero _ (by omega)]
  rfl

theorem oneByte_sharedStart : SharedStart Machine.oneByte tableAt 0xFEC00000 0xFEE00000 := by
  have habsent : ∀ v, ¬ present (sharedPte tableAt tablesMem v) := by
    intro v hp
    rw [tablesMem_pte] at hp
    exact absurd hp (by decide)
  refine ⟨⟨[], ?_⟩, VME.apicLayout_pc, ?_, fun va e _ _ _ _ => habsent _⟩
  · refine ⟨?_, fun t => ?_, fun t i hi => ?_, fun i hi => ?_, fun t i hi => ?_, fun i j hi hj heq => ?_,
      fun v _ hv => hv, fun v _ _ hv => absurd hv (habsent v), fun u v _ _ _ _ hu => absurd hu (habsent u)⟩
    · exact ⟨rfl, List.nodup_nil, by simp, rfl, rfl, by decide, by decide, by decide⟩
    · show InUse _ _ 0x1000
      exact ⟨by decide, by decide, show 0x1000 < 0x42000 by decide, by simp⟩
    · show present (entry tablesMem 0x1000 i) ∧ frameOf (entry tablesMem 0x1000 i) = tableAt i
      rw [tablesMem_dir hi]
      unfold present frameOf tableAt
      rw [frameSize_eq]
      omega
    · refine ⟨?_, ?_, ?_, by simp⟩
      · unfold tableAt
        rw [frameSize_eq]
        omega
      · unfold tableAt
        omega
      · show tableAt i < 0x42000
        obtain ⟨h1, h2⟩ := hi
        unfold tableAt
        omega
    · show tableAt i ≠ 0x1000
      unfold tableAt
      omega
    · obtain ⟨h1, h2⟩ := hi
      obtain ⟨h3, h4⟩ := hj
      unfold tableAt at heq
      omega
  · refine Runs.Reached.next (a := .add 4096 (some ⟨1, 1, fun _ _ => 7⟩) 0 false) (Runs.Reached.start rfl) ?_
    exact rfl

/-- **The main result** for two threads and that page. -/
theorem sharedPages_iff_oneByte :
    (∀ s, FaultRunsIf InstallsZeros 0xF0000000 2 Machine.oneByte s → SharedContents s) ∧
    ∀ s, FaultRuns 0xF0000000 2 Machine.oneByte s → ∀ t va e w, 0xF0000000 ≤ va → va < 4294967296 →
      s.mem.shared.get va = some e → e.file ≠ none →
      translate s.mem.phys.mem (s.mem.cr3 t) (va / frameSize) = some w →
      (HoldsPage s.mem.phys.mem (frameOf w) e va ↔
        ¬ PendingPage 2 (fun u => (s.pc u).pending) (va / frameSize) ∨ ZeroPage e va) :=
  sharedPages_iff oneByte_sharedStart 2

/-- The byte that is read is not zero. -/
theorem oneByte_not_zeroPage : ¬ ZeroPage oneByteEntry 0xF0000000 := by
  intro h
  have hoffset : u32 (oneByteEntry.fileOffset +
      u32 (0xF0000000 / frameSize * frameSize + 4294967296 - oneByteEntry.start)) = 0 := by decide +kernel
  have hbytes : oneByteEntry.pageBytes 0xF0000000 = [7] := by
    show BlockIo.readAll ⟨1, 1, fun _ _ => 7⟩ (u32 (oneByteEntry.fileOffset +
      u32 (0xF0000000 / frameSize * frameSize + 4294967296 - oneByteEntry.start))) _ = [7]
    rw [hoffset, BlockIo.readAll_eq (by decide) _ _ (by decide)]
    decide +kernel
  have hzero := h 0 (by decide)
  unfold VMEEntry.pageByte at hzero
  rw [hbytes] at hzero
  exact absurd hzero (by decide)

/-- A section, as a step of a run. -/
theorem FaultRuns.section_step {lowest t va : Nat} {s : Tasks Unit Machine FaultPlace} {p : FaultPlace}
    (h : FaultRuns lowest threads m s) (ht : t < threads) (hpc : s.pc t = .locked va)
    (hs : s.mem.sharedSection t va = (m', p)) :
    FaultRuns lowest threads m { s with mem := m', pc := update s.pc t p } := by
  refine Tasks.Reached.next h (.step t) ?_
  rw [Tasks.step, if_pos ht, hpc]
  show some { s with mem := (s.mem.sharedSection t va).1, pc := update s.pc t (s.mem.sharedSection t va).2 } = _
  rw [hs]

/-- **The defect**: thread 0 has mapped the page and not read it; thread 1 has faulted on it, found it present
    and returned, and now reads a zero where the file has a 7. -/
theorem sharedPages_early : ∃ s, FaultRuns 0xF0000000 2 Machine.oneByte s ∧ s.pc 1 = .running ∧
    (∃ newPage, s.pc 0 = .read 0xF0000000 oneByteEntry newPage) ∧ ¬ SharedContents s := by
  have hv : IsShared (0xF0000000 / frameSize) := isShared_of_address (by decide) (by decide)
  obtain ⟨l, hT⟩ := oneByte_sharedStart.tables
  obtain ⟨⟨p, phys⟩, halloc⟩ : ∃ r, Machine.oneByte.phys.allocFrame = some r := ⟨_, rfl⟩
  obtain ⟨phys', hadd, ⟨l', hT'⟩, hpresent, hframe, -, hzero, -⟩ := hT.install (t := 0) hv halloc
  have habsent : ¬ Machine.oneByte.phys.checkVPN (Machine.oneByte.cr3 0) (0xF0000000 / frameSize) = true := by
    rw [hT.checkVPN_iff hv]
    show ¬ present (sharedPte tableAt tablesMem _)
    rw [tablesMem_pte]
    decide
  -- thread 0 maps the page
  have hfirst : Machine.oneByte.sharedSection 0 0xF0000000 =
      ({ Machine.oneByte with phys := phys' }, .unlock 0xF0000000 oneByteEntry p) := by
    unfold Machine.sharedSection
    rw [if_neg habsent, oneByte_get]
    simp only [Machine.install, halloc, Option.bind_eq_bind, Option.bind_some, hadd]
  -- thread 1 finds it there
  have hsecond : Machine.sharedSection { Machine.oneByte with phys := phys' } 1 0xF0000000 =
      ({ Machine.oneByte with phys := phys' }, .unlockPresent) := by
    unfold Machine.sharedSection
    rw [if_pos ((hT'.checkVPN_iff hv 1).2 hpresent)]
  have h₀ : FaultRuns 0xF0000000 2 Machine.oneByte Machine.oneByte.start := Runs.Guarded.start rfl
  have h₁ := h₀.next (.call 0 0xF0000000) rfl
  have h₂ := h₁.next (.step 0) rfl
  have h₃ := FaultRuns.section_step (t := 0) h₂ (by decide) rfl hfirst
  have h₄ := h₃.next (.step 0) rfl
  have h₅ := h₄.next (.call 1 0xF0000000) rfl
  have h₆ := h₅.next (.step 1) rfl
  have h₇ := FaultRuns.section_step (t := 1) h₆ (by decide) rfl hsecond
  have h₈ := h₇.next (.step 1) rfl
  refine ⟨_, h₈, rfl, ⟨p, rfl⟩, fun hall => ?_⟩
  have hholds : HoldsPage phys'.mem p oneByteEntry 0xF0000000 := by
    rw [← hframe]
    refine hall 1 0xF0000000 oneByteEntry _ (by decide) (by decide) oneByte_get (Option.some_ne_none _) ?_
    show translate phys'.mem (Machine.oneByte.cr3 1) (0xF0000000 / frameSize) = _
    rw [hT'.translate_eq hv, if_pos hpresent]
  exact oneByte_not_zeroPage fun k hk => (hholds k hk).symm.trans (hzero k hk)

end BadApple
