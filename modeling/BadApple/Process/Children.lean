/-
  Children: which id `fork` hands out, and whose exit code `wait` returns.

  1. **Specification** — over the book of an observer: the ids of children not yet waited for or closed
     are pairwise distinct; a `wait(id)` that returns `0` stores the exit code of the one child `id` was
     returned for; `fork` picks an unused slot below `PCB_ARR_SIZE` and disturbs no other slot.
  2. **The defect** — `PCB::duplicate` tests `children[PCB_ARR_SIZE]`, i.e. `fdt[0]`: with descriptor `0`
     open the search stops at slot `0` whatever is in it, with descriptor `0` closed it runs off the
     table and the assertion after it fails.  `ForkFits` is the one situation that leaves: slot `0`
     unused and descriptor `0` open.
  3. **Invariant** — over runs whose forks fit, a process has at most one un-waited child, in slot `0`;
     the promise in that slot is the child's own; it holds the child's exit code once there is one.
  4. **The result** — `children_laws`: in every state of such a run the specification holds, and the next
     fork keeps it if and only if it fits.
-/
import BadApple.Process.Model
import BadApple.Lib.Runs
import Mathlib.Data.List.Basic

namespace BadApple

open Function (update)

/-! ## The slot search -/

/-- With descriptor `0` open the search stops at once. -/
theorem PCB.slotSearch_open {pcb : PCB} {f : Nat} (h : pcb.fdt 0 = some f) :
    pcb.slotSearch pcbArrSize 0 = 0 := by
  have hread : pcb.childIsNull pcbArrSize = false := by
    simp [PCB.childIsNull, h]
  show pcb.slotSearch (99 + 1) 0 = 0
  rw [PCB.slotSearch, hread, if_neg (by simp)]

/-- With descriptor `0` closed the search runs to the end of the table. -/
theorem PCB.slotSearch_closed {pcb : PCB} (h : pcb.fdt 0 = none) :
    ∀ fuel childIdx, childIdx + fuel = 100 → pcb.slotSearch fuel childIdx = 100 := by
  have hread : pcb.childIsNull pcbArrSize = true := by
    simp [PCB.childIsNull, h]
  intro fuel
  induction fuel with
  | zero =>
    intro childIdx hsum
    rw [PCB.slotSearch]; omega
  | succ fuel ih =>
    intro childIdx hsum
    rw [PCB.slotSearch, hread, if_pos ⟨by rw [pcbArrSize_eq]; omega, rfl⟩]
    exact ih (childIdx + 1) (by omega)

/-- The child's PCB and the parent's after a fork that stops at slot `0`. -/
def PCB.childAt0 (parentRef f : Nat) (parent : PCB) : PCB :=
  { PCB.make 0 f with
    cwd := parent.cwd
    parent := some parentRef
    fdt := PCB.copyTable parent.fdt (PCB.make 0 f).fdt
    sdt := PCB.copyTable parent.sdt (PCB.make 0 f).sdt }

/-- **What `PCB::duplicate` does** with descriptor `0` open: it takes slot `0`, used or not. -/
theorem PCB.duplicate_open {pcb : PCB} {fd0 : Nat} (h : pcb.fdt 0 = some fd0)
    (parentRef childRef f : Nat) :
    PCB.duplicate parentRef childRef f pcb = some (PCB.childAt0 parentRef f pcb,
      { pcb with children := update pcb.children 0 (some childRef) }) := by
  unfold PCB.duplicate
  rw [PCB.slotSearch_open h]
  rfl

/-- With descriptor `0` closed, `PCB::duplicate` panics. -/
theorem PCB.duplicate_closed {pcb : PCB} (h : pcb.fdt 0 = none) (parentRef childRef f : Nat) :
    PCB.duplicate parentRef childRef f pcb = none := by
  unfold PCB.duplicate
  rw [PCB.slotSearch_closed h pcbArrSize 0 rfl]
  rfl

/-! ## The condition and the specification -/

/-- The condition on a fork: slot `0` is unused and descriptor `0` is open. -/
def ForkFits (pcb : PCB) : Prop := pcb.children 0 = none ∧ ∃ f, pcb.fdt 0 = some f

/-- The condition on a step: a fork fits; everything else is free. -/
def CallFits (st : System × Book) (call : Call) : Prop :=
  ∀ p, call = .fork p → ∀ pcb, st.1.procs p = some ⟨pcb, .running⟩ → ForkFits pcb

/-- One step of the system, read by the observer. -/
def ObservedStep (st : System × Book) (call : Call) (st' : System × Book) : Prop :=
  ∃ ev, st.1.step call = some (st'.1, ev) ∧ st'.2 = st.2.observe ev

/-- The states of runs all of whose forks fit. -/
def ForkRuns : System × Book → Prop :=
  Runs.Guarded (fun st => st = (System.boot, Book.empty)) ObservedStep CallFits

/-- The ids of un-waited children are pairwise distinct. -/
def DistinctIds (b : Book) : Prop := ∀ p, ((b.kids p).map Prod.fst).Nodup

/-- The next fork of `p` takes an unused slot, disturbs no other one, and hands out a new id. -/
def ForkLaw (s : System) (b : Book) (p : Nat) (pcb : PCB) : Prop :=
  ∃ s' c i pcb', s.step (.fork p) = some (s', .forked p (i + pcbArrSize * 2) c) ∧
    i < pcbArrSize ∧ pcb.children i = none ∧
    s'.procs p = some ⟨pcb', .running⟩ ∧ pcb'.children i = some c ∧
    (∀ j, j ≠ i → pcb'.children j = pcb.children j ∧
      pcb'.childrenPromises j = pcb.childrenPromises j) ∧
    (((b.observe (.forked p (i + pcbArrSize * 2) c)).kids p).map Prod.fst).Nodup

/-- A wait of `p` that returns `0` stores the exit code of the one child its id was returned for. -/
def WaitLaw (s : System) (b : Book) (p : Nat) : Prop :=
  ∀ s' id status, s.step (.wake p) = some (s', .waited p id status) →
    ∃ c, (id, c) ∈ b.kids p ∧ (∀ c', (id, c') ∈ b.kids p → c' = c) ∧ b.codes c = some status

/-! ## The invariant -/

/-- The promise of child `c` holds its exit code exactly when `c` has exited. -/
def Kept (b : Book) (c : Nat) (promise : Promise) : Prop :=
  (promise.n = 0 ∧ b.codes c = none) ∨ (0 < promise.n ∧ b.codes c = some promise.value)

/-- The tables of process `p` agree with the book. -/
structure Tables (s : System) (b : Book) (p : Nat) (q : Process) : Prop where
  above : ∀ i, 0 < i → q.pcb.children i = none ∧ q.pcb.childrenPromises i = none
  slot : (q.pcb.children 0 = none ∧ q.pcb.childrenPromises 0 = none ∧ b.kids p = []) ∨
    ∃ c r qc, q.pcb.children 0 = some c ∧ q.pcb.childrenPromises 0 = some r ∧
      b.kids p = [(pcbArrSize * 2, c)] ∧ s.procs c = some qc ∧ qc.pcb.parentPromise = some r
  blocked : ∀ i r, q.run = .waiting i r → i = 0 ∧ q.pcb.childrenPromises 0 = some r

/-- The invariant of runs whose forks fit. -/
structure ForkInv (s : System) (b : Book) : Prop where
  next : ∀ p, s.nextProc ≤ p → s.procs p = none
  fresh : ∀ p, s.procs p = none → b.codes p = none ∧ b.kids p = []
  tables : ∀ p q, s.procs p = some q → Tables s b p q
  promise : ∀ c q r, s.procs c = some q → q.pcb.parentPromise = some r →
    r < s.nextPromise ∧ Kept b c (s.promises r)
  own : ∀ c c' q q' r, s.procs c = some q → s.procs c' = some q' →
    q.pcb.parentPromise = some r → q'.pcb.parentPromise = some r → c = c'
  alive : ∀ p q, s.procs p = some q → q.run ≠ .exited → b.codes p = none

theorem forkInv_boot : ForkInv System.boot Book.empty := by
  have hproc : ∀ p q, System.boot.procs p = some q → q = ⟨PCB.make 1 0, .running⟩ := by
    intro p q h
    simp only [System.boot] at h
    split at h
    · exact (Option.some.inj h).symm
    · exact absurd h (by simp)
  refine ⟨fun p hp => ?_, fun p _ => ⟨rfl, rfl⟩, fun p q h => ?_, fun c q r h hr => ?_,
    fun c c' q q' r h _ hr _ => ?_, fun p q h _ => rfl⟩
  · have hne : p ≠ 0 := by
      have : 1 ≤ p := hp
      omega
    exact if_neg hne
  · rw [hproc p q h]
    exact ⟨fun i _ => ⟨rfl, rfl⟩, Or.inl ⟨rfl, rfl, rfl⟩, fun i r hr => by simp at hr⟩
  · rw [hproc c q h] at hr
    exact absurd hr (by simp [PCB.make])
  · rw [hproc c q h] at hr
    exact absurd hr (by simp [PCB.make])

/-! ## Steps that touch one process only -/

/-- Every existing process lies below the next unused reference. -/
theorem ForkInv.lt_nextProc {s : System} {b : Book} (h : ForkInv s b) {p : Nat} {q : Process}
    (hp : s.procs p = some q) : p < s.nextProc := by
  by_contra hge
  have hnone := h.next p (by omega)
  rw [hp] at hnone
  simp at hnone

/-- Rewriting process `p` and the book's page on `p` keeps the invariant, as long as `p` keeps its own
    promise, its tables agree with the new page, and it is recorded as exited only if it was. -/
theorem ForkInv.setProc {s : System} {b : Book} (h : ForkInv s b) {p : Nat} {q q' : Process}
    {kids : List (Nat × Nat)} (hp : s.procs p = some q)
    (hpromise : q'.pcb.parentPromise = q.pcb.parentPromise)
    (hrun : q'.run ≠ .exited → b.codes p = none)
    (htab : Tables s ⟨update b.kids p kids, b.codes⟩ p q') :
    ForkInv (s.setProc p q') ⟨update b.kids p kids, b.codes⟩ := by
  have hlt : p < s.nextProc := h.lt_nextProc hp
  -- the own promise of every process is as before
  have hback : ∀ c q₁, (s.setProc p q').procs c = some q₁ →
      ∃ q₀, s.procs c = some q₀ ∧ q₁.pcb.parentPromise = q₀.pcb.parentPromise ∧
        (c = p ∧ q₁ = q' ∨ c ≠ p ∧ q₁ = q₀) := by
    intro c q₁ hc
    by_cases hcp : c = p
    · subst hcp
      rw [System.setProc] at hc
      simp only [Function.update_self, Option.some.injEq] at hc
      subst hc
      exact ⟨q, hp, hpromise, Or.inl ⟨rfl, rfl⟩⟩
    · rw [System.setProc] at hc
      simp only [Function.update_of_ne hcp] at hc
      exact ⟨q₁, hc, rfl, Or.inr ⟨hcp, rfl⟩⟩
  have hforth : ∀ c q₀, s.procs c = some q₀ →
      ∃ q₁, (s.setProc p q').procs c = some q₁ ∧
        q₁.pcb.parentPromise = q₀.pcb.parentPromise := by
    intro c q₀ hc
    by_cases hcp : c = p
    · subst hcp
      rw [hp] at hc
      obtain rfl := Option.some.inj hc
      exact ⟨q', by simp [System.setProc], hpromise⟩
    · exact ⟨q₀, by simp [System.setProc, Function.update_of_ne hcp, hc], rfl⟩
  -- a page of the book that was right stays right
  have hlift : ∀ b' c q₁, Tables s b' c q₁ → Tables (s.setProc p q') b' c q₁ := by
    intro b' c q₁ ht
    refine ⟨ht.above, ?_, ht.blocked⟩
    rcases ht.slot with hnone | ⟨k, r, qc, h1, h2, h3, h4, h5⟩
    · exact Or.inl hnone
    · obtain ⟨qc', h4', h5'⟩ := hforth k qc h4
      exact Or.inr ⟨k, r, qc', h1, h2, h3, h4', h5'.trans h5⟩
  refine ⟨fun x hx => ?_, fun x hx => ?_, fun c q₁ hc => ?_, fun c q₁ r hc hr => ?_,
    fun c c' q₁ q₁' r hc hc' hr hr' => ?_, fun c q₁ hc hne => ?_⟩
  · have hge : s.nextProc ≤ x := hx
    have hxp : x ≠ p := by omega
    simp only [System.setProc, Function.update_of_ne hxp, h.next x hge]
  · have hxp : x ≠ p := by
      rintro rfl
      simp [System.setProc] at hx
    simp only [System.setProc, Function.update_of_ne hxp] at hx ⊢
    exact h.fresh x hx
  · obtain ⟨q₀, h0, -, ⟨rfl, rfl⟩ | ⟨hcp, rfl⟩⟩ := hback c q₁ hc
    · exact hlift _ _ _ htab
    · have ht := h.tables c q₁ h0
      refine hlift _ _ _ ⟨ht.above, ?_, ht.blocked⟩
      simpa only [Function.update_of_ne hcp] using ht.slot
  · obtain ⟨q₀, h0, hsame, -⟩ := hback c q₁ hc
    exact h.promise c q₀ r h0 (hsame ▸ hr)
  · obtain ⟨q₀, h0, hsame, -⟩ := hback c q₁ hc
    obtain ⟨q₀', h0', hsame', -⟩ := hback c' q₁' hc'
    exact h.own c c' q₀ q₀' r h0 h0' (hsame ▸ hr) (hsame' ▸ hr')
  · obtain ⟨q₀, h0, -, ⟨rfl, rfl⟩ | ⟨-, rfl⟩⟩ := hback c q₁ hc
    · exact hrun hne
    · exact h.alive c q₁ h0 hne

/-- The same, with the book untouched. -/
theorem ForkInv.setProc_same {s : System} {b : Book} (h : ForkInv s b) {p : Nat} {q q' : Process}
    (hp : s.procs p = some q) (hpromise : q'.pcb.parentPromise = q.pcb.parentPromise)
    (hrun : q'.run ≠ .exited → b.codes p = none) (htab : Tables s b p q') :
    ForkInv (s.setProc p q') b := by
  have hb : (⟨update b.kids p (b.kids p), b.codes⟩ : Book) = b := by
    rw [Function.update_eq_self]
  have hnew : ForkInv (s.setProc p q') ⟨update b.kids p (b.kids p), b.codes⟩ :=
    h.setProc hp hpromise hrun (by rw [hb]; exact htab)
  rwa [hb] at hnew

/-! ## One lemma per system call -/

/-- A process that has stopped keeps its promise: the code enters the promise and the book at once. -/
theorem ForkInv.keep {s : System} {b : Book} (h : ForkInv s b) {p r rc : Nat} {q : Process}
    (hp : s.procs p = some q) (hexit : q.run = .exited) (hr : q.pcb.parentPromise = some r) :
    ForkInv { s with promises := update s.promises r ((s.promises r).set rc) }
      { b with codes := update b.codes p (some rc) } := by
  refine ⟨h.next, fun x hx => ?_, fun c q₁ hc => ?_, fun c q₁ r₁ hc hr₁ => ?_, h.own,
    fun c q₁ hc hne => ?_⟩
  · have hxp : x ≠ p := by
      rintro rfl
      exact Option.some_ne_none q (hp.symm.trans hx)
    obtain ⟨h2, h3⟩ := h.fresh x hx
    exact ⟨by simp only [Function.update_of_ne hxp, h2], h3⟩
  · obtain ⟨ha, hs, hb⟩ := h.tables c q₁ hc
    exact ⟨ha, hs, hb⟩
  · obtain ⟨hlt, hkept⟩ := h.promise c q₁ r₁ hc hr₁
    refine ⟨hlt, ?_⟩
    by_cases hcp : c = p
    · subst hcp
      have hq : q₁ = q := by
        rw [hp] at hc
        exact (Option.some.inj hc).symm
      obtain rfl : r = r₁ := by
        rw [hq, hr] at hr₁
        exact Option.some.inj hr₁
      right
      simp [Promise.set]
    · have hrr : r₁ ≠ r := by
        rintro rfl
        exact hcp (h.own c p q₁ q r₁ hc hp hr₁ hr)
      simpa only [Kept, Function.update_of_ne hrr, Function.update_of_ne hcp] using hkept
  · have hcp : c ≠ p := by
      rintro rfl
      rw [hp] at hc
      exact hne (Option.some.inj hc ▸ hexit)
    simpa only [Function.update_of_ne hcp] using h.alive c q₁ hc hne

/-- A process without a promise to keep only enters the book. -/
theorem ForkInv.note {s : System} {b : Book} (h : ForkInv s b) {p rc : Nat} {q : Process}
    (hp : s.procs p = some q) (hexit : q.run = .exited) (hr : q.pcb.parentPromise = none) :
    ForkInv s { b with codes := update b.codes p (some rc) } := by
  refine ⟨h.next, fun x hx => ?_, fun c q₁ hc => ?_, fun c q₁ r₁ hc hr₁ => ?_, h.own,
    fun c q₁ hc hne => ?_⟩
  · have hxp : x ≠ p := by
      rintro rfl
      exact Option.some_ne_none q (hp.symm.trans hx)
    obtain ⟨h2, h3⟩ := h.fresh x hx
    exact ⟨by simp only [Function.update_of_ne hxp, h2], h3⟩
  · obtain ⟨ha, hs, hb⟩ := h.tables c q₁ hc
    exact ⟨ha, hs, hb⟩
  · have hcp : c ≠ p := by
      rintro rfl
      rw [hp] at hc
      rw [← Option.some.inj hc, hr] at hr₁
      simp at hr₁
    simpa only [Kept, Function.update_of_ne hcp] using h.promise c q₁ r₁ hc hr₁
  · have hcp : c ≠ p := by
      rintro rfl
      rw [hp] at hc
      exact hne (Option.some.inj hc ▸ hexit)
    simpa only [Function.update_of_ne hcp] using h.alive c q₁ hc hne

/-- `exit` keeps the invariant. -/
theorem ForkInv.exit {s : System} {b : Book} (h : ForkInv s b) {p : Nat} {pcb : PCB}
    (hp : s.procs p = some ⟨pcb, .running⟩) (rc : Nat) :
    ForkInv (s.exit p rc pcb).1 (b.observe (s.exit p rc pcb).2) := by
  obtain ⟨ha, hslot, -⟩ := h.tables p _ hp
  -- the process stops first; its code is recorded once it has
  have hstop : ForkInv (s.setProc p ⟨pcb, .exited⟩) b :=
    h.setProc_same hp rfl (fun hne => absurd rfl hne) ⟨ha, hslot, fun i r hr => by simp at hr⟩
  have hself : (s.setProc p ⟨pcb, .exited⟩).procs p = some ⟨pcb, .exited⟩ := by
    simp [System.setProc]
  unfold System.exit
  cases hr : pcb.parentPromise with
  | none => exact hstop.note hself rfl hr
  | some r => exact hstop.keep hself rfl hr

/-- `wait` up to the blocking call keeps the invariant. -/
theorem ForkInv.wait {s : System} {b : Book} (h : ForkInv s b) {p : Nat} {pcb : PCB}
    (hp : s.procs p = some ⟨pcb, .running⟩) (id : Nat) :
    ForkInv (s.wait p id pcb).1 (b.observe (s.wait p id pcb).2) := by
  obtain ⟨ha, hslot, -⟩ := h.tables p _ hp
  unfold System.wait
  generalize u32 (id + 4294967296 - pcbArrSize * 2) = slot
  by_cases hbig : slot ≥ pcbArrSize
  · simp only [if_pos hbig]
    exact h
  · simp only [if_neg hbig]
    split
    · exact h
    · rename_i r hr
      refine h.setProc_same hp rfl (fun _ => h.alive p _ hp (by simp)) ⟨ha, hslot, ?_⟩
      intro i r' hrun
      obtain ⟨rfl, rfl⟩ : slot = i ∧ r = r' := by simpa using hrun
      -- only slot `0` can hold a promise
      have hi : slot = 0 := by
        by_contra hne
        have hnone := (ha slot (Nat.pos_of_ne_zero hne)).2
        rw [hr] at hnone
        exact Option.some_ne_none r hnone
      exact ⟨hi, hi ▸ hr⟩

/-- What a `wake` that returns does: the promise store is as before, slot `slot` is cleared. -/
theorem System.wake_eq {s s' : System} {p slot r : Nat} {pcb : PCB} {ev : Event}
    (h : s.wake p pcb slot r = some (s', ev)) :
    0 < (s.promises r).n ∧ ev = .waited p (slot + pcbArrSize * 2) (s.promises r).value ∧
      s' = s.setProc p ⟨{ pcb with
        childrenPromises := update pcb.childrenPromises slot none
        children := update pcb.children slot none }, .running⟩ := by
  unfold System.wake Promise.get at h
  by_cases hn : (s.promises r).n > 0
  · rw [if_pos hn] at h
    obtain ⟨rfl, rfl⟩ := Prod.mk.inj (Option.some.inj h)
    have hsame : ({ s.promises r with n := (s.promises r).n - 1 + 1 } : Promise) = s.promises r := by
      rw [Nat.sub_add_cancel hn]
    refine ⟨hn, rfl, ?_⟩
    rw [hsame, Function.update_eq_self]
  · rw [if_neg hn] at h
    simp at h

/-- Clearing both entries of slot `0` leaves the tables of a process without children. -/
theorem Tables.clear {s : System} {b : Book} {p : Nat} {q : Process} {pcb : PCB}
    (ht : Tables s b p q) (h1 : pcb.children = update q.pcb.children 0 none)
    (h2 : pcb.childrenPromises = update q.pcb.childrenPromises 0 none) :
    Tables s ⟨update b.kids p [], b.codes⟩ p ⟨pcb, .running⟩ := by
  refine ⟨fun i hi => ?_, Or.inl ?_, fun i r hr => by simp at hr⟩
  · have hne : i ≠ 0 := by omega
    simpa only [h1, h2, Function.update_of_ne hne] using ht.above i hi
  · simp [h1, h2]

/-- The book's page after the id of slot `0` is struck. -/
theorem Tables.kids_filter {s : System} {b : Book} {p : Nat} {q : Process} (ht : Tables s b p q) :
    (b.kids p).filter (fun k => k.1 ≠ 0 + pcbArrSize * 2) = [] := by
  rcases ht.slot with ⟨-, -, hk⟩ | ⟨c, r, qc, -, -, hk, -⟩
  · simp [hk]
  · simp [hk]

/-- The book's page is as before when any other id is struck. -/
theorem Tables.kids_filter_ne {s : System} {b : Book} {p fd : Nat} {q : Process}
    (ht : Tables s b p q) (hfd : fd ≠ 200) : (b.kids p).filter (fun k => k.1 ≠ fd) = b.kids p := by
  rcases ht.slot with ⟨-, -, hk⟩ | ⟨c, r, qc, -, -, hk, -⟩
  · simp [hk]
  · simp [hk, Ne.symm hfd]

/-- The return of a blocked `wait` keeps the invariant. -/
theorem ForkInv.wake {s s' : System} {b : Book} (h : ForkInv s b) {p slot r : Nat} {pcb : PCB}
    {ev : Event} (hp : s.procs p = some ⟨pcb, .waiting slot r⟩)
    (hw : s.wake p pcb slot r = some (s', ev)) : ForkInv s' (b.observe ev) := by
  obtain ⟨-, rfl, rfl⟩ := System.wake_eq hw
  have ht := h.tables p _ hp
  obtain ⟨rfl, -⟩ := ht.blocked slot r rfl
  unfold Book.observe
  simp only [ht.kids_filter]
  exact h.setProc hp rfl (fun _ => h.alive p _ hp (by simp)) (ht.clear rfl rfl)

/-- `close` keeps the invariant. -/
theorem ForkInv.close {s : System} {b : Book} (h : ForkInv s b) {p : Nat} {pcb : PCB}
    (hp : s.procs p = some ⟨pcb, .running⟩) (fd : Nat) :
    ForkInv (s.close p fd pcb).1 (b.observe (s.close p fd pcb).2) := by
  have ht := h.tables p _ hp
  have halive := h.alive p _ hp (by simp)
  unfold System.close
  by_cases hfile : fd < pcbArrSize
  · rw [if_pos hfile]
    rw [pcbArrSize_eq] at hfile
    unfold Book.observe
    simp only [ht.kids_filter_ne (show fd ≠ 200 by omega), Function.update_eq_self]
    exact h.setProc_same hp rfl (fun _ => halive) ⟨ht.above, ht.slot, fun i r hr => by simp at hr⟩
  · rw [if_neg hfile]
    by_cases hsem : fd < pcbArrSize * 2
    · rw [if_pos hsem]
      rw [pcbArrSize_eq] at hsem
      unfold Book.observe
      simp only [ht.kids_filter_ne (show fd ≠ 200 by omega), Function.update_eq_self]
      exact h.setProc_same hp rfl (fun _ => halive)
        ⟨ht.above, ht.slot, fun i r hr => by simp at hr⟩
    · rw [if_neg hsem]
      by_cases hchild : fd < pcbArrSize * 3
      · rw [if_pos hchild]
        by_cases h0 : fd = 200
        · subst h0
          unfold Book.observe
          have hk := ht.kids_filter
          simp only [pcbArrSize_eq, Nat.zero_add] at hk
          simp only [hk]
          exact h.setProc hp rfl (fun _ => halive) (ht.clear rfl rfl)
        · -- slots above `0` are empty already
          unfold Book.observe
          simp only [ht.kids_filter_ne h0, Function.update_eq_self]
          rw [pcbArrSize_eq] at hsem
          obtain ⟨e1, e2⟩ := ht.above (fd - pcbArrSize * 2) (by rw [pcbArrSize_eq]; omega)
          have e1' : update pcb.children (fd - pcbArrSize * 2) none = pcb.children :=
            Function.update_eq_self_iff.2 e1.symm
          have e2' : update pcb.childrenPromises (fd - pcbArrSize * 2) none
              = pcb.childrenPromises := Function.update_eq_self_iff.2 e2.symm
          refine h.setProc_same hp rfl (fun _ => halive) ?_
          simp only [e1', e2']
          exact ⟨ht.above, ht.slot, fun i r hr => by simp at hr⟩
      · rw [if_neg hchild]
        exact h

/-- The new process of a fork at slot `0`. -/
def PCB.forkChild (s : System) (p : Nat) (pcb : PCB) : PCB :=
  { PCB.childAt0 p s.nextFile pcb with parentPromise := some s.nextPromise }

/-- The parent after a fork at slot `0`. -/
def PCB.forkParent (s : System) (pcb : PCB) : PCB :=
  { pcb with
    children := update pcb.children 0 (some s.nextProc)
    childrenPromises := update pcb.childrenPromises 0 (some s.nextPromise) }

/-- The system with one more process and the promise made for it. -/
def System.spawn (s : System) (child : PCB) : System :=
  { s with
    procs := update s.procs s.nextProc (some ⟨child, .running⟩)
    nextProc := s.nextProc + 1
    promises := update s.promises s.nextPromise Promise.make
    nextPromise := s.nextPromise + 1
    nextFile := s.nextFile + 3 }

/-- With descriptor `0` open, `fork` adds the child and rewrites the parent. -/
theorem System.fork_open {s : System} {p : Nat} {pcb : PCB} (f : Nat) (hf : pcb.fdt 0 = some f)
    (hp : p ≠ s.nextProc) :
    s.fork p pcb = some ((s.spawn (PCB.forkChild s p pcb)).setProc p
      ⟨PCB.forkParent s pcb, .running⟩, .forked p (0 + pcbArrSize * 2) s.nextProc) := by
  unfold System.fork
  rw [PCB.duplicate_open hf]
  simp only [System.spawn, System.setProc, PCB.forkParent, PCB.forkChild, PCB.childAt0, PCB.make,
    Function.update_self, Function.update_comm hp]

/-- A new process with no children of its own, whose promise is the new one, keeps the invariant. -/
theorem ForkInv.spawn {s : System} {b : Book} (h : ForkInv s b) {child : PCB}
    (hc : child.children = fun _ => none) (hcp : child.childrenPromises = fun _ => none)
    (hpp : child.parentPromise = some s.nextPromise) : ForkInv (s.spawn child) b := by
  have hself : (s.spawn child).procs s.nextProc = some ⟨child, .running⟩ := by
    simp [System.spawn]
  have hother : ∀ x, x ≠ s.nextProc → (s.spawn child).procs x = s.procs x := by
    intro x hx
    simp [System.spawn, Function.update_of_ne hx]
  have hold : ∀ x q, s.procs x = some q → (s.spawn child).procs x = some q := by
    intro x q hx
    rw [hother x (Nat.ne_of_lt (h.lt_nextProc hx)), hx]
  obtain ⟨hcodes, hkids⟩ := h.fresh s.nextProc (h.next _ (Nat.le_refl _))
  refine ⟨fun x hx => ?_, fun x hx => ?_, fun c q hq => ?_, fun c q r hq hr => ?_,
    fun c c' q q' r hq hq' hr hr' => ?_, fun c q hq hne => ?_⟩
  · have hge : s.nextProc + 1 ≤ x := hx
    rw [hother x (by omega)]
    exact h.next x (by omega)
  · by_cases hxn : x = s.nextProc
    · rw [hxn]
      exact ⟨hcodes, hkids⟩
    · rw [hother x hxn] at hx
      exact h.fresh x hx
  · by_cases hx : c = s.nextProc
    · subst hx
      obtain rfl := Option.some.inj (hself.symm.trans hq)
      refine ⟨fun i _ => ⟨?_, ?_⟩, Or.inl ⟨?_, ?_, hkids⟩, fun i r hr => by simp at hr⟩
      all_goals simp only [hc, hcp]
    · rw [hother c hx] at hq
      obtain ⟨ha, hs, hb⟩ := h.tables c q hq
      refine ⟨ha, ?_, hb⟩
      rcases hs with hnone | ⟨k, r, qc, h1, h2, h3, h4, h5⟩
      · exact Or.inl hnone
      · exact Or.inr ⟨k, r, qc, h1, h2, h3, hold k qc h4, h5⟩
  · by_cases hx : c = s.nextProc
    · subst hx
      obtain rfl := Option.some.inj (hself.symm.trans hq)
      obtain rfl : s.nextPromise = r := by simpa [hpp] using hr
      refine ⟨Nat.lt_succ_self _, Or.inl ⟨?_, hcodes⟩⟩
      simp [System.spawn, Promise.make]
    · rw [hother c hx] at hq
      obtain ⟨hlt, hkept⟩ := h.promise c q r hq hr
      refine ⟨Nat.lt_succ_of_lt hlt, ?_⟩
      simpa only [System.spawn, Function.update_of_ne (Nat.ne_of_lt hlt)] using hkept
  · -- the new promise belongs to no older process
    have hnew : ∀ x qx, x ≠ s.nextProc → (s.spawn child).procs x = some qx →
        qx.pcb.parentPromise ≠ some s.nextPromise := by
      intro x qx hx hqx hrx
      rw [hother x hx] at hqx
      have := (h.promise x qx _ hqx hrx).1
      omega
    by_cases hx : c = s.nextProc
    · subst hx
      obtain rfl := Option.some.inj (hself.symm.trans hq)
      obtain rfl : s.nextPromise = r := by simpa [hpp] using hr
      by_contra hne
      exact hnew c' q' (Ne.symm hne) hq' hr'
    · by_cases hx' : c' = s.nextProc
      · subst hx'
        obtain rfl := Option.some.inj (hself.symm.trans hq')
        obtain rfl : s.nextPromise = r := by simpa [hpp] using hr'
        exact absurd hr (hnew c q hx hq)
      · rw [hother c hx] at hq
        rw [hother c' hx'] at hq'
        exact h.own c c' q q' r hq hq' hr hr'
  · by_cases hx : c = s.nextProc
    · rw [hx, hcodes]
    · rw [hother c hx] at hq
      exact h.alive c q hq hne

/-- A fork that fits keeps the invariant: it fills the unused slot `0`. -/
theorem ForkInv.fork {s s' : System} {b : Book} (h : ForkInv s b) {p : Nat} {pcb : PCB} {ev : Event}
    (hp : s.procs p = some ⟨pcb, .running⟩) (hfit : ForkFits pcb)
    (hs : s.fork p pcb = some (s', ev)) : ForkInv s' (b.observe ev) := by
  obtain ⟨h0, f, hf⟩ := hfit
  have hne : p ≠ s.nextProc := Nat.ne_of_lt (h.lt_nextProc hp)
  rw [System.fork_open f hf hne] at hs
  obtain ⟨rfl, rfl⟩ := Prod.mk.inj (Option.some.inj hs)
  have hsp : ForkInv (s.spawn (PCB.forkChild s p pcb)) b := h.spawn rfl rfl rfl
  have hp' : (s.spawn (PCB.forkChild s p pcb)).procs p = some ⟨pcb, .running⟩ := by
    simp [System.spawn, Function.update_of_ne hne, hp]
  obtain ⟨ha, hslot, -⟩ := h.tables p _ hp
  have hk : b.kids p = [] := by
    rcases hslot with ⟨-, -, hk⟩ | ⟨c, r, qc, hc, -⟩
    · exact hk
    · rw [h0] at hc
      simp at hc
  unfold Book.observe
  refine hsp.setProc hp' rfl (fun _ => h.alive p _ hp (by simp)) ⟨fun i hi => ?_, Or.inr ?_, ?_⟩
  · have hi0 : i ≠ 0 := by omega
    simpa only [PCB.forkParent, Function.update_of_ne hi0] using ha i hi
  · refine ⟨s.nextProc, s.nextPromise, ⟨PCB.forkChild s p pcb, .running⟩, ?_, ?_, ?_, ?_, rfl⟩
    · simp [PCB.forkParent]
    · simp [PCB.forkParent]
    · simp [hk]
    · simp [System.spawn]
  · intro i r hr
    simp at hr

/-! ## Runs -/

/-- **Step**: a step whose forks fit keeps the invariant. -/
theorem ForkInv.step {s s' : System} {b : Book} (h : ForkInv s b) {call : Call} {ev : Event}
    (hfit : CallFits (s, b) call) (hs : s.step call = some (s', ev)) : ForkInv s' (b.observe ev) := by
  cases call with
  | fork p =>
    simp only [System.step] at hs
    split at hs
    · rename_i pcb hp
      exact h.fork hp (hfit p rfl pcb hp) hs
    · simp at hs
  | exit p rc =>
    simp only [System.step] at hs
    split at hs
    · rename_i pcb hp
      have hexit := h.exit hp rc
      rwa [Option.some.inj hs] at hexit
    · simp at hs
  | wait p id =>
    simp only [System.step] at hs
    split at hs
    · rename_i pcb hp
      have hwait := h.wait hp id
      rwa [Option.some.inj hs] at hwait
    · simp at hs
  | wake p =>
    simp only [System.step] at hs
    split at hs
    · rename_i pcb slot r hp
      exact h.wake hp hs
    · simp at hs
  | close p fd =>
    simp only [System.step] at hs
    split at hs
    · rename_i pcb hp
      have hclose := h.close hp fd
      rwa [Option.some.inj hs] at hclose
    · simp at hs

/-- **Run**: the invariant holds in every state of a run whose forks fit. -/
theorem forkRuns_inv {st : System × Book} (h : ForkRuns st) : ForkInv st.1 st.2 := by
  refine Runs.Guarded.invariant (I := fun st => ForkInv st.1 st.2) ?_ ?_ h
  · rintro st rfl
    exact forkInv_boot
  · rintro ⟨s, b⟩ call ⟨s', b'⟩ - hI hok ⟨ev, hs, hb⟩
    obtain rfl : b' = b.observe ev := hb
    exact ForkInv.step hI hok hs

/-! ## The laws -/

/-- Distinct ids, from the invariant. -/
theorem ForkInv.distinctIds {s : System} {b : Book} (h : ForkInv s b) : DistinctIds b := by
  intro p
  cases hp : s.procs p with
  | none =>
    simp [(h.fresh p hp).2]
  | some q =>
    rcases (h.tables p q hp).slot with ⟨-, -, hk⟩ | ⟨c, r, qc, -, -, hk, -⟩
    · simp [hk]
    · simp [hk]

/-- The exit code a wait returns, from the invariant. -/
theorem ForkInv.waitLaw {s : System} {b : Book} (h : ForkInv s b) (p : Nat) : WaitLaw s b p := by
  intro s' id status hs
  simp only [System.step] at hs
  split at hs
  · rename_i pcb slot r hp
    obtain ⟨hn, hev, -⟩ := System.wake_eq hs
    obtain ⟨-, rfl, rfl⟩ := Event.waited.inj hev
    have ht := h.tables p _ hp
    obtain ⟨rfl, hr⟩ := ht.blocked slot r rfl
    rcases ht.slot with ⟨-, hnone, -⟩ | ⟨c, r', qc, -, hr', hk, hqc, hpp⟩
    · rw [hr] at hnone
      simp at hnone
    · obtain rfl : r = r' := Option.some.inj (hr.symm.trans hr')
      refine ⟨c, by simp [hk], fun c' hc' => ?_, ?_⟩
      · simpa [hk] using hc'
      · rcases (h.promise c qc r hqc hpp).2 with ⟨hz, -⟩ | ⟨-, hcode⟩
        · omega
        · exact hcode
  · simp at hs

/-- The next fork keeps the law exactly when it fits. -/
theorem ForkInv.forkLaw_iff {s : System} {b : Book} (h : ForkInv s b) {p : Nat} {pcb : PCB}
    (hp : s.procs p = some ⟨pcb, .running⟩) : ForkLaw s b p pcb ↔ ForkFits pcb := by
  have hstep : s.step (.fork p) = s.fork p pcb := by
    simp only [System.step, hp]
  have hne : p ≠ s.nextProc := Nat.ne_of_lt (h.lt_nextProc hp)
  constructor
  · rintro ⟨s', c, i, pcb', hs, -, hfree, -⟩
    rw [hstep] at hs
    cases hf : pcb.fdt 0 with
    | none =>
      unfold System.fork at hs
      rw [PCB.duplicate_closed hf] at hs
      simp at hs
    | some f =>
      rw [System.fork_open f hf hne] at hs
      obtain ⟨-, hid, -⟩ := Event.forked.inj (Prod.mk.inj (Option.some.inj hs)).2
      obtain rfl : i = 0 := by omega
      exact ⟨hfree, f, hf⟩
  · rintro ⟨h0, f, hf⟩
    have hk : b.kids p = [] := by
      rcases (h.tables p _ hp).slot with ⟨-, -, hk⟩ | ⟨c, r, qc, hc, -⟩
      · exact hk
      · rw [h0] at hc
        simp at hc
    refine ⟨_, s.nextProc, 0, PCB.forkParent s pcb, hstep.trans (System.fork_open f hf hne), ?_, h0,
      ?_, ?_, ?_, ?_⟩
    · rw [pcbArrSize_eq]; omega
    · simp [System.setProc]
    · simp [PCB.forkParent]
    · intro j hj
      simp only [PCB.forkParent, Function.update_of_ne hj, and_self]
    · simp [Book.observe, hk]

/-- **Children.**  In every state of a run all of whose forks fit: the ids of un-waited children are
    distinct, every `wait` that returns `0` stores the exit code of the child its id was returned for,
    and the next fork of a running process keeps the law exactly when it fits. -/
theorem children_laws {s : System} {b : Book} (hrun : ForkRuns (s, b)) :
    DistinctIds b ∧ (∀ p, WaitLaw s b p) ∧
      ∀ p pcb, s.procs p = some ⟨pcb, .running⟩ → (ForkLaw s b p pcb ↔ ForkFits pcb) := by
  have hinv : ForkInv s b := forkRuns_inv hrun
  exact ⟨hinv.distinctIds, hinv.waitLaw, fun p pcb hp => hinv.forkLaw_iff hp⟩

/-- The system after the first fork. -/
def System.forkedOnce : System :=
  (System.boot.spawn (PCB.forkChild System.boot 0 (PCB.make 1 0))).setProc 0
    ⟨PCB.forkParent System.boot (PCB.make 1 0), .running⟩

theorem System.boot_fork : System.boot.step (.fork 0) = some (System.forkedOnce, .forked 0 200 1) :=
  @System.fork_open System.boot 0 (PCB.make 1 0) 0 rfl (by decide)

/-- A step of a run goes on with what the observer reads. -/
theorem ForkRuns.step {s : System} {b : Book} {a : Call} {r : System × Event} (h : ForkRuns (s, b))
    (hfit : CallFits (s, b) a) (hstep : s.step a = some r) : ForkRuns (r.1, b.observe r.2) :=
  Runs.Guarded.next h hfit ⟨r.2, hstep, rfl⟩

/-- Only forks have to fit. -/
theorem callFits_of_ne {st : System × Book} {call : Call} (h : ∀ p, call ≠ .fork p) : CallFits st call :=
  fun p hp => absurd hp (h p)

/-- After one fork the laws hold, and the next fork of process `0` would break them.  When the child has exited
    with 7 and the parent has called `wait`, that returns 7 and the child is the one it is kept for; and then
    the parent can fork again. -/
theorem children_laws_forkedOnce :
    ¬ ForkLaw System.forkedOnce (Book.empty.observe (.forked 0 200 1)) 0
      (PCB.forkParent System.boot (PCB.make 1 0)) ∧
    ∃ s b s' pcb, ForkRuns (s, b) ∧ s.step (.wake 0) = some (s', .waited 0 200 7) ∧
      (∃ c, (200, c) ∈ b.kids 0 ∧ b.codes c = some 7) ∧
      s'.procs 0 = some ⟨pcb, .running⟩ ∧ ForkLaw s' (b.observe (.waited 0 200 7)) 0 pcb := by
  have hrun : ForkRuns (System.forkedOnce, Book.empty.observe (.forked 0 200 1)) := by
    refine Runs.Guarded.next (Runs.Guarded.start rfl) (a := .fork 0) ?_
      ⟨_, System.boot_fork, rfl⟩
    rintro p hp pcb hpcb
    obtain rfl := Call.fork.inj hp
    obtain rfl : PCB.make 1 0 = pcb := congrArg Process.pcb (Option.some.inj hpcb)
    exact ⟨rfl, 0, rfl⟩
  have hexited := hrun.step (a := .exit 1 7) (callFits_of_ne fun _ => Call.noConfusion) rfl
  have hwaits := hexited.step (a := .wait 0 200) (r := ((System.forkedOnce.exit 1 7
    (PCB.forkChild System.boot 0 (PCB.make 1 0))).1.setProc 0
      ⟨PCB.forkParent System.boot (PCB.make 1 0), .waiting 0 0⟩, .waiting 0))
    (callFits_of_ne fun _ => Call.noConfusion) (by with_unfolding_all rfl)
  have hwoken := hwaits.step (a := .wake 0) (callFits_of_ne fun _ => Call.noConfusion) rfl
  refine ⟨fun h => ?_, _, _, _, _, hwaits, rfl, ?_, rfl, ?_⟩
  · exact Option.some_ne_none 1 (((children_laws hrun).2.2 0 _ rfl).1 h).1
  · obtain ⟨c, hc, -, hcode⟩ := (children_laws hwaits).2.1 0 _ 200 7 rfl
    exact ⟨c, hc, hcode⟩
  · exact ((children_laws hwoken).2.2 0 _ rfl).2 ⟨rfl, 0, rfl⟩

/-- A parent that forks twice before waiting gets one id for two children. -/
theorem fork_fork_sameId : ∃ s₂,
    System.boot.step (.fork 0) = some (System.forkedOnce, .forked 0 200 1) ∧
    System.forkedOnce.step (.fork 0) = some (s₂, .forked 0 200 2) ∧
    ¬ DistinctIds ((Book.empty.observe (.forked 0 200 1)).observe (.forked 0 200 2)) := by
  refine ⟨_, System.boot_fork, @System.fork_open System.forkedOnce 0
    (PCB.forkParent System.boot (PCB.make 1 0)) 0 rfl (by decide), fun h => ?_⟩
  have hnodup := h 0
  simp [Book.observe, Book.empty] at hnodup

end BadApple
