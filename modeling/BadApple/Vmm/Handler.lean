/-
  `vmm_pageFault`, step by step, on several cores (kernel/vmm.cc).

  1. **Steps** — taking `shared_vme_lock`; what is done under it, from `check_VPN` to `add_mapping`; giving it
     back; and the file read that fills the page.  A fault outside of the shared region takes no lock.
  2. **Ways out** — the page was there; the page is there now; or no entry covers the address, and `exit`
     never returns: `unlock` is then what the local variable says.
  3. **The lock** — it is free, or one thread has it, or a thread has taken it away for good.
  4. **The result** — `sharedVmeLock_iff`.
-/
import BadApple.Threads.Tasks
import BadApple.Vmm.Model

namespace BadApple

open Function (update)

open Memory

open Tokens (Program Instr tally)

/-! ## The handler -/

/-- Physical memory, the directory and the `VME` of each thread, and `shared_vme`. -/
structure Machine where
  phys : PhysMem
  cr3 : Nat → Nat
  vme : Nat → VME BlockIo
  shared : VME BlockIo

/-- Where a thread is: in user code; before a step of the handler, with its locals; or gone, by `exit` or in a
    panic, which stops it where it is. -/
inductive FaultPlace where
  | running
  | lock (va : Nat)
  | locked (va : Nat)
  | unlockPresent
  | unlock (va : Nat) (vmeEntry : VMEEntry BlockIo) (newPage : Nat)
  | notShared (va : Nat)
  | read (va : Nat) (vmeEntry : VMEEntry BlockIo) (newPage : Nat)
  | exited (unlock : Bool)
  | panicked (unlock : Bool)

namespace Machine

/-- `alloc_frame` and `add_mapping`: the new page. -/
def install (m : Machine) (t va : Nat) : Option (Nat × Machine) := do
  let (newPage, phys) ← m.phys.allocFrame
  let phys ← phys.addMapping (m.cr3 t) (va / frameSize) (newPage / frameSize) false true true
  some (newPage, { m with phys := phys })

/-- What is done under the lock, and where the thread goes on. -/
def sharedSection (m : Machine) (t va : Nat) : Machine × FaultPlace :=
  if m.phys.checkVPN (m.cr3 t) (va / frameSize) = true then (m, .unlockPresent)
  else
    match m.shared.get va with
    | none => (m, .exited true)
    | some e =>
      match m.install t va with
      | none => (m, .panicked true)
      | some (newPage, m) => (m, .unlock va e newPage)

/-- What is done for an address that is not shared. -/
def ownSection (m : Machine) (t va : Nat) : Machine × FaultPlace :=
  match if 0x80000000 ≤ va then (m.vme t).get va else none with
  | none => (m, .exited false)
  | some e =>
    match m.install t va with
    | none => (m, .panicked false)
    | some (newPage, m) => (m, .read va e newPage)

/-- The file read. -/
def fillPage (m : Machine) (va : Nat) (e : VMEEntry BlockIo) (newPage : Nat) : Machine :=
  { m with phys := { m.phys with mem := store m.phys.mem newPage (e.pageBytes va) } }

end Machine

namespace FaultPlace

/-- The steps of `vmm_pageFault`. -/
def code : FaultPlace → Instr Unit Machine FaultPlace
  | .running => .rest
  | .lock va => .down () (.locked va)
  | .locked va => .act fun t m => m.sharedSection t va
  | .unlockPresent => .up () .running
  | .unlock va e newPage => .up () (.read va e newPage)
  | .notShared va => .act fun t m => m.ownSection t va
  | .read va e newPage => .act fun _ m => (m.fillPage va e newPage, .running)
  | .exited _ => .rest
  | .panicked _ => .rest

/-- A page fault at `va`, an address from `lowest` on. -/
def fault (lowest : Nat) (va : Nat) (m : Machine) : FaultPlace → Option (Machine × FaultPlace)
  | .running =>
    if lowest ≤ va ∧ va < 4294967296 then some (m, if 0xF0000000 ≤ va then .lock va else .notShared va)
    else none
  | _ => none

/-- The code of the handler, for faults from `lowest` on. -/
def program (lowest : Nat) : Program Unit Machine FaultPlace Nat := ⟨code, fault lowest⟩

end FaultPlace

/-- All threads run user code, and `shared_vme_lock` is free. -/
def Machine.start (m : Machine) : Tasks Unit Machine FaultPlace := .start (fun _ => 1) m fun _ => .running

/-- The states reached by page faults from `lowest` on, of any number of threads in any order of steps. -/
def FaultRuns (lowest threads : Nat) (m : Machine) : Tasks Unit Machine FaultPlace → Prop :=
  Tasks.Reached (FaultPlace.program lowest) threads m.start

/-- The same, when each action of a handler meets `ok`. -/
def FaultRunsIf (ok : Nat → Machine → FaultPlace → Prop) (lowest threads : Nat) (m : Machine) :
    Tasks Unit Machine FaultPlace → Prop :=
  Tasks.Guarded (FaultPlace.program lowest) threads ok m.start

/-! ## One thread alone -/

/-- What is left to do, when nobody comes between: memory after it, if the handler returns. -/
def Machine.finish : Machine × FaultPlace → Option PhysMem
  | (m, .unlockPresent) => some m.phys
  | (m, .unlock va e newPage) => some (m.fillPage va e newPage).phys
  | (m, .read va e newPage) => some (m.fillPage va e newPage).phys
  | _ => none

/-- **A handler that is not interrupted** does what `vmm_pageFault` does as one step. -/
theorem Machine.finish_section (m : Machine) (t va : Nat) :
    Machine.finish (if 0xF0000000 ≤ va then m.sharedSection t va else m.ownSection t va) =
      m.phys.pageFault (m.cr3 t) (m.vme t) m.shared va := by
  unfold PhysMem.pageFault
  by_cases hva : 0xF0000000 ≤ va
  · rw [if_pos hva]
    unfold Machine.sharedSection
    by_cases hpresent : m.phys.checkVPN (m.cr3 t) (va / frameSize) = true
    · rw [if_pos hpresent, if_pos ⟨hva, hpresent⟩]
      rfl
    · rw [if_neg hpresent, if_neg fun h => hpresent h.2]
      simp only [if_pos hva]
      cases m.shared.get va with
      | none => rfl
      | some e =>
        simp only [Machine.install]
        cases m.phys.allocFrame with
        | none => rfl
        | some r =>
          obtain ⟨newPage, phys⟩ := r
          simp only [Option.bind_eq_bind, Option.bind_some]
          cases phys.addMapping (m.cr3 t) (va / frameSize) (newPage / frameSize) false true true <;> rfl
  · rw [if_neg hva, if_neg fun h => hva h.1]
    unfold Machine.ownSection
    simp only [if_neg hva]
    cases (if 0x80000000 ≤ va then (m.vme t).get va else none) with
    | none => rfl
    | some e =>
      simp only [Machine.install]
      cases m.phys.allocFrame with
      | none => rfl
      | some r =>
        obtain ⟨newPage, phys⟩ := r
        simp only [Option.bind_eq_bind, Option.bind_some]
        cases phys.addMapping (m.cr3 t) (va / frameSize) (newPage / frameSize) false true true <;> rfl

/-! ## The lock -/

namespace FaultPlace

/-- Who has taken the lock and not given it back. -/
def holdsLock : FaultPlace → Nat
  | .locked _ | .unlockPresent | .unlock .. | .exited true | .panicked true => 1
  | _ => 0

/-- A thread that is not in the handler: it runs, or `exit` has ended it. -/
def Outside (p : FaultPlace) : Prop := p = .running ∨ ∃ unlock, p = .exited unlock

variable {p : FaultPlace} {i : Unit} {next : FaultPlace} {lowest va t : Nat} {m m' : Machine}

theorem code_down (h : code p = .down i next) : ∃ va, p = .lock va ∧ next = .locked va := by
  cases p <;> cases h
  exact ⟨_, rfl, rfl⟩

theorem code_up (h : code p = .up i next) : p.holdsLock = 1 ∧ next.holdsLock = 0 := by
  cases p <;> cases h <;> exact ⟨rfl, rfl⟩

theorem code_act {f : Nat → Machine → Machine × FaultPlace} (h : code p = .act f) :
    (∃ va, p = .locked va ∧ f = fun t m => m.sharedSection t va) ∨
    (∃ va, p = .notShared va ∧ f = fun t m => m.ownSection t va) ∨
    (∃ va e newPage, p = .read va e newPage ∧ f = fun _ m => (m.fillPage va e newPage, .running)) := by
  cases p <;> cases h
  · exact Or.inl ⟨_, rfl, rfl⟩
  · exact Or.inr (Or.inl ⟨_, rfl, rfl⟩)
  · exact Or.inr (Or.inr ⟨_, _, _, rfl, rfl⟩)

/-- A fault begins without the lock. -/
theorem fault_holdsLock (h : fault lowest va m p = some (m', next)) :
    p.holdsLock = 0 ∧ next.holdsLock = 0 := by
  cases p with
  | running =>
    rw [fault] at h
    by_cases hva : lowest ≤ va ∧ va < 4294967296
    · rw [if_pos hva] at h
      obtain ⟨-, rfl⟩ := Prod.mk.inj (Option.some.inj h)
      refine ⟨rfl, ?_⟩
      split <;> rfl
    · rw [if_neg hva] at h
      cases h
  | _ => cases h

end FaultPlace

/-- The section ends with the lock. -/
theorem Machine.sharedSection_holdsLock (m : Machine) (t va : Nat) :
    (m.sharedSection t va).2.holdsLock = 1 := by
  unfold Machine.sharedSection
  by_cases hpresent : m.phys.checkVPN (m.cr3 t) (va / frameSize) = true
  · rw [if_pos hpresent]
    rfl
  · rw [if_neg hpresent]
    cases m.shared.get va with
    | none => rfl
    | some e => cases m.install t va <;> rfl

/-- An address that is not shared has nothing to do with the lock. -/
theorem Machine.ownSection_holdsLock (m : Machine) (t va : Nat) : (m.ownSection t va).2.holdsLock = 0 := by
  unfold Machine.ownSection
  cases (if 0x80000000 ≤ va then (m.vme t).get va else none) with
  | none => rfl
  | some e => cases m.install t va <;> rfl

variable {lowest threads t : Nat} {ok : Nat → Machine → FaultPlace → Prop} {m : Machine}
  {s : Tokens.State Unit Machine FaultPlace}

/-- **The lock is free or somebody has it**, in every run. -/
theorem lock_conserved
    (h : Tokens.Guarded (FaultPlace.program lowest) threads ok ⟨fun _ => 1, m, fun _ => .running⟩ s) :
    s.count () + tally FaultPlace.holdsLock s.pc threads = 1 := by
  apply Tokens.Guarded.invariant (I := fun s => s.count () + tally FaultPlace.holdsLock s.pc threads = 1)
    ?_ ?_ ?_ ?_ ?_ h
  · rw [Tokens.tally_const]
    rfl
  · intro s t va mem p ht hI _ hcall
    obtain ⟨hfrom, hto⟩ := FaultPlace.fault_holdsLock hcall
    have hmove := Tokens.tally_update FaultPlace.holdsLock s.pc p ht
    simp only
    omega
  · intro s t i next ht hI hcode hpos
    obtain rfl : i = () := rfl
    obtain ⟨va, hpc, rfl⟩ := FaultPlace.code_down hcode
    have hmove := Tokens.tally_update FaultPlace.holdsLock s.pc (.locked va) ht
    rw [hpc] at hmove
    simp only [FaultPlace.holdsLock] at hmove
    simp only [Function.update_self]
    omega
  · intro s t i next ht hI hcode
    obtain rfl : i = () := rfl
    obtain ⟨hfrom, hto⟩ := FaultPlace.code_up hcode
    have hmove := Tokens.tally_update FaultPlace.holdsLock s.pc next ht
    simp only [Function.update_self]
    omega
  · intro s t f ht hI hcode _
    have hmove := Tokens.tally_update FaultPlace.holdsLock s.pc (f t s.mem).2 ht
    have hsame : (s.pc t).holdsLock = (f t s.mem).2.holdsLock := by
      rcases FaultPlace.code_act hcode with ⟨va, hpc, rfl⟩ | ⟨va, hpc, rfl⟩ | ⟨va, e, newPage, hpc, rfl⟩
      · rw [hpc, Machine.sharedSection_holdsLock]
        rfl
      · rw [hpc, Machine.ownSection_holdsLock]
        rfl
      · rw [hpc]
        rfl
    simp only
    omega

/-- The address is shared, its page is not there, and no entry covers it. -/
def Machine.Uncovered (m : Machine) (t va : Nat) : Prop :=
  m.phys.checkVPN (m.cr3 t) (va / frameSize) = false ∧ m.shared.get va = none

/-- No section finds its address uncovered. -/
def FindsEntry (t : Nat) (m : Machine) (p : FaultPlace) : Prop := ∀ va, p = .locked va → ¬ m.Uncovered t va

/-- A section that finds an entry does not end in `exit`. -/
theorem Machine.sharedSection_ne_exited {va : Nat} (h : ¬ m.Uncovered t va) :
    (m.sharedSection t va).2 ≠ .exited true := by
  unfold Machine.sharedSection
  by_cases hpresent : m.phys.checkVPN (m.cr3 t) (va / frameSize) = true
  · rw [if_pos hpresent]
    exact FaultPlace.noConfusion
  · rw [if_neg hpresent]
    cases hget : m.shared.get va with
    | none => exact absurd ⟨Bool.eq_false_iff.2 hpresent, hget⟩ h
    | some e => cases m.install t va <;> exact FaultPlace.noConfusion

theorem Machine.ownSection_ne_exited (m : Machine) (t va : Nat) : (m.ownSection t va).2 ≠ .exited true := by
  unfold Machine.ownSection
  cases (if 0x80000000 ≤ va then (m.vme t).get va else none) with
  | none =>
    intro h
    cases h
  | some e => cases m.install t va <;> exact FaultPlace.noConfusion

/-- **When every section finds its entry**, `exit` ends no thread that has the lock. -/
theorem noneExits (h : Tokens.Guarded (FaultPlace.program lowest) threads FindsEntry
    ⟨fun _ => 1, m, fun _ => .running⟩ s) : ∀ t, s.pc t ≠ .exited true := by
  have hupdate : ∀ {pc : Nat → FaultPlace} {t : Nat} {p : FaultPlace}, (∀ u, pc u ≠ .exited true) →
      p ≠ .exited true → ∀ u, update pc t p u ≠ .exited true := by
    intro pc t p hpc hp u
    by_cases hu : u = t
    · subst hu
      rwa [Function.update_self]
    · rw [Function.update_of_ne hu]
      exact hpc u
  apply Tokens.Guarded.invariant (I := fun s => ∀ t, s.pc t ≠ .exited true) ?_ ?_ ?_ ?_ ?_ h
  · exact fun t => FaultPlace.noConfusion
  · intro s t va mem p ht hI _ hcall
    refine hupdate hI ?_
    rintro rfl
    cases (FaultPlace.fault_holdsLock hcall).2
  · intro s t i next ht hI hcode _
    obtain ⟨va, -, rfl⟩ := FaultPlace.code_down hcode
    exact hupdate hI FaultPlace.noConfusion
  · intro s t i next ht hI hcode
    refine hupdate hI ?_
    rintro rfl
    cases (FaultPlace.code_up hcode).2
  · intro s t f ht hI hcode hok
    rcases FaultPlace.code_act hcode with ⟨va, hpc, rfl⟩ | ⟨va, hpc, rfl⟩ | ⟨va, e, newPage, hpc, rfl⟩
    · exact hupdate hI (Machine.sharedSection_ne_exited (hok va hpc))
    · exact hupdate hI (Machine.ownSection_ne_exited _ _ _)
    · exact hupdate hI FaultPlace.noConfusion

/-! ## The result -/

/-- No thread is inside the handler. -/
def NobodyInside (threads : Nat) (s : Tasks Unit Machine FaultPlace) : Prop :=
  ∀ t, t < threads → (s.pc t).Outside

/-- Threads outside of the handler are where they are seen. -/
theorem NobodyInside.tally_eq {s : Tasks Unit Machine FaultPlace}
    (hok : TasksOk (FaultPlace.program lowest) threads s)
    (h : NobodyInside threads s) :
    tally FaultPlace.holdsLock (s.place (FaultPlace.program lowest)) threads
      = tally FaultPlace.holdsLock s.pc threads := by
  refine Sums.sumTo_congr fun t ht => ?_
  rw [Tasks.place_of_ne]
  rw [hok.outside fun i next hcode => ?_]
  · decide
  · obtain ⟨va, hpc, -⟩ := FaultPlace.code_down hcode
    rcases h t ht with hrun | ⟨unlock, hexit⟩
    · rw [hrun] at hpc
      cases hpc
    · rw [hexit] at hpc
      cases hpc

/-- **`shared_vme_lock`**: whatever the addresses, the threads and the order of steps, when no thread is
    inside the handler, the lock is free if and only if `exit` has ended no thread that had it; and so it is
    free in every run in which each section finds the page or an entry. -/
theorem sharedVmeLock_iff (threads : Nat) (m : Machine) :
    (∀ s, FaultRunsIf FindsEntry 0 threads m s → NobodyInside threads s → (s.sem ()).n = 1) ∧
    ∀ s, FaultRuns 0 threads m s → NobodyInside threads s →
      ((s.sem ()).n = 1 ↔ ∀ t, t < threads → s.pc t ≠ .exited true) := by
  have hfree : ∀ s, (s.sem ()).n + tally FaultPlace.holdsLock s.pc threads = 1 → NobodyInside threads s →
      ((s.sem ()).n = 1 ↔ ∀ t, t < threads → s.pc t ≠ .exited true) := by
    intro s hsum hnobody
    constructor
    · intro hone t ht hexit
      have hle := Tokens.le_tally FaultPlace.holdsLock s.pc ht
      rw [hexit] at hle
      simp only [FaultPlace.holdsLock] at hle
      omega
    · intro hno
      have hzero : tally FaultPlace.holdsLock s.pc threads = 0 := by
        refine Tokens.tally_eq_zero fun t ht => ?_
        rcases hnobody t ht with hrun | ⟨unlock, hexit⟩
        · rw [hrun]
          rfl
        · cases unlock with
          | false =>
            rw [hexit]
            rfl
          | true => exact absurd hexit (hno t ht)
      omega
  refine ⟨fun s hr hnobody => ?_, fun s hr hnobody => ?_⟩
  · have hsum : (s.sem ()).n + tally FaultPlace.holdsLock (s.place (FaultPlace.program 0)) threads = 1 :=
      lock_conserved (Tasks.Guarded.view hr)
    rw [NobodyInside.tally_eq (Tasks.Guarded.tasksOk hr) hnobody] at hsum
    refine (hfree s hsum hnobody).2 fun t ht hexit => ?_
    refine noneExits (Tasks.Guarded.view hr) t ?_
    refine Tasks.place_at ?_ hexit
    rw [(Tasks.Guarded.tasksOk hr).outside fun i next hcode => by rw [hexit] at hcode; cases hcode]
    decide
  · have hsum : (s.sem ()).n + tally FaultPlace.holdsLock (s.place (FaultPlace.program 0)) threads = 1 :=
      lock_conserved (Tasks.Guarded.view hr)
    rw [NobodyInside.tally_eq (Tasks.Guarded.tasksOk hr) hnobody] at hsum
    exact hfree s hsum hnobody

/-- A machine without entries and without pages. -/
def Machine.bare : Machine :=
  ⟨⟨fun _ => 0, 0, 0x2000, 0x80000000⟩, fun _ => 0x1000, fun _ => .new 0x80000000 0xF0000000,
    .new 0xFEE01000 0xFFFFFFFF⟩

/-- **The defect**: a thread that reads at `0xF0000000`, where nothing is mapped, ends with the lock. -/
theorem sharedVmeLock_lost : ∃ s, FaultRuns 0 1 Machine.bare s ∧ NobodyInside 1 s ∧ (s.sem ()).n = 0 := by
  have h₀ : FaultRuns 0 1 Machine.bare Machine.bare.start := Runs.Guarded.start rfl
  have h₁ := h₀.next (.call 0 0xF0000000) rfl
  have h₂ := h₁.next (.step 0) rfl
  have h₃ := h₂.next (.step 0) rfl
  refine ⟨_, h₃, ?_, rfl⟩
  intro t ht
  obtain rfl : t = 0 := by omega
  exact Or.inr ⟨true, rfl⟩

end BadApple
