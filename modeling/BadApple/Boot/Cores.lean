/-
  Starting the processors: `kernelInit` on all of them (kernel/init.cc, kernel/mbr.S, kernel/smp.h).

  1. **Program** — every core runs the same code from `kk` on: it picks a stack while it is on the one
     temporary stack that all share, and enters `kernelInit`.  The first core sets everything up and starts the
     others one by one with two interprocessor interrupts, waiting in between until `SMP::running` has gone up;
     all then set themselves up, and the last to count itself in `howManyAreHere` creates the thread of
     `kernelMain`.
  2. **Runs** — any core that is not halted takes the next step, in any order (`step`).
  3. **The invariant** — `Inv`: all shared variables are functions of where the cores are: the flags of where
     the first core is, the counters of how many have passed their places (`tally`).
  4. **The crux** — `counted_of_running`: when the first core stops waiting, the core that it waits for has
     left the temporary stack.
  5. **The result** — `step_inv`: every step of every core keeps the invariant, when there is a processor with
     each of the APIC ids to which the first core sends.
-/
import BadApple.Lib.Fair
import BadApple.Lib.Tokens
import BadApple.Boot.Config

namespace BadApple.Smp

open Function (update)
open Tokens (tally)
open Boot (maxProcs)

/-! ## Program -/

/-- Where a core is, in the order of the source; from `count` on to `localInit` only the cores that find
    `smpInitDone` set. -/
inductive Pc where
  | halted
  | pick
  | test
  | globalInit
  | publish
  | system
  | countFirst
  | next (id : Nat)
  | reset (id : Nat)
  | start (id : Nat)
  | wait (id : Nat)
  | count
  | localInit
  | perCore
  | pit
  | segments
  | arrive
  | create
  | idle
deriving DecidableEq, Repr

/-- The cores, named by their APIC ids, and what they share: the variables of the source, what has been set
    up, the stack that each core has picked, and how many threads of `kernelMain` there are. -/
structure Cores where
  pc : Nat → Pc
  stack : Nat → Option Nat
  smpInitDone : Bool
  running : Nat
  howManyAreHere : Nat
  globalReady : Bool
  systemReady : Bool
  coreReady : Nat → Bool
  mains : Nat

/-- Core `c` goes on at `p`. -/
def Cores.goto (s : Cores) (c : Nat) (p : Pc) : Cores := { s with pc := update s.pc c p }

/-- One step of core `c`, with `totalProcs` cores in the configuration and processors whose APIC ids are those
    in `apicIds`; `none` if it is halted, in the loop of the helper threads, has panicked, or is about to use an
    entry behind the last of a table with one for each of `MAX_PROCS` cores. -/
def step (apicIds : Nat → Bool) (totalProcs c : Nat) (s : Cores) : Option Cores :=
  match s.pc c with
  | .halted => none
  -- `pickKernelStack`, of `stacks`; `SMP::me()` is the APIC id
  | .pick =>
    let cpu := if s.smpInitDone then c else 0
    if cpu < maxProcs then some { s.goto c .test with stack := update s.stack c (some cpu) } else none
  | .test => some (s.goto c (if s.smpInitDone then .count else .globalInit))
  -- the configuration, the heap, the memory, the global constructors, and `SMP::init(true)`
  | .globalInit => some { s.goto c .publish with globalReady := true, running := 0, howManyAreHere := 0 }
  | .publish => some { s.goto c .system with smpInitDone := true }
  -- `IDT::init`, `Pit::calibrate` and `SYS::init`
  | .system => some { s.goto c .countFirst with systemReady := true }
  | .countFirst => some { s.goto c (.next 1) with running := s.running + 1 }
  | .next id => some (s.goto c (if id < totalProcs then .reset id else .perCore))
  -- the INIT interrupt: whatever it does, the core waits for a startup interrupt
  | .reset id => some ((s.goto id .halted).goto c (.start id))
  -- the startup interrupt, which a core that does not wait for it ignores, and which is lost if there is none
  -- with that id
  | .start id => some ((if apicIds id ∧ s.pc id = .halted then s.goto id .pick else s).goto c (.wait id))
  | .wait id => some (if s.running ≤ id then s else s.goto c (.next (id + 1)))
  | .count => some { s.goto c .localInit with running := s.running + 1 }
  | .localInit => some (s.goto c .perCore)
  | .perCore => some (s.goto c .pit)
  -- `Pit::init` panics if the timer has not been calibrated
  | .pit => if s.systemReady then some (s.goto c .segments) else none
  -- `ltr` of a descriptor that is not in the GDT faults
  | .segments =>
    if c < maxProcs then some { s.goto c .arrive with coreReady := update s.coreReady c true } else none
  | .arrive =>
    let myOrder := s.howManyAreHere + 1
    some { s.goto c (if myOrder = totalProcs then .create else .idle) with howManyAreHere := myOrder }
  | .create => some { s.goto c .idle with mains := s.mains + 1 }
  | .idle => none

/-- The firmware has started core 0; all others are halted. -/
def start : Cores where
  pc := fun c => if c = 0 then .pick else .halted
  stack := fun _ => none
  smpInitDone := false
  running := 0
  howManyAreHere := 0
  globalReady := false
  systemReady := false
  coreReady := fun _ => false
  mains := 0

/-- The states of all runs. -/
def Reached (apicIds : Nat → Bool) (totalProcs : Nat) : Cores → Prop :=
  Runs.Reached (fun s => s = start) fun s c t => step apicIds totalProcs c s = some t

/-- What the next step of core `c` needs: only core 0 sets up what is global, and starts others; the APIC is
    set up before a core asks for its id, there is a stack and a task state for it, the timer is calibrated, the
    descriptors and system calls are there, and `kernelMain` finds all cores ready. -/
def Needs (totalProcs : Nat) (s : Cores) (c : Nat) : Prop :=
  match s.pc c with
  | .pick => c < maxProcs ∧ (s.smpInitDone = true → s.globalReady = true)
  | .globalInit | .publish => c = 0
  | .system => c = 0 ∧ s.globalReady = true
  | .countFirst | .next _ => c = 0 ∧ s.systemReady = true
  | .reset id | .start id => c = 0 ∧ s.systemReady = true ∧ s.pc id = .halted
  | .wait _ => c = 0 ∧ s.systemReady = true
  | .segments => c < maxProcs ∧ s.globalReady = true ∧ s.systemReady = true
  | .count | .localInit | .perCore | .pit | .arrive => s.globalReady = true ∧ s.systemReady = true
  | .create => ∀ d, d < totalProcs → s.coreReady d = true
  | _ => True

/-! ## Where the cores are -/

namespace Pc

/-- Counted in `SMP::running`. -/
def counted : Pc → Nat
  | .next _ | .reset _ | .start _ | .wait _ | .localInit | .perCore | .pit | .segments | .arrive | .create
  | .idle => 1
  | _ => 0

/-- Counted in `howManyAreHere`. -/
def arrived : Pc → Nat
  | .create | .idle => 1
  | _ => 0

/-- About to create the thread of `kernelMain`. -/
def creating : Pc → Nat
  | .create => 1
  | _ => 0

/-- On a kernel stack. -/
def onStack : Pc → Bool
  | .halted | .pick => false
  | _ => true

/-- Set up. -/
def ready : Pc → Bool
  | .arrive | .create | .idle => true
  | _ => false

/-- The first core has set up what is global. -/
def globalDone : Pc → Bool
  | .halted | .pick | .test | .globalInit => false
  | _ => true

/-- The first core has set `smpInitDone`. -/
def published : Pc → Bool
  | .halted | .pick | .test | .globalInit | .publish => false
  | _ => true

/-- The first core has set up the rest of the system. -/
def systemDone : Pc → Bool
  | .halted | .pick | .test | .globalInit | .publish | .system => false
  | _ => true

/-- How many cores the first core has started, itself included. -/
def started (totalProcs : Nat) : Pc → Nat
  | .halted | .pick | .test | .globalInit | .publish | .system | .countFirst => 1
  | .next id | .reset id | .start id => id
  | .wait id => id + 1
  | _ => totalProcs

/-- How many cores it has waited for, itself included. -/
def waited (totalProcs : Nat) : Pc → Nat
  | .halted | .pick | .test | .globalInit | .publish | .system | .countFirst => 0
  | .next id | .reset id | .start id | .wait id => id
  | _ => totalProcs

/-- The first core can be here. -/
def First (totalProcs : Nat) : Pc → Prop
  | .halted | .count | .localInit => False
  | .next id => 1 ≤ id ∧ id ≤ totalProcs
  | .reset id | .start id | .wait id => 1 ≤ id ∧ id < totalProcs
  | _ => True

/-- Another core can be here once it is started. -/
def Other : Pc → Prop
  | .pick | .test | .count | .localInit | .perCore | .pit | .segments | .arrive | .create | .idle => True
  | _ => False

/-- How many steps are left at most, other than rounds of the waiting loop. -/
def rank (totalProcs : Nat) : Pc → Nat
  | .idle => 0
  | .create => 1
  | .arrive => 2
  | .segments => 3
  | .pit => 4
  | .perCore => 5
  | .localInit => 6
  | .count => 7
  | .next id => 6 + 4 * (totalProcs - id)
  | .reset id => 5 + 4 * (totalProcs - id)
  | .start id => 4 + 4 * (totalProcs - id)
  | .wait id => 3 + 4 * (totalProcs - id)
  | .countFirst => 7 + 4 * totalProcs
  | .system => 8 + 4 * totalProcs
  | .publish => 9 + 4 * totalProcs
  | .globalInit => 10 + 4 * totalProcs
  | .test => 11 + 4 * totalProcs
  | .pick => 12 + 4 * totalProcs
  | .halted => 13 + 4 * totalProcs

end Pc

/-! ## The invariant -/

/-- Where the cores can be: those that have been started are on their way, and those that the first has waited
    for are counted. -/
structure Places (n : Nat) (pc : Nat → Pc) : Prop where
  first : (pc 0).First n
  others : ∀ c, 0 < c → c < (pc 0).started n → (pc c).Other
  halted : ∀ c, (pc 0).started n ≤ c → pc c = .halted
  ahead : ∀ c, c < (pc 0).waited n → (pc c).counted = 1

/-- What is shared, as a function of where the cores are. -/
structure Inv (n : Nat) (s : Cores) : Prop where
  places : Places n s.pc
  flag : s.smpInitDone = (s.pc 0).published
  globals : s.globalReady = (s.pc 0).globalDone
  system : s.systemReady = (s.pc 0).systemDone
  running : s.running = tally Pc.counted s.pc n
  here : s.howManyAreHere = tally Pc.arrived s.pc n
  mains : s.mains + tally Pc.creating s.pc n = if tally Pc.arrived s.pc n = n then 1 else 0
  picked : ∀ c, s.stack c = if (s.pc c).onStack then some c else none
  ready : ∀ c, s.coreReady c = (s.pc c).ready

variable {ids : Nat → Bool} {n c : Nat} {s t : Cores} {pc : Nat → Pc} {p q : Pc}

/-! ## Counting cores -/

theorem counted_le (p : Pc) : p.counted ≤ 1 := by
  cases p <;> simp [Pc.counted]

theorem arrived_le (p : Pc) : p.arrived ≤ 1 := by
  cases p <;> simp [Pc.arrived]

section Tally

variable {w : Pc → Nat} {k m : Nat}

theorem tally_le (hw : ∀ p, w p ≤ 1) (pc : Nat → Pc) : ∀ k, tally w pc k ≤ k := by
  intro k
  induction k with
  | zero => exact Nat.le_refl 0
  | succ k ih =>
    have hstep : tally w pc (k + 1) = tally w pc k + w (pc k) := rfl
    have := hw (pc k)
    omega

/-- Where not all are counted, the count is less. -/
theorem tally_lt (hw : ∀ p, w p ≤ 1) (hc : c < k) (hzero : w (pc c) = 0) : tally w pc k < k := by
  induction k with
  | zero => exact absurd hc (Nat.not_lt_zero c)
  | succ k ih =>
    have hstep : tally w pc (k + 1) = tally w pc k + w (pc k) := rfl
    have hone := hw (pc k)
    have hle := tally_le hw pc k
    rcases Nat.lt_succ_iff_lt_or_eq.1 hc with hlt | rfl
    · have := ih hlt
      omega
    · omega

/-- Where all are counted, the count is full. -/
theorem tally_eq : ∀ {k : Nat}, (∀ c, c < k → w (pc c) = 1) → tally w pc k = k := by
  intro k
  induction k with
  | zero =>
    intro _
    rfl
  | succ k ih =>
    intro hall
    have hstep : tally w pc (k + 1) = tally w pc k + w (pc k) := rfl
    rw [hstep, ih fun c hc => hall c (by omega), hall k (Nat.lt_succ_self k)]

/-- Cores that are halted do not count. -/
theorem tally_halted (hw : w .halted = 0) (hhalted : ∀ c, k ≤ c → pc c = .halted) (hk : k ≤ m) :
    tally w pc m = tally w pc k := by
  induction hk with
  | refl => rfl
  | @step m hk ih =>
    have hstep : tally w pc (m + 1) = tally w pc m + w (pc m) := rfl
    rw [hstep, ih, hhalted m hk, hw, Nat.add_zero]

end Tally

/-! ## Moves -/

namespace Places

theorem started_le (h : Places n pc) (hn : 0 < n) : 1 ≤ (pc 0).started n ∧ (pc 0).started n ≤ n := by
  have hfirst := h.first
  cases hp : pc 0 <;> rw [hp] at hfirst <;> simp only [Pc.started] <;> simp only [Pc.First] at hfirst <;> omega

/-- Who is not halted has been started. -/
theorem lt_started (h : Places n pc) (hc : pc c ≠ .halted) : c < (pc 0).started n := by
  by_contra hge
  exact hc (h.halted c (by omega))

/-- Once a second core is started, the first has set up everything. -/
theorem done (h : Places n pc) (hpos : 0 < c) (hc : c < (pc 0).started n) :
    (pc 0).globalDone = true ∧ (pc 0).published = true ∧ (pc 0).systemDone = true := by
  have hfirst := h.first
  cases hp : pc 0 <;> rw [hp] at hfirst hc <;> simp only [Pc.started] at hc <;>
    first
    | exact ⟨rfl, rfl, rfl⟩
    | omega

/-- Another core goes on. -/
theorem move_other (h : Places n pc) (hpos : 0 < c) (hp : pc c ≠ .halted) (hq : q.Other)
    (hcounted : (pc c).counted ≤ q.counted) : Places n (update pc c q) := by
  have h0 : update pc c q 0 = pc 0 := Function.update_of_ne (by omega) _ _
  have hlt := h.lt_started hp
  constructor
  · rw [h0]
    exact h.first
  · intro d hd hds
    rw [h0] at hds
    by_cases hdc : d = c
    · rw [hdc, Function.update_self]
      exact hq
    · rw [Function.update_of_ne hdc]
      exact h.others d hd hds
  · intro d hd
    rw [h0] at hd
    rw [Function.update_of_ne (by omega)]
    exact h.halted d hd
  · intro d hd
    rw [h0] at hd
    have hahead := h.ahead d hd
    by_cases hdc : d = c
    · rw [hdc, Function.update_self]
      rw [hdc] at hahead
      have := counted_le q
      omega
    · rw [Function.update_of_ne hdc]
      exact hahead

/-- The first core goes on. -/
theorem move_first (h : Places n pc) (hq : q.First n) (hstarted : q.started n = (pc 0).started n)
    (hone : 0 < q.started n) (hwaited : 0 < q.waited n → q.counted = 1)
    (hahead : ∀ d, 0 < d → d < q.waited n → (pc d).counted = 1) : Places n (update pc 0 q) := by
  have h0 : update pc 0 q 0 = q := Function.update_self _ _ _
  constructor
  · rw [h0]
    exact hq
  · intro d hd hds
    rw [h0, hstarted] at hds
    rw [Function.update_of_ne (by omega)]
    exact h.others d hd hds
  · intro d hd
    rw [h0] at hd
    rw [Function.update_of_ne (by omega)]
    exact h.halted d (by omega)
  · intro d hd
    rw [h0] at hd
    by_cases hd0 : d = 0
    · rw [hd0, h0]
      exact hwaited (by omega)
    · rw [Function.update_of_ne hd0]
      exact hahead d (by omega) hd

/-- The startup interrupt takes the next core to the start, and the first core waits for it. -/
theorem start_core {id : Nat} (h : Places n pc) (hp : pc 0 = .start id) :
    Places n (update (update pc id .pick) 0 (.wait id)) := by
  have hfirst := h.first
  rw [hp] at hfirst
  obtain ⟨hpos, hlt⟩ := hfirst
  have h0 : update (update pc id .pick) 0 (.wait id) 0 = .wait id := Function.update_self _ _ _
  have hother : ∀ d, d ≠ 0 → d ≠ id → update (update pc id .pick) 0 (.wait id) d = pc d := by
    intro d hd hdi
    rw [Function.update_of_ne hd, Function.update_of_ne hdi]
  constructor
  · rw [h0]
    exact ⟨hpos, hlt⟩
  · intro d hd hds
    rw [h0] at hds
    have hds' : d < id + 1 := hds
    by_cases hdi : d = id
    · rw [hdi, Function.update_of_ne (by omega), Function.update_self]
      trivial
    · rw [hother d (by omega) hdi]
      refine h.others d hd ?_
      rw [hp]
      show d < id
      omega
  · intro d hd
    rw [h0] at hd
    have hd' : id + 1 ≤ d := hd
    rw [hother d (by omega) (by omega)]
    refine h.halted d ?_
    rw [hp]
    show id ≤ d
    omega
  · intro d hd
    rw [h0] at hd
    have hd' : d < id := hd
    by_cases hd0 : d = 0
    · rw [hd0, h0]
      rfl
    · rw [hother d hd0 (by omega)]
      refine h.ahead d ?_
      rw [hp]
      exact hd'

end Places

namespace Inv

/-- **A move** of core `c` to `q`, when what is shared changes as it should. -/
theorem move (h : Inv n s) (hc : c < n) (hp : s.pc c = p) (hplaces : Places n (update s.pc c q))
    (hpc : t.pc = update s.pc c q)
    (hflag : t.smpInitDone = (update s.pc c q 0).published)
    (hglobals : t.globalReady = (update s.pc c q 0).globalDone)
    (hsystem : t.systemReady = (update s.pc c q 0).systemDone)
    (hrunning : t.running + p.counted = s.running + q.counted)
    (hhere : t.howManyAreHere + p.arrived = s.howManyAreHere + q.arrived)
    (hmains : t.mains + tally Pc.creating t.pc n = if t.howManyAreHere = n then 1 else 0)
    (hstacks : t.stack = update s.stack c (if q.onStack then some c else none))
    (hready : t.coreReady = update s.coreReady c q.ready) : Inv n t := by
  have htally : ∀ w : Pc → Nat, tally w t.pc n + w p = tally w s.pc n + w q := fun w => by
    rw [hpc, ← hp]
    exact Tokens.tally_update w s.pc q hc
  have hhere' : t.howManyAreHere = tally Pc.arrived t.pc n := by
    have := htally Pc.arrived
    have := h.here
    omega
  constructor
  · rw [hpc]
    exact hplaces
  · rw [hpc]
    exact hflag
  · rw [hpc]
    exact hglobals
  · rw [hpc]
    exact hsystem
  · have := htally Pc.counted
    have := h.running
    omega
  · exact hhere'
  · rw [← hhere']
    exact hmains
  · intro d
    rw [hstacks, hpc]
    by_cases hd : d = c
    · rw [hd, Function.update_self, Function.update_self]
    · rw [Function.update_of_ne hd, Function.update_of_ne hd]
      exact h.picked d
  · intro d
    rw [hready, hpc]
    by_cases hd : d = c
    · rw [hd, Function.update_self, Function.update_self]
    · rw [Function.update_of_ne hd, Function.update_of_ne hd]
      exact h.ready d

/-- Nobody comes to create a thread, or has created one. -/
theorem mains_same (h : Inv n s) (hc : c < n) (hp : s.pc c = p) (hpc : t.pc = update s.pc c q)
    (hcreating : p.creating = q.creating) (hhere : t.howManyAreHere = s.howManyAreHere)
    (hmains : t.mains = s.mains) :
    t.mains + tally Pc.creating t.pc n = if t.howManyAreHere = n then 1 else 0 := by
  have htally := Tokens.tally_update Pc.creating s.pc q hc
  rw [hp] at htally
  have hsame : tally Pc.creating (update s.pc c q) n = tally Pc.creating s.pc n := by omega
  rw [hmains, hpc, hsame, hhere, h.here]
  exact h.mains

theorem stack_same (h : Inv n s) (hp : s.pc c = p) (honStack : p.onStack = q.onStack) :
    s.stack = update s.stack c (if q.onStack then some c else none) := by
  rw [← honStack, ← hp, ← h.picked c, Function.update_eq_self]

theorem ready_same (h : Inv n s) (hp : s.pc c = p) (hready : p.ready = q.ready) :
    s.coreReady = update s.coreReady c q.ready := by
  rw [← hready, ← hp, ← h.ready c, Function.update_eq_self]

/-- Two places at which the same is counted and set up, as the core sees it. -/
structure Alike (p q : Pc) : Prop where
  counted : p.counted = q.counted
  arrived : p.arrived = q.arrived
  creating : p.creating = q.creating
  onStack : p.onStack = q.onStack
  ready : p.ready = q.ready

/-- A core goes on, and nothing else changes. -/
theorem goto (h : Inv n s) (hc : c < n) (hp : s.pc c = p) (hplaces : Places n (update s.pc c q))
    (hlike : Alike p q)
    (hflags : (update s.pc c q 0).published = (s.pc 0).published ∧
      (update s.pc c q 0).globalDone = (s.pc 0).globalDone ∧
      (update s.pc c q 0).systemDone = (s.pc 0).systemDone) : Inv n (s.goto c q) := by
  refine h.move hc hp hplaces rfl ?_ ?_ ?_ ?_ ?_ (h.mains_same hc hp rfl hlike.creating rfl rfl)
    (h.stack_same hp hlike.onStack) (h.ready_same hp hlike.ready)
  · rw [hflags.1]
    exact h.flag
  · rw [hflags.2.1]
    exact h.globals
  · rw [hflags.2.2]
    exact h.system
  · rw [hlike.counted]
    rfl
  · rw [hlike.arrived]
    rfl

/-! ## The steps of the other cores -/

/-- The first core is where it was. -/
theorem first_same (hpos : 0 < c) (pc : Nat → Pc) (q : Pc) : update pc c q 0 = pc 0 :=
  Function.update_of_ne (by omega) _ _

/-- Behind `howManyAreHere`, whether the core is the last or not. -/
theorem last_counted (hq : q = .create ∨ q = .idle) :
    q.counted = 1 ∧ q.arrived = 1 ∧ q.onStack = true ∧ q.ready = true := by
  rcases hq with rfl | rfl
  · exact ⟨rfl, rfl, rfl, rfl⟩
  · exact ⟨rfl, rfl, rfl, rfl⟩

/-- Counting oneself in, and creating the thread if one is the last. -/
theorem mains_arrive (h : Inv n s) (hc : c < n) (hp : s.pc c = .arrive)
    (hpc : t.pc = update s.pc c (if s.howManyAreHere + 1 = n then .create else .idle))
    (hhere : t.howManyAreHere = s.howManyAreHere + 1) (hmains : t.mains = s.mains) :
    t.mains + tally Pc.creating t.pc n = if t.howManyAreHere = n then 1 else 0 := by
  have hlt : tally Pc.arrived s.pc n < n := tally_lt arrived_le hc (by rw [hp]; rfl)
  have hold := h.mains
  rw [if_neg (by omega)] at hold
  have htally := Tokens.tally_update Pc.creating s.pc (if s.howManyAreHere + 1 = n then .create else .idle) hc
  rw [hp, ← hpc] at htally
  have hzero : Pc.creating .arrive = 0 := rfl
  rw [hhere, hmains]
  by_cases hlast : s.howManyAreHere + 1 = n
  · rw [if_pos hlast] at htally ⊢
    have hone : Pc.creating .create = 1 := rfl
    omega
  · rw [if_neg hlast] at htally ⊢
    have hidle : Pc.creating .idle = 0 := rfl
    omega

theorem mains_create (h : Inv n s) (hc : c < n) (hp : s.pc c = .create) (hpc : t.pc = update s.pc c .idle)
    (hhere : t.howManyAreHere = s.howManyAreHere) (hmains : t.mains = s.mains + 1) :
    t.mains + tally Pc.creating t.pc n = if t.howManyAreHere = n then 1 else 0 := by
  have hold := h.mains
  have htally := Tokens.tally_update Pc.creating s.pc .idle hc
  rw [hp, ← hpc] at htally
  have hone : Pc.creating .create = 1 := rfl
  have hidle : Pc.creating .idle = 0 := rfl
  rw [hhere, hmains, h.here, ← hold]
  omega

/-- **Counting oneself in**, for every core. -/
theorem arrive (h : Inv n s) (hc : c < n) (hp : s.pc c = .arrive)
    (hplaces : ∀ q, (q = .create ∨ q = .idle) → Places n (update s.pc c q) ∧
      (update s.pc c q 0).published = (s.pc 0).published ∧
      (update s.pc c q 0).globalDone = (s.pc 0).globalDone ∧
      (update s.pc c q 0).systemDone = (s.pc 0).systemDone)
    (hstep : step ids n c s = some t) : Inv n t := by
  rw [step, hp] at hstep
  obtain rfl := Option.some.inj hstep
  have hq : (if s.howManyAreHere + 1 = n then Pc.create else .idle) = .create ∨
      (if s.howManyAreHere + 1 = n then Pc.create else .idle) = .idle := by
    by_cases hlast : s.howManyAreHere + 1 = n
    · exact Or.inl (if_pos hlast)
    · exact Or.inr (if_neg hlast)
  obtain ⟨hcounted, harrived, honStack, hready⟩ := last_counted hq
  obtain ⟨hplaces, hflag, hglobals, hsystem⟩ := hplaces _ hq
  refine h.move hc hp hplaces rfl (h.flag.trans hflag.symm) (h.globals.trans hglobals.symm)
    (h.system.trans hsystem.symm) ?_ ?_ (h.mains_arrive hc hp rfl rfl rfl) (h.stack_same hp honStack.symm)
    (h.ready_same hp hready.symm)
  · rw [hcounted]
    rfl
  · rw [harrived]
    rfl

/-- **A step of another core** keeps the invariant. -/
theorem step_other (h : Inv n s) (hn : 0 < n) (hpos : 0 < c) (hstep : step ids n c s = some t) : Inv n t := by
  by_cases hhalted : s.pc c = .halted
  · rw [step, hhalted] at hstep
    cases hstep
  have hlt := h.places.lt_started hhalted
  have hc : c < n := by
    have := h.places.started_le hn
    omega
  obtain ⟨hglobalDone, hpublished, hsystemDone⟩ := h.places.done hpos hlt
  have hsame : ∀ q, update s.pc c q 0 = s.pc 0 := first_same hpos s.pc
  have hflags : ∀ q, (update s.pc c q 0).published = (s.pc 0).published ∧
      (update s.pc c q 0).globalDone = (s.pc 0).globalDone ∧
      (update s.pc c q 0).systemDone = (s.pc 0).systemDone := fun q => by
    rw [hsame]
    exact ⟨rfl, rfl, rfl⟩
  have hflag : ∀ q, s.smpInitDone = (update s.pc c q 0).published := fun q => by
    rw [hsame]
    exact h.flag
  have hglobals : ∀ q, s.globalReady = (update s.pc c q 0).globalDone := fun q => by
    rw [hsame]
    exact h.globals
  have hsystem : ∀ q, s.systemReady = (update s.pc c q 0).systemDone := fun q => by
    rw [hsame]
    exact h.system
  have hother := h.places.others c hpos hlt
  have hmove : ∀ {p : Pc} (q : Pc), s.pc c = p → q.Other → p.counted ≤ q.counted →
      Places n (update s.pc c q) := by
    rintro p q rfl hq hle
    exact h.places.move_other hpos hhalted hq hle
  cases hp : s.pc c with
  | halted => exact absurd hp hhalted
  | pick =>
    rw [step, hp] at hstep
    simp only at hstep
    rw [h.flag, hpublished, if_pos rfl] at hstep
    by_cases hcpu : c < maxProcs
    · rw [if_pos hcpu] at hstep
      obtain rfl := Option.some.inj hstep
      exact h.move hc hp (hmove .test hp trivial (Nat.le_refl _)) rfl (hflag _) (hglobals _) (hsystem _) rfl rfl
        (h.mains_same hc hp rfl rfl rfl rfl) rfl (h.ready_same hp rfl)
    · rw [if_neg hcpu] at hstep
      cases hstep
  | test =>
    have hq : (if s.smpInitDone = true then Pc.count else .globalInit) = .count := by
      rw [h.flag, hpublished, if_pos rfl]
    rw [step, hp, hq] at hstep
    obtain rfl := Option.some.inj hstep
    exact h.goto hc hp (hmove .count hp trivial (Nat.le_refl _)) ⟨rfl, rfl, rfl, rfl, rfl⟩ (hflags _)
  | globalInit | publish | system | countFirst | next _ | reset _ | start _ | wait _ =>
    rw [hp] at hother
    exact hother.elim
  | count =>
    rw [step, hp] at hstep
    obtain rfl := Option.some.inj hstep
    exact h.move hc hp (hmove .localInit hp trivial (Nat.zero_le _)) rfl (hflag _) (hglobals _) (hsystem _)
      rfl rfl (h.mains_same hc hp rfl rfl rfl rfl) (h.stack_same hp rfl) (h.ready_same hp rfl)
  | localInit =>
    rw [step, hp] at hstep
    obtain rfl := Option.some.inj hstep
    exact h.goto hc hp (hmove .perCore hp trivial (Nat.le_refl _)) ⟨rfl, rfl, rfl, rfl, rfl⟩ (hflags _)
  | perCore =>
    rw [step, hp] at hstep
    obtain rfl := Option.some.inj hstep
    exact h.goto hc hp (hmove .pit hp trivial (Nat.le_refl _)) ⟨rfl, rfl, rfl, rfl, rfl⟩ (hflags _)
  | pit =>
    rw [step, hp] at hstep
    simp only at hstep
    rw [h.system, hsystemDone, if_pos rfl] at hstep
    obtain rfl := Option.some.inj hstep
    exact h.goto hc hp (hmove .segments hp trivial (Nat.le_refl _)) ⟨rfl, rfl, rfl, rfl, rfl⟩ (hflags _)
  | segments =>
    rw [step, hp] at hstep
    simp only at hstep
    by_cases hcpu : c < maxProcs
    · rw [if_pos hcpu] at hstep
      obtain rfl := Option.some.inj hstep
      exact h.move hc hp (hmove .arrive hp trivial (Nat.le_refl _)) rfl (hflag _) (hglobals _) (hsystem _)
        rfl rfl (h.mains_same hc hp rfl rfl rfl rfl) (h.stack_same hp rfl) rfl
    · rw [if_neg hcpu] at hstep
      cases hstep
  | arrive =>
    refine h.arrive hc hp (fun q hq => ?_) hstep
    rcases hq with rfl | rfl
    · exact ⟨hmove .create hp trivial (Nat.le_refl _), hflags _⟩
    · exact ⟨hmove .idle hp trivial (Nat.le_refl _), hflags _⟩
  | create =>
    rw [step, hp] at hstep
    obtain rfl := Option.some.inj hstep
    exact h.move hc hp (hmove .idle hp trivial (Nat.le_refl _)) rfl (hflag _) (hglobals _) (hsystem _)
      rfl rfl (h.mains_create hc hp rfl rfl rfl) (h.stack_same hp rfl) (h.ready_same hp rfl)
  | idle =>
    rw [step, hp] at hstep
    cases hstep

/-! ## The steps of the first core -/

/-- The core that is to be started is still halted. -/
theorem halted_of_start {id : Nat} (h : Inv n s) (hp : s.pc 0 = .reset id ∨ s.pc 0 = .start id) :
    s.pc id = .halted ∧ 1 ≤ id ∧ id < n := by
  have hfirst := h.places.first
  have hhalted := h.places.halted id
  rcases hp with hp | hp
  · rw [hp] at hfirst hhalted
    exact ⟨hhalted (Nat.le_refl _), hfirst⟩
  · rw [hp] at hfirst hhalted
    exact ⟨hhalted (Nat.le_refl _), hfirst⟩

/-- **The waiting loop** goes on only when the core that was started is counted. -/
theorem counted_of_running {id : Nat} (h : Inv n s) (hp : s.pc 0 = .wait id) (hrunning : id < s.running) :
    (s.pc id).counted = 1 := by
  have hfirst := h.places.first
  have hhalted := h.places.halted
  rw [hp] at hfirst hhalted
  obtain ⟨_, hid⟩ := hfirst
  have hall : tally Pc.counted s.pc n = tally Pc.counted s.pc (id + 1) := tally_halted rfl hhalted (by omega)
  have hle := counted_le (s.pc id)
  by_contra hne
  have hlt : tally Pc.counted s.pc (id + 1) < id + 1 :=
    tally_lt counted_le (Nat.lt_succ_self id) (by omega)
  have := h.running
  omega

/-- Before the first core has started another, no core is counted. -/
theorem tally_alone {w : Pc → Nat} (h : Inv n s) (hn : 0 < n) (hw : w .halted = 0)
    (hstarted : (s.pc 0).started n = 1) (hzero : w (s.pc 0) = 0) : tally w s.pc n = 0 := by
  have hhalted := h.places.halted
  rw [hstarted] at hhalted
  rw [tally_halted hw hhalted hn]
  show tally w s.pc 0 + w (s.pc 0) = 0
  rw [hzero]
  rfl

/-- The startup interrupt: the core that waits for it is on its way, and the first core waits in turn. -/
theorem start_core {id : Nat} (h : Inv n s) (hp : s.pc 0 = .start id) :
    Inv n ((s.goto id .pick).goto 0 (.wait id)) := by
  obtain ⟨hid, hpos, hlt⟩ := h.halted_of_start (Or.inr hp)
  have hne : id ≠ 0 := by omega
  have h0 : update (update s.pc id .pick) 0 (.wait id) 0 = .wait id := Function.update_self _ _ _
  -- what is the same at the places that the two cores leave and come to is the same for every core
  have hsame : ∀ {α : Type} (w : Pc → α), w .halted = w .pick → w (.start id) = w (.wait id) →
      ∀ d, w (update (update s.pc id .pick) 0 (.wait id) d) = w (s.pc d) := by
    intro α w hw hw' d
    by_cases hd0 : d = 0
    · rw [hd0, h0, hp, hw']
    · rw [Function.update_of_ne hd0]
      by_cases hdi : d = id
      · rw [hdi, Function.update_self, hid, hw]
      · rw [Function.update_of_ne hdi]
  have htally : ∀ w : Pc → Nat, w .halted = w .pick → w (.start id) = w (.wait id) →
      tally w (update (update s.pc id .pick) 0 (.wait id)) n = tally w s.pc n := by
    intro w hw hw'
    have h₁ := Tokens.tally_update w s.pc .pick hlt
    have h₂ := Tokens.tally_update w (update s.pc id .pick) (.wait id) (show 0 < n by omega)
    rw [Function.update_of_ne (by omega), hp] at h₂
    rw [hid] at h₁
    omega
  constructor
  · exact h.places.start_core hp
  · show s.smpInitDone = Pc.published (update (update s.pc id .pick) 0 (.wait id) 0)
    rw [hsame Pc.published rfl rfl]
    exact h.flag
  · show s.globalReady = Pc.globalDone (update (update s.pc id .pick) 0 (.wait id) 0)
    rw [hsame Pc.globalDone rfl rfl]
    exact h.globals
  · show s.systemReady = Pc.systemDone (update (update s.pc id .pick) 0 (.wait id) 0)
    rw [hsame Pc.systemDone rfl rfl]
    exact h.system
  · show s.running = tally Pc.counted (update (update s.pc id .pick) 0 (.wait id)) n
    rw [htally _ rfl rfl]
    exact h.running
  · show s.howManyAreHere = tally Pc.arrived (update (update s.pc id .pick) 0 (.wait id)) n
    rw [htally _ rfl rfl]
    exact h.here
  · show s.mains + tally Pc.creating (update (update s.pc id .pick) 0 (.wait id)) n =
      if tally Pc.arrived (update (update s.pc id .pick) 0 (.wait id)) n = n then 1 else 0
    rw [htally _ rfl rfl, htally _ rfl rfl]
    exact h.mains
  · intro d
    show s.stack d = if Pc.onStack (update (update s.pc id .pick) 0 (.wait id) d) = true then some d else none
    rw [hsame Pc.onStack rfl rfl]
    exact h.picked d
  · intro d
    show s.coreReady d = Pc.ready (update (update s.pc id .pick) 0 (.wait id) d)
    rw [hsame Pc.ready rfl rfl]
    exact h.ready d

/-- **A step of the first core** keeps the invariant. -/
theorem step_first (h : Inv n s) (hn : 0 < n) (hids : ∀ c, c < n → ids c = true)
    (hstep : step ids n 0 s = some t) : Inv n t := by
  have hfirst := h.places.first
  have hahead := h.places.ahead
  have hat : ∀ q, update s.pc 0 q 0 = q := fun q => Function.update_self _ _ _
  have hflag : ∀ {p q : Pc}, s.pc 0 = p → p.published = q.published →
      s.smpInitDone = (update s.pc 0 q 0).published := by
    rintro p q rfl hq
    rw [hat, h.flag, hq]
  have hglobals : ∀ {p q : Pc}, s.pc 0 = p → p.globalDone = q.globalDone →
      s.globalReady = (update s.pc 0 q 0).globalDone := by
    rintro p q rfl hq
    rw [hat, h.globals, hq]
  have hsystem : ∀ {p q : Pc}, s.pc 0 = p → p.systemDone = q.systemDone →
      s.systemReady = (update s.pc 0 q 0).systemDone := by
    rintro p q rfl hq
    rw [hat, h.system, hq]
  have hflags : ∀ {p q : Pc}, s.pc 0 = p → q.published = p.published → q.globalDone = p.globalDone →
      q.systemDone = p.systemDone → (update s.pc 0 q 0).published = (s.pc 0).published ∧
        (update s.pc 0 q 0).globalDone = (s.pc 0).globalDone ∧
        (update s.pc 0 q 0).systemDone = (s.pc 0).systemDone := by
    rintro p q rfl hpublished hglobalDone hsystemDone
    rw [hat]
    exact ⟨hpublished, hglobalDone, hsystemDone⟩
  -- a step that starts nobody, and waits for nobody
  have hmove : ∀ {p : Pc} (q : Pc), s.pc 0 = p → q.First n → q.started n = p.started n →
      q.waited n = p.waited n → (0 < q.waited n → q.counted = 1) → Places n (update s.pc 0 q) := by
    rintro p q rfl hq hstarted hwaited hone
    have := h.places.started_le hn
    exact h.places.move_first hq hstarted (by omega) hone fun d _ hd => hahead d (by omega)
  cases hp : s.pc 0 with
  | halted | count | localInit =>
    rw [hp] at hfirst
    exact hfirst.elim
  | pick =>
    rw [step, hp] at hstep
    simp only at hstep
    rw [ite_self, if_pos (by decide)] at hstep
    obtain rfl := Option.some.inj hstep
    exact h.move hn hp (hmove .test hp trivial rfl rfl (fun hpos => absurd hpos (Nat.lt_irrefl 0))) rfl
      (hflag hp rfl) (hglobals hp rfl) (hsystem hp rfl) rfl rfl (h.mains_same hn hp rfl rfl rfl rfl) rfl
      (h.ready_same hp rfl)
  | test =>
    have hq : (if s.smpInitDone = true then Pc.count else .globalInit) = .globalInit := by
      rw [h.flag, hp]
      rfl
    rw [step, hp] at hstep
    simp only at hstep
    rw [hq] at hstep
    obtain rfl := Option.some.inj hstep
    exact h.goto hn hp (hmove .globalInit hp trivial rfl rfl (fun hpos => absurd hpos (Nat.lt_irrefl 0)))
      ⟨rfl, rfl, rfl, rfl, rfl⟩ (hflags hp rfl rfl rfl)
  | globalInit =>
    have hrunning : s.running = 0 := by
      rw [h.running]
      exact h.tally_alone hn rfl (by rw [hp]; rfl) (by rw [hp]; rfl)
    have hhere : s.howManyAreHere = 0 := by
      rw [h.here]
      exact h.tally_alone hn rfl (by rw [hp]; rfl) (by rw [hp]; rfl)
    rw [step, hp] at hstep
    obtain rfl := Option.some.inj hstep
    refine h.move hn hp (hmove .publish hp trivial rfl rfl (fun hpos => absurd hpos (Nat.lt_irrefl 0))) rfl
      (hflag hp rfl) ?_ (hsystem hp rfl) ?_ ?_ (h.mains_same hn hp rfl rfl hhere.symm rfl)
      (h.stack_same hp rfl) (h.ready_same hp rfl)
    · rw [hat]
      rfl
    · rw [hrunning]
      rfl
    · rw [hhere]
      rfl
  | publish =>
    rw [step, hp] at hstep
    obtain rfl := Option.some.inj hstep
    refine h.move hn hp (hmove .system hp trivial rfl rfl (fun hpos => absurd hpos (Nat.lt_irrefl 0))) rfl
      ?_ (hglobals hp rfl) (hsystem hp rfl) rfl rfl (h.mains_same hn hp rfl rfl rfl rfl)
      (h.stack_same hp rfl) (h.ready_same hp rfl)
    rw [hat]
    rfl
  | system =>
    rw [step, hp] at hstep
    obtain rfl := Option.some.inj hstep
    refine h.move hn hp (hmove .countFirst hp trivial rfl rfl (fun hpos => absurd hpos (Nat.lt_irrefl 0))) rfl
      (hflag hp rfl) (hglobals hp rfl) ?_ rfl rfl (h.mains_same hn hp rfl rfl rfl rfl)
      (h.stack_same hp rfl) (h.ready_same hp rfl)
    rw [hat]
    rfl
  | countFirst =>
    rw [step, hp] at hstep
    obtain rfl := Option.some.inj hstep
    have hplaces : Places n (update s.pc 0 (.next 1)) := by
      refine h.places.move_first ⟨Nat.le_refl 1, hn⟩ (by rw [hp]; rfl) Nat.one_pos (fun _ => rfl) ?_
      intro d hd hd1
      have hd1' : d < 1 := hd1
      omega
    exact h.move hn hp hplaces rfl (hflag hp rfl) (hglobals hp rfl) (hsystem hp rfl) rfl rfl
      (h.mains_same hn hp rfl rfl rfl rfl) (h.stack_same hp rfl) (h.ready_same hp rfl)
  | next id =>
    rw [step, hp] at hstep
    obtain rfl := Option.some.inj hstep
    rw [hp] at hfirst
    obtain ⟨hpos, hle⟩ := hfirst
    by_cases hlt : id < n
    · rw [if_pos hlt]
      exact h.goto hn hp (hmove (.reset id) hp ⟨hpos, hlt⟩ rfl rfl (fun _ => rfl))
        ⟨rfl, rfl, rfl, rfl, rfl⟩ (hflags hp rfl rfl rfl)
    · obtain rfl : id = n := by omega
      rw [if_neg hlt]
      exact h.goto hn hp (hmove .perCore hp trivial rfl rfl (fun _ => rfl))
        ⟨rfl, rfl, rfl, rfl, rfl⟩ (hflags hp rfl rfl rfl)
  | reset id =>
    obtain ⟨hid, hpos, hlt⟩ := h.halted_of_start (Or.inl hp)
    have hsame : s.goto id .halted = s := by rw [Cores.goto, ← hid, Function.update_eq_self]
    rw [step, hp] at hstep
    simp only at hstep
    rw [hsame] at hstep
    obtain rfl := Option.some.inj hstep
    exact h.goto hn hp (hmove (.start id) hp ⟨hpos, hlt⟩ rfl rfl (fun _ => rfl))
      ⟨rfl, rfl, rfl, rfl, rfl⟩ (hflags hp rfl rfl rfl)
  | start id =>
    obtain ⟨hid, _, hlt⟩ := h.halted_of_start (Or.inr hp)
    rw [step, hp] at hstep
    simp only at hstep
    rw [if_pos ⟨hids id hlt, hid⟩] at hstep
    obtain rfl := Option.some.inj hstep
    exact h.start_core hp
  | wait id =>
    rw [step, hp] at hstep
    obtain rfl := Option.some.inj hstep
    by_cases hle : s.running ≤ id
    · rw [if_pos hle]
      exact h
    · have hcounted := h.counted_of_running hp (by omega)
      rw [hp] at hfirst hahead
      obtain ⟨hpos, hlt⟩ := hfirst
      rw [if_neg hle]
      have hplaces : Places n (update s.pc 0 (.next (id + 1))) := by
        refine h.places.move_first ⟨by omega, by omega⟩ (by rw [hp]; rfl) (Nat.succ_pos id) (fun _ => rfl) ?_
        intro d hd hdid
        rcases Nat.lt_succ_iff_lt_or_eq.1 hdid with hlt' | rfl
        · exact hahead d hlt'
        · exact hcounted
      exact h.goto hn hp hplaces ⟨rfl, rfl, rfl, rfl, rfl⟩
        (hflags hp rfl rfl rfl)
  | perCore =>
    rw [step, hp] at hstep
    obtain rfl := Option.some.inj hstep
    exact h.goto hn hp (hmove .pit hp trivial rfl rfl (fun _ => rfl))
      ⟨rfl, rfl, rfl, rfl, rfl⟩ (hflags hp rfl rfl rfl)
  | pit =>
    have hready : s.systemReady = true := h.system.trans (by rw [hp]; rfl)
    rw [step, hp] at hstep
    simp only at hstep
    rw [if_pos hready] at hstep
    obtain rfl := Option.some.inj hstep
    exact h.goto hn hp (hmove .segments hp trivial rfl rfl (fun _ => rfl))
      ⟨rfl, rfl, rfl, rfl, rfl⟩ (hflags hp rfl rfl rfl)
  | segments =>
    rw [step, hp] at hstep
    simp only at hstep
    rw [if_pos (by decide)] at hstep
    obtain rfl := Option.some.inj hstep
    exact h.move hn hp (hmove .arrive hp trivial rfl rfl (fun _ => rfl)) rfl (hflag hp rfl) (hglobals hp rfl)
      (hsystem hp rfl) rfl rfl (h.mains_same hn hp rfl rfl rfl rfl) (h.stack_same hp rfl) rfl
  | arrive =>
    refine h.arrive hn hp (fun q hq => ?_) hstep
    rcases hq with rfl | rfl
    · exact ⟨hmove .create hp trivial rfl rfl (fun _ => rfl), hflags hp rfl rfl rfl⟩
    · exact ⟨hmove .idle hp trivial rfl rfl (fun _ => rfl), hflags hp rfl rfl rfl⟩
  | create =>
    rw [step, hp] at hstep
    obtain rfl := Option.some.inj hstep
    exact h.move hn hp (hmove .idle hp trivial rfl rfl (fun _ => rfl)) rfl (hflag hp rfl) (hglobals hp rfl)
      (hsystem hp rfl) rfl rfl (h.mains_create hn hp rfl rfl rfl) (h.stack_same hp rfl) (h.ready_same hp rfl)
  | idle =>
    rw [step, hp] at hstep
    cases hstep

/-- **Every step** keeps the invariant. -/
theorem step_inv (h : Inv n s) (hn : 0 < n) (hids : ∀ c, c < n → ids c = true)
    (hstep : step ids n c s = some t) : Inv n t := by
  rcases Nat.eq_zero_or_pos c with rfl | hpos
  · exact h.step_first hn hids hstep
  · exact h.step_other hn hpos hstep

end Inv

/-- It holds when the firmware has started the first core. -/
theorem inv_start (hn : 0 < n) : Inv n start := by
  have hzero : ∀ w : Pc → Nat, w .pick = 0 → w .halted = 0 → tally w start.pc n = 0 := by
    intro w hpick hhalted
    refine Tokens.tally_eq_zero fun c _ => ?_
    show w (if c = 0 then .pick else .halted) = 0
    by_cases hc : c = 0
    · rw [if_pos hc, hpick]
    · rw [if_neg hc, hhalted]
  constructor
  · constructor
    · trivial
    · intro c hpos hlt
      have hlt' : c < 1 := hlt
      omega
    · intro c hle
      exact if_neg (show ¬ c = 0 from Nat.ne_of_gt hle)
    · intro c hlt
      exact absurd hlt (Nat.not_lt_zero c)
  · rfl
  · rfl
  · rfl
  · rw [hzero _ rfl rfl]
    rfl
  · rw [hzero _ rfl rfl]
    rfl
  · rw [hzero _ rfl rfl, hzero _ rfl rfl, if_neg (by omega)]
    rfl
  · intro c
    by_cases hc : c = 0
    · rw [hc]
      rfl
    · rw [show start.pc c = .halted from if_neg hc]
      rfl
  · intro c
    by_cases hc : c = 0
    · rw [hc]
      rfl
    · rw [show start.pc c = .halted from if_neg hc]
      rfl

theorem Reached.inv (hn : 0 < n) (hids : ∀ c, c < n → ids c = true) (h : Reached ids n s) : Inv n s := by
  refine Runs.Reached.invariant ?_ ?_ h
  · rintro s rfl
    exact inv_start hn
  · intro s c t _ hinv hstep
    exact hinv.step_inv hn hids hstep

end BadApple.Smp
