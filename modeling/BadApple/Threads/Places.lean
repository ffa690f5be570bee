/-
  Where the TCBs are (kernel/threads.h, kernel/threads.cc, kernel/semaphore.h, kernel/queue.h).

  1. **Places** — on a core (running, in its help request, on its sleep queue, or in the hands of its
     helper), on the ready queue, on the queue of a semaphore, on the reaper queue, or in the hands of a
     routine that a thread is in the middle of.
  2. **Steps** — every step moves some TCBs from one place to one other, creates one, or deletes one
     (`runFrame_moved`, `runHelper_moved`).  Nothing is overwritten on the way: a request is posted when
     there is none, and a thread becomes active when no thread is (`CoreOk`).
-/
import Mathlib.Tactic.ByContra
import BadApple.Lib.Moves
import BadApple.Threads.Model

namespace BadApple

open Function (update)

open Moves (At Move)

namespace Threads

/-! ## Places -/

/-- What a core can have a TCB for. -/
inductive Spot where
  | active
  | request
  | sleeping
  | helper
deriving DecidableEq, Repr

/-- Where a TCB can be. -/
inductive Place where
  | core (c : Nat) (s : Spot)
  | ready
  | waiting (s : Nat)
  | reaper
  | thread (t : Nat)
deriving DecidableEq, Repr

/-- The TCBs that a routine has in its hands. -/
def Frame.held : Frame → List Nat
  | .ready u | .reaperAdd u | .delete u => [u]
  | .reaping us => us
  | .recheck _ t | .sleepAdd t _ => [t]
  | _ => []

/-- The TCBs that some routines have in their hands. -/
def heldIn (fs : List Frame) : List Nat := fs.flatMap Frame.held

/-- The TCB in the hands of `block`, or of the loop of the helper. -/
def HelperPhase.held : HelperPhase → List Nat
  | .blocking t _ => [t]
  | .dispatch u => [u]
  | _ => []

/-- The TCBs on a core. -/
def Core.tcbs (x : Core) : Spot → List Nat
  | .active => x.active.toList
  | .request => x.request.toList.map Prod.fst
  | .sleeping => x.sleeping
  | .helper => x.phase.held ++ heldIn x.todo

/-- The TCBs at a place. -/
def Kernel.tcbsAt (k : Kernel) : Place → List Nat
  | .core c s => (k.cores c).tcbs s
  | .ready => k.ready
  | .waiting s => (k.sems s).waiting
  | .reaper => k.reaper
  | .thread t => heldIn (k.frames t)

theorem insertSleep_perm (atJiffies : Nat → Nat) (t : Nat) (l : List Nat) :
    (insertSleep atJiffies t l).Perm (t :: l) := by
  induction l with
  | nil => rfl
  | cons p rest ih =>
    rw [insertSleep]
    by_cases hp : atJiffies p ≤ atJiffies t
    · rw [if_pos hp]
      exact (ih.cons p).trans (List.Perm.swap t p rest)
    · rw [if_neg hp]

theorem removeSleep_eq {atJiffies : Nat → Nat} {jiffies : Nat} {l : List Nat} {pr : Nat × List Nat}
    (h : removeSleep atJiffies jiffies l = some pr) : l = pr.1 :: pr.2 := by
  cases l with
  | nil => cases h
  | cons p rest =>
    rw [removeSleep] at h
    by_cases hp : jiffies < atJiffies p
    · rw [if_pos hp] at h
      cases h
    · rw [if_neg hp] at h
      obtain rfl := Option.some.inj h
      rfl

/-- The places of a machine with `n` cores and `nSems` semaphores. -/
def Place.Real (n nSems : Nat) : Place → Prop
  | .core c _ => c < n
  | .waiting s => s < nSems
  | _ => True

theorem heldIn_cons (f : Frame) (fs : List Frame) : heldIn (f :: fs) = f.held ++ heldIn fs := rfl

/-! ## Who runs a routine -/

/-- Where the TCBs in the hands of a party are. -/
def Party.place : Party → Place
  | .thread _ t => .thread t
  | .helper c => .core c .helper

theorem Party.place_ne_ready (who : Party) : .ready ≠ who.place := by
  cases who <;> simp [Party.place]

theorem Party.place_ne_reaper (who : Party) : .reaper ≠ who.place := by
  cases who <;> simp [Party.place]

theorem Party.place_ne_waiting (who : Party) (s : Nat) : .waiting s ≠ who.place := by
  cases who <;> simp [Party.place]

namespace Kernel

variable {k k' : Kernel} {who : Party} {keep : Bool} {f : Frame} {fs rest : List Frame}

/-- What a party has to do. -/
def framesOf (k : Kernel) : Party → List Frame
  | .thread _ t => k.frames t
  | .helper c => (k.cores c).todo

/-- The TCBs in the hands of a party besides those of its routines. -/
def heldBeside (k : Kernel) : Party → List Nat
  | .thread _ _ => []
  | .helper c => (k.cores c).phase.held

theorem tcbsAt_place (k : Kernel) (who : Party) :
    k.tcbsAt who.place = k.heldBeside who ++ heldIn (k.framesOf who) := by
  cases who <;> rfl

theorem tcbsAt_setFrames_place (k : Kernel) (fs : List Frame) (who : Party) :
    (k.setFrames fs who).tcbsAt who.place = k.heldBeside who ++ heldIn fs := by
  cases who with
  | thread c t =>
    show heldIn (update k.frames t fs t) = heldIn fs
    rw [Function.update_self]
  | helper c =>
    show (update k.cores c { k.cores c with todo := fs } c).tcbs .helper = _
    rw [Function.update_self]
    rfl

theorem tcbsAt_setCore_self (k : Kernel) (c : Nat) (x : Core) (s : Spot) :
    (k.setCore c x).tcbsAt (.core c s) = x.tcbs s := by
  show (update k.cores c x c).tcbs s = x.tcbs s
  rw [Function.update_self]

/-- A change of one core changes no other place. -/
theorem tcbsAt_setCore_of_ne {c : Nat} {x : Core} {r : Place}
    (h : ∀ s, r = .core c s → x.tcbs s = (k.cores c).tcbs s) :
    (k.setCore c x).tcbsAt r = k.tcbsAt r := by
  cases r with
  | core c' s =>
    by_cases hc : c' = c
    · rw [hc, tcbsAt_setCore_self]
      exact h s (by rw [hc])
    · show (update k.cores c x c').tcbs s = (k.cores c').tcbs s
      rw [Function.update_of_ne hc]
  | ready => rfl
  | waiting s => rfl
  | reaper => rfl
  | thread t => rfl

theorem tcbsAt_ready_of_ne (l : List Nat) :
    ∀ r, r ≠ .ready → { k with ready := l }.tcbsAt r = k.tcbsAt r := by
  intro r hr
  cases r with
  | ready => exact absurd rfl hr
  | _ => rfl

theorem tcbsAt_reaper_of_ne (l : List Nat) :
    ∀ r, r ≠ .reaper → { k with reaper := l }.tcbsAt r = k.tcbsAt r := by
  intro r hr
  cases r with
  | reaper => exact absurd rfl hr
  | _ => rfl

theorem tcbsAt_setSem_self (k : Kernel) (s : Nat) (x : Semaphore) :
    (k.setSem s x).tcbsAt (.waiting s) = x.waiting := by
  show (update k.sems s x s).waiting = x.waiting
  rw [Function.update_self]

theorem tcbsAt_setSem_of_ne (s : Nat) (x : Semaphore) :
    ∀ r, r ≠ .waiting s → (k.setSem s x).tcbsAt r = k.tcbsAt r := by
  intro r hr
  cases r with
  | waiting s' =>
    show (update k.sems s x s').waiting = (k.sems s').waiting
    rw [Function.update_of_ne fun h => hr (by rw [h])]
  | _ => rfl

/-- A change of a semaphore's count moves nothing. -/
theorem tcbsAt_setSem_same (s : Nat) {x : Semaphore} (h : x.waiting = (k.sems s).waiting) :
    (k.setSem s x).tcbsAt = k.tcbsAt := by
  funext r
  by_cases hr : r = .waiting s
  · rw [hr, tcbsAt_setSem_self, h]
    rfl
  · exact tcbsAt_setSem_of_ne s x r hr

theorem tcbsAt_setFrames_of_ne (k : Kernel) (fs : List Frame) {r : Place} (hr : r ≠ who.place) :
    (k.setFrames fs who).tcbsAt r = k.tcbsAt r := by
  cases who with
  | thread c t =>
    cases r with
    | thread t' =>
      show heldIn (update k.frames t fs t') = heldIn (k.frames t')
      rw [Function.update_of_ne fun h => hr (by rw [h]; rfl)]
    | core c' s => rfl
    | ready => rfl
    | waiting s => rfl
    | reaper => rfl
  | helper c =>
    apply tcbsAt_setCore_of_ne
    intro s hs
    cases s with
    | helper => exact absurd hs hr
    | active => rfl
    | request => rfl
    | sleeping => rfl

/-! ## Steps move TCBs -/

/-- What a step does to the TCBs: it moves some from one place to another, creates one, or deletes one. -/
inductive Moved (n : Nat) (k k' : Kernel) : Prop
  | inside {l : List Nat} {p q : Place} (hpq : p ≠ q) (hm : Move l (some p) (some q) k.tcbsAt k'.tcbsAt)
      (hreal : q.Real n k.nSems) (hsems : k'.nSems = k.nSems) (halive : k'.alive = k.alive)
      (hcreated : k'.created = k.created)
  | created {q : Place} (hm : Move [k.created] none (some q) k.tcbsAt k'.tcbsAt)
      (hreal : q.Real n k.nSems) (hsems : k'.nSems = k.nSems)
      (halive : k'.alive = update k.alive k.created true) (hcreated : k'.created = k.created + 1)
  | deleted {u : Nat} {p : Place} (hm : Move [u] (some p) none k.tcbsAt k'.tcbsAt)
      (hdel : ∃ who, .delete u ∈ k.framesOf who) (hsems : k'.nSems = k.nSems)
      (halive : k'.alive = update k.alive u false) (hcreated : k'.created = k.created)

/-- A step that moves nothing. -/
theorem Moved.still {n : Nat} (h : k'.tcbsAt = k.tcbsAt) (hsems : k'.nSems = k.nSems)
    (halive : k'.alive = k.alive) (hcreated : k'.created = k.created) : Moved n k k' := by
  refine .inside (l := []) (p := .ready) (q := .reaper) (by simp) ?_ trivial hsems halive hcreated
  rw [h]
  exact Move.refl _

section Hands

variable {k₁ : Kernel} {l : List Nat} {q : Place}

/-- A change of one place, and of what a party has in its hands, is none of the others. -/
theorem tcbsAt_hands_of_ne (hne : ∀ r, r ≠ q → k₁.tcbsAt r = k.tcbsAt r) {r : Place} (hr : r ≠ who.place)
    (hrq : r ≠ q) : (k₁.setFrames fs who).tcbsAt r = k.tcbsAt r := by
  rw [tcbsAt_setFrames_of_ne _ _ hr, hne r hrq]

/-- **A party hands over TCBs.** -/
theorem move_out (hq : q ≠ who.place) (hheld : (heldIn (k.framesOf who)).Perm (l ++ heldIn fs))
    (hto : (k₁.tcbsAt q).Perm (l ++ k.tcbsAt q)) (hne : ∀ r, r ≠ q → k₁.tcbsAt r = k.tcbsAt r)
    (hcores : k₁.cores = k.cores) :
    Move l (some who.place) (some q) k.tcbsAt (k₁.setFrames fs who).tcbsAt := by
  have hbeside : k₁.heldBeside who = k.heldBeside who := by
    cases who with
    | thread c t => rfl
    | helper c => rw [heldBeside, heldBeside, hcores]
  refine Move.of_ends (Ne.symm hq) ?_ ?_ fun r hr hrq => tcbsAt_hands_of_ne hne hr hrq
  · rw [tcbsAt_setFrames_place, tcbsAt_place, hbeside]
    exact (hheld.append_left _).trans (List.perm_append_comm_assoc _ _ _)
  · rw [tcbsAt_setFrames_of_ne _ _ hq]
    exact hto

/-- **A party takes TCBs.** -/
theorem move_in (hq : q ≠ who.place) (hheld : (heldIn fs).Perm (l ++ heldIn (k.framesOf who)))
    (hfrom : (k.tcbsAt q).Perm (l ++ k₁.tcbsAt q)) (hne : ∀ r, r ≠ q → k₁.tcbsAt r = k.tcbsAt r)
    (hcores : k₁.cores = k.cores) :
    Move l (some q) (some who.place) k.tcbsAt (k₁.setFrames fs who).tcbsAt := by
  have hbeside : k₁.heldBeside who = k.heldBeside who := by
    cases who with
    | thread c t => rfl
    | helper c => rw [heldBeside, heldBeside, hcores]
  refine Move.of_ends hq ?_ ?_ fun r hrq hr => tcbsAt_hands_of_ne hne hr hrq
  · rw [tcbsAt_setFrames_of_ne _ _ hq]
    exact hfrom
  · rw [tcbsAt_setFrames_place, tcbsAt_place, hbeside]
    exact (hheld.append_left _).trans (List.perm_append_comm_assoc _ _ _)

/-- A party goes on with the same TCBs in its hands. -/
theorem tcbsAt_setFrames_same (hheld : heldIn fs = heldIn (k.framesOf who)) :
    (k.setFrames fs who).tcbsAt = k.tcbsAt := by
  funext r
  by_cases hr : r = who.place
  · rw [hr, tcbsAt_setFrames_place, tcbsAt_place, hheld]
  · exact tcbsAt_setFrames_of_ne _ _ hr

end Hands

/-- Some TCBs go from one spot of a core to another. -/
theorem move_core {l : List Nat} {c : Nat} {x : Core} {s s' : Spot} (hs : s ≠ s')
    (hfrom : ((k.cores c).tcbs s).Perm (l ++ x.tcbs s)) (hto : (x.tcbs s').Perm (l ++ (k.cores c).tcbs s'))
    (hne : ∀ r, r ≠ s → r ≠ s' → x.tcbs r = (k.cores c).tcbs r) :
    Move l (some (.core c s)) (some (.core c s')) k.tcbsAt (k.setCore c x).tcbsAt := by
  refine Move.of_ends (fun h => hs (Place.core.inj h).2) ?_ ?_ ?_
  · rw [tcbsAt_setCore_self]
    exact hfrom
  · rw [tcbsAt_setCore_self]
    exact hto
  · intro r hr hr'
    refine tcbsAt_setCore_of_ne fun s'' hs'' => hne s'' ?_ ?_
    · intro h
      exact hr (hs''.trans (by rw [h]))
    · intro h
      exact hr' (hs''.trans (by rw [h]))

end Kernel

/-! ## One step -/

/-- A core is in one thing at a time: a thread runs, or a thread is about to post its request, or a request
    is posted, or the helper is about to run a thread. -/
structure CoreOk (x : Core) : Prop where
  active : x.active ≠ none → x.phase = .top ∧ x.todo = [] ∧ x.request = none
  request : x.request ≠ none → x.phase = .top ∨ x.phase = .serve
  held : x.phase.held ≠ [] → x.todo = []

theorem CoreOk.request_none {x : Core} (h : CoreOk x) (htop : x.phase ≠ .top) (hserve : x.phase ≠ .serve) :
    x.request = none := by
  by_contra hreq
  rcases h.request hreq with htop' | hserve'
  · exact htop htop'
  · exact hserve hserve'

namespace Kernel

variable {n : Nat} {k k' : Kernel} {who : Party} {keep : Bool} {f : Frame} {fs rest : List Frame}

@[simp] theorem setFrames_alive : (k.setFrames fs who).alive = k.alive := by cases who <;> rfl

@[simp] theorem setSem_alive {s : Nat} {x : Semaphore} : (k.setSem s x).alive = k.alive := rfl

@[simp] theorem setSem_created {s : Nat} {x : Semaphore} : (k.setSem s x).created = k.created := rfl

@[simp] theorem setFrames_nSems : (k.setFrames fs who).nSems = k.nSems := by cases who <;> rfl

@[simp] theorem setSem_nSems {s : Nat} {x : Semaphore} : (k.setSem s x).nSems = k.nSems := rfl

@[simp] theorem setFrames_created : (k.setFrames fs who).created = k.created := by cases who <;> rfl

/-- A change of one core that moves nothing. -/
theorem setCore_still {c : Nat} {x : Core} (h : ∀ s, x.tcbs s = (k.cores c).tcbs s) :
    Moved n k (k.setCore c x) := by
  refine .still ?_ rfl rfl rfl
  funext r
  exact tcbsAt_setCore_of_ne fun s _ => h s

/-- The helper takes a thread from its sleep queue. -/
theorem wakeup_moved {c p : Nat} {rest : List Nat} (hc : c < n) (hsleep : (k.cores c).sleeping = p :: rest)
    (htodo : (k.cores c).todo = []) :
    Moved n k (k.setCore c { k.cores c with sleeping := rest, todo := [.ready p] }) := by
  refine .inside (l := [p]) (p := .core c .sleeping) (q := .core c .helper) (by simp) ?_ hc rfl rfl rfl
  apply move_core (by simp)
  · simp [Core.tcbs, hsleep]
  · simp only [Core.tcbs, htodo, heldIn, Frame.held, List.flatMap_cons, List.flatMap_nil, List.append_nil]
    exact List.perm_append_comm
  · intro r hr hr'
    cases r with
    | active => rfl
    | request => rfl
    | sleeping => exact absurd rfl hr
    | helper => exact absurd rfl hr'

/-- A thread blocks: it is no longer active, and `block` has it. -/
theorem block_moved {c t : Nat} {w : Work} (hc : c < n) (hok : CoreOk (k.cores c))
    (hact : (k.cores c).active = some t) (hfs : k.frames t = .block w :: rest) :
    Moved n k ((k.setCore c { k.cores c with active := none, phase := .blocking t w }).setFrames rest
      (.thread c t)) := by
  obtain ⟨hphase, htodo, hreq⟩ := hok.active (by simp [hact])
  refine .inside (l := [t]) (p := .core c .active) (q := .core c .helper) (by simp) ?_ hc rfl rfl rfl
  rw [tcbsAt_setFrames_same (show heldIn rest = heldIn (k.frames t) by rw [hfs]; rfl)]
  apply move_core (by simp)
  · simp [Core.tcbs, hact]
  · simp [Core.tcbs, hphase, HelperPhase.held]
  · intro r hr hr'
    cases r with
    | active => exact absurd rfl hr
    | helper => exact absurd rfl hr'
    | request => rfl
    | sleeping => rfl

/-- A section of a semaphore that only changes the count. -/
theorem setSem_moved {s : Nat} {x : Semaphore} (hx : x.waiting = (k.sems s).waiting)
    (hheld : heldIn fs = heldIn (k.framesOf who)) : Moved n k ((k.setSem s x).setFrames fs who) := by
  refine .still ?_ (by simp) (by simp) (by simp)
  have hsame : heldIn fs = heldIn ((k.setSem s x).framesOf who) := by
    rw [hheld]
    cases who <;> rfl
  rw [tcbsAt_setFrames_same hsame, tcbsAt_setSem_same s hx]

/-- A routine hands TCBs over to a place. -/
theorem handOver_moved {k₁ : Kernel} {q : Place} (l : List Nat) (hq : q ≠ who.place) (hreal : q.Real n k.nSems)
    (hheld : heldIn (k.framesOf who) = l ++ heldIn fs) (hto : k₁.tcbsAt q = k.tcbsAt q ++ l)
    (hne : ∀ r, r ≠ q → k₁.tcbsAt r = k.tcbsAt r) (hcores : k₁.cores = k.cores) (hsems : k₁.nSems = k.nSems)
    (halive : k₁.alive = k.alive) (hcreated : k₁.created = k.created) : Moved n k (k₁.setFrames fs who) := by
  refine .inside (l := l) (Ne.symm hq) (move_out hq ?_ ?_ hne hcores) hreal ?_ ?_ ?_
  · rw [hheld]
  · rw [hto]
    exact List.perm_append_comm
  · rw [setFrames_nSems, hsems]
  · rw [setFrames_alive, halive]
  · rw [setFrames_created, hcreated]

/-- A routine takes TCBs from a place. -/
theorem takeOut_moved {k₁ : Kernel} {q : Place} (l : List Nat) (hq : q ≠ who.place)
    (hreal : who.place.Real n k.nSems) (hheld : heldIn fs = l ++ heldIn (k.framesOf who))
    (hfrom : k.tcbsAt q = l ++ k₁.tcbsAt q) (hne : ∀ r, r ≠ q → k₁.tcbsAt r = k.tcbsAt r)
    (hcores : k₁.cores = k.cores) (hsems : k₁.nSems = k.nSems) (halive : k₁.alive = k.alive)
    (hcreated : k₁.created = k.created) : Moved n k (k₁.setFrames fs who) := by
  refine .inside (l := l) hq (move_in hq ?_ ?_ hne hcores) hreal ?_ ?_ ?_
  · rw [hheld]
  · rw [hfrom]
  · rw [setFrames_nSems, hsems]
  · rw [setFrames_alive, halive]
  · rw [setFrames_created, hcreated]

/-- `up` takes the first waiting TCB, if there is one. -/
theorem up_moved {s : Nat} (hfs : k.framesOf who = .up s :: rest) (hwho : who.place.Real n k.nSems)
    (h : k.runFrame who keep rest (.up s) = some k') : Moved n k k' := by
  rw [runFrame] at h
  by_cases hs : s < k.nSems
  · rw [if_pos hs, Semaphore.up] at h
    cases hw : (k.sems s).waiting with
    | nil =>
      rw [hw] at h
      obtain rfl := Option.some.inj h
      exact setSem_moved (by rw [hw]) (by rw [hfs]; rfl)
    | cons u us =>
      rw [hw] at h
      obtain rfl := Option.some.inj h
      refine takeOut_moved [u] (who.place_ne_waiting s) hwho ?_ ?_ (tcbsAt_setSem_of_ne s _) rfl rfl rfl rfl
      · rw [hfs]
        rfl
      · rw [tcbsAt_setSem_self]
        exact hw
  · rw [if_neg hs] at h
    cases h

/-- The second look of `down` leaves the TCB in the hands of the helper, or queues it. -/
theorem recheck_moved {s t : Nat} (hfs : k.framesOf who = .recheck s t :: rest)
    (h : k.runFrame who keep rest (.recheck s t) = some k') : Moved n k k' := by
  rw [runFrame] at h
  by_cases hs : s < k.nSems
  · rw [if_pos hs, Semaphore.recheck] at h
    by_cases hn : (k.sems s).n > 0
    · rw [if_pos hn] at h
      obtain rfl := Option.some.inj h
      exact setSem_moved rfl (by rw [hfs]; rfl)
    · rw [if_neg hn] at h
      obtain rfl := Option.some.inj h
      refine handOver_moved [t] (who.place_ne_waiting s) hs ?_ ?_ (tcbsAt_setSem_of_ne s _) rfl rfl rfl rfl
      · rw [hfs]
        rfl
      · rw [tcbsAt_setSem_self]
        rfl
  · rw [if_neg hs] at h
    cases h

/-- The helper puts a thread on its sleep queue. -/
theorem sleepAdd_moved {c t : Nat} {secs : Nat} {atJiffies : Nat → Nat} (hc : c < n)
    (hfs : (k.cores c).todo = .sleepAdd t secs :: rest) :
    Moved n k ({ k with atJiffies := atJiffies }.setCore c
      { k.cores c with sleeping := insertSleep atJiffies t (k.cores c).sleeping, todo := rest }) := by
  refine .inside (l := [t]) (p := .core c .helper) (q := .core c .sleeping) (by simp) ?_ hc rfl rfl rfl
  apply move_core (by simp)
  · show ((k.cores c).phase.held ++ heldIn (k.cores c).todo).Perm
      ([t] ++ ((k.cores c).phase.held ++ heldIn rest))
    rw [hfs, heldIn_cons]
    exact List.perm_append_comm_assoc _ [t] _
  · exact insertSleep_perm _ _ _
  · intro r hr hr'
    cases r with
    | active => rfl
    | request => rfl
    | sleeping => exact absurd rfl hr'
    | helper => exact absurd rfl hr

/-- **A step of a routine** moves TCBs into the hands of who runs it, or out of them. -/
theorem runFrame_moved (hfs : k.framesOf who = f :: rest) (hwho : who.place.Real n k.nSems)
    (hcore : ∀ c t, who = .thread c t → c < n ∧ (k.cores c).active = some t ∧ CoreOk (k.cores c))
    (h : k.runFrame who keep rest f = some k') : Moved n k k' := by
  have hheld : heldIn (k.framesOf who) = f.held ++ heldIn rest := by rw [hfs, heldIn_cons]
  cases f with
  | create =>
    obtain rfl := Option.some.inj h
    refine .created (q := who.place) ?_ hwho (by simp) (by simp) (by simp)
    refine Move.of_enter ?_ fun r hr => tcbsAt_setFrames_of_ne _ _ hr
    rw [tcbsAt_setFrames_place, tcbsAt_place, hheld]
    exact List.perm_append_comm_assoc _ [k.created] _
  | ready u =>
    obtain rfl := Option.some.inj h
    exact handOver_moved [u] who.place_ne_ready trivial hheld rfl (tcbsAt_ready_of_ne _) rfl rfl rfl rfl
  | reapAll =>
    obtain rfl := Option.some.inj h
    refine takeOut_moved k.reaper who.place_ne_reaper hwho ?_ ?_ (tcbsAt_reaper_of_ne _) rfl rfl rfl rfl
    · rw [hheld]
      rfl
    · exact (List.append_nil _).symm
  | reaping us =>
    cases us with
    | nil =>
      obtain rfl := Option.some.inj h
      exact .still (tcbsAt_setFrames_same (by rw [hheld]; rfl)) (by simp) (by simp) (by simp)
    | cons u us =>
      obtain rfl := Option.some.inj h
      refine .still (tcbsAt_setFrames_same ?_) (by simp) (by simp) (by simp)
      rw [hheld]
      cases keep <;> rfl
  | reaperAdd u =>
    obtain rfl := Option.some.inj h
    exact handOver_moved [u] who.place_ne_reaper trivial hheld rfl (tcbsAt_reaper_of_ne _) rfl rfl rfl rfl
  | up s => exact up_moved hfs hwho h
  | down s =>
    by_cases hs : s < k.nSems
    · by_cases hn : (k.sems s).n > 0
      · rw [runFrame, if_pos hs, Semaphore.check, if_pos hn] at h
        obtain rfl := Option.some.inj h
        exact setSem_moved rfl (by rw [hheld]; rfl)
      · rw [runFrame, if_pos hs, Semaphore.check, if_neg hn] at h
        obtain rfl := Option.some.inj h
        exact setSem_moved rfl (by rw [hheld]; rfl)
    · rw [runFrame, if_neg hs] at h
      cases h
  | take =>
    cases hreaper : k.reaper with
    | nil =>
      rw [runFrame, hreaper] at h
      obtain rfl := Option.some.inj h
      exact .still (tcbsAt_setFrames_same (by rw [hheld]; rfl)) (by simp) (by simp) (by simp)
    | cons u us =>
      rw [runFrame, hreaper] at h
      obtain rfl := Option.some.inj h
      refine takeOut_moved [u] who.place_ne_reaper hwho ?_ hreaper (tcbsAt_reaper_of_ne _) rfl rfl rfl rfl
      rw [hheld]
      rfl
  | delete u =>
    obtain rfl := Option.some.inj h
    refine .deleted (u := u) (p := who.place) ?_ ⟨who, by simp [hfs]⟩ (by simp) (by simp) (by simp)
    refine Move.of_leave ?_ fun r hr => tcbsAt_setFrames_of_ne _ _ hr
    rw [tcbsAt_setFrames_place, tcbsAt_place, hheld]
    exact List.perm_append_comm_assoc _ [u] _
  | yieldCheck =>
    by_cases hready : k.ready = []
    · rw [runFrame, if_pos hready] at h
      obtain rfl := Option.some.inj h
      exact .still (tcbsAt_setFrames_same (by rw [hheld]; rfl)) (by simp) (by simp) (by simp)
    · rw [runFrame, if_neg hready] at h
      obtain rfl := Option.some.inj h
      exact .still (tcbsAt_setFrames_same (by rw [hheld]; rfl)) (by simp) (by simp) (by simp)
  | block w =>
    cases who with
    | helper c => simp [runFrame] at h
    | thread c t =>
      obtain rfl := Option.some.inj h
      obtain ⟨hc, hact, hok⟩ := hcore c t rfl
      exact block_moved hc hok hact hfs
  | recheck s t => exact recheck_moved hfs h
  | sleepAdd t secs =>
    cases who with
    | thread c u => simp [runFrame] at h
    | helper c =>
      obtain rfl := Option.some.inj h
      exact sleepAdd_moved hwho hfs

/-- The loop of the helper moves at most one TCB. -/
theorem runHelper_moved {c : Nat} (hc : c < n) (hok : CoreOk (k.cores c)) (hact : (k.cores c).active = none)
    (htodo : (k.cores c).todo = []) : Moved n k (k.runHelper c) := by
  cases hphase : (k.cores c).phase with
  | blocking t w =>
    simp only [runHelper, hphase]
    have hnone := hok.request_none (by simp [hphase]) (by simp [hphase])
    refine .inside (l := [t]) (p := .core c .helper) (q := .core c .request) (by simp) ?_ hc rfl rfl rfl
    apply move_core (by simp)
    · simp [Core.tcbs, hphase, htodo, HelperPhase.held, heldIn]
    · simp [Core.tcbs, hnone]
    · intro r hr hr'
      cases r with
      | active => rfl
      | sleeping => rfl
      | request => exact absurd rfl hr'
      | helper => exact absurd rfl hr
  | top =>
    cases hsleep : removeSleep k.atJiffies k.jiffies (k.cores c).sleeping with
    | none =>
      simp only [runHelper, hphase, hsleep]
      exact setCore_still fun s => by cases s <;> simp [Core.tcbs, hphase, HelperPhase.held]
    | some pr =>
      simp only [runHelper, hphase, hsleep]
      rw [← hphase]
      exact wakeup_moved hc (removeSleep_eq hsleep) htodo
  | serve =>
    cases hr : (k.cores c).request with
    | none =>
      simp only [runHelper, hphase, hr]
      exact setCore_still fun s => by cases s <;> simp [Core.tcbs, hphase, hr, HelperPhase.held]
    | some tw =>
      obtain ⟨t, w⟩ := tw
      simp only [runHelper, hphase, hr]
      refine .inside (l := [t]) (p := .core c .request) (q := .core c .helper) (by simp) ?_ hc rfl rfl rfl
      apply move_core (by simp)
      · simp [Core.tcbs, hr]
      · cases w <;> simp [Core.tcbs, hphase, htodo, HelperPhase.held, heldIn, Work.frame, Frame.held]
      · intro r hr hr'
        cases r with
        | active => rfl
        | sleeping => rfl
        | request => exact absurd rfl hr
        | helper => exact absurd rfl hr'
  | pick =>
    cases hready : k.ready with
    | nil =>
      simp only [runHelper, hphase, hready]
      exact setCore_still fun s => by cases s <;> simp [Core.tcbs, hphase, HelperPhase.held]
    | cons u us =>
      simp only [runHelper, hphase, hready]
      refine .inside (l := [u]) (p := .ready) (q := .core c .helper) (by simp) ?_ hc rfl rfl rfl
      refine Move.of_ends (by simp) ?_ ?_ ?_
      · show k.ready.Perm ([u] ++ us)
        rw [hready]
        rfl
      · rw [tcbsAt_setCore_self]
        simp [tcbsAt, Core.tcbs, hphase, htodo, HelperPhase.held, heldIn]
      · intro r hr hr'
        rw [tcbsAt_setCore_of_ne ?_]
        · exact tcbsAt_ready_of_ne us r hr
        · intro s hs
          cases s with
          | active => rfl
          | sleeping => rfl
          | request => rfl
          | helper => exact absurd hs hr'
  | idle =>
    cases hsleep : removeSleep k.atJiffies k.jiffies (k.cores c).sleeping with
    | none =>
      simp only [runHelper, hphase, hsleep]
      exact setCore_still fun s => by cases s <;> simp [Core.tcbs, hphase, HelperPhase.held]
    | some pr =>
      simp only [runHelper, hphase, hsleep]
      rw [← hphase]
      exact wakeup_moved hc (removeSleep_eq hsleep) htodo
  | dispatch u =>
    simp only [runHelper, hphase]
    refine .inside (l := [u]) (p := .core c .helper) (q := .core c .active) (by simp) ?_ hc rfl rfl rfl
    apply move_core (by simp)
    · simp [Core.tcbs, hphase, htodo, HelperPhase.held, heldIn]
    · simp [Core.tcbs, hact]
    · intro r hr hr'
      cases r with
      | request => rfl
      | sleeping => rfl
      | active => exact absurd rfl hr'
      | helper => exact absurd rfl hr

end Kernel

end Threads

end BadApple
