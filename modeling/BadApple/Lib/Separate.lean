/-
  Processes with separate memories.

  1. **Memories** — a memory says for each address what was put there when the address was mapped (`backing`)
     and what is there now (`bytes`); `none` where nothing is mapped.
  2. **The machine** — each process has a memory of its own.  A process reads and writes its memory, maps and
     unmaps addresses, starts over with an empty memory, or has a copy made for a new process.  When it buries
     another process it loses what it wrote to addresses that the other one had mapped (`Memory.lose`).
  3. **Separation** — a step changes the memories of the process that takes it and of the one that comes or
     goes, and no other (`Step.frame`).
  4. **Noninterference** — what a process reads depends on its own memory at the start and on its own requests
     only, unless it buries others (`determined`).
-/
import Mathlib.Data.Set.Basic
import Mathlib.Logic.Function.Basic
import BadApple.Lib.Paths

namespace Separate

open Runs (Path)

universe u v w

variable {ι : Type u} {α : Type v} {β : Type w} {i j : ι} {a : α} {b : β}

/-! ## Memories -/

/-- A memory. -/
@[ext] structure Memory (α : Type v) (β : Type w) where
  backing : α → Option β
  bytes : α → Option β

namespace Memory

open Classical

/-- Nothing is mapped. -/
def empty : Memory α β := ⟨fun _ => none, fun _ => none⟩

/-- A byte is written. -/
noncomputable def store (M : Memory α β) (a : α) (b : β) : Memory α β :=
  { M with bytes := Function.update M.bytes a (some b) }

/-- The addresses `R` are mapped, and hold `c`. -/
noncomputable def map (M : Memory α β) (R : Set α) (c : α → β) : Memory α β :=
  ⟨fun a => if a ∈ R then some (c a) else M.backing a, fun a => if a ∈ R then some (c a) else M.bytes a⟩

/-- The addresses `R` are unmapped. -/
noncomputable def unmap (M : Memory α β) (R : Set α) : Memory α β :=
  ⟨fun a => if a ∈ R then none else M.backing a, fun a => if a ∈ R then none else M.bytes a⟩

theorem store_self (M : Memory α β) (a : α) (b : β) : (M.store a b).bytes a = some b :=
  Function.update_self a _ _

theorem store_of_ne (M : Memory α β) {a a' : α} (h : a' ≠ a) (b : β) : (M.store a b).bytes a' = M.bytes a' :=
  Function.update_of_ne h _ _

variable {M : Memory α β} {R : Set α} {c : α → β}

theorem map_of_mem (h : a ∈ R) : (M.map R c).backing a = some (c a) ∧ (M.map R c).bytes a = some (c a) :=
  ⟨if_pos h, if_pos h⟩

theorem map_of_not_mem (h : a ∉ R) :
    (M.map R c).backing a = M.backing a ∧ (M.map R c).bytes a = M.bytes a := ⟨if_neg h, if_neg h⟩

theorem unmap_of_mem (h : a ∈ R) : (M.unmap R).backing a = none ∧ (M.unmap R).bytes a = none :=
  ⟨if_pos h, if_pos h⟩

theorem unmap_of_not_mem (h : a ∉ R) :
    (M.unmap R).backing a = M.backing a ∧ (M.unmap R).bytes a = M.bytes a := ⟨if_neg h, if_neg h⟩

/-- What was written to addresses that `N` has mapped is lost. -/
def lose (M N : Memory α β) : Memory α β :=
  { M with bytes := fun a => if (N.backing a).isSome then M.backing a else M.bytes a }

end Memory

/-! ## The machine -/

/-- What processes do, and what they see of it. -/
inductive Act (ι : Type u) (α : Type v) (β : Type w) where
  /-- `i` reads `b` at `a`. -/
  | load (i : ι) (a : α) (b : β)
  | store (i : ι) (a : α) (b : β)
  /-- Nothing that can be seen. -/
  | tau (i : ι)
  | spawn (j : ι)
  /-- `j` becomes a copy of `i`. -/
  | fork (i j : ι)
  | map (i : ι) (R : Set α) (c : α → β)
  | unmap (i : ι) (R : Set α)
  | clear (i : ι)
  /-- `r` buries `i`. -/
  | reap (r i : ι)

/-- The memories of the processes there are. -/
abbrev State (ι : Type u) (α : Type v) (β : Type w) : Type (max u v w) := ι → Option (Memory α β)

section Machine

variable [DecidableEq ι]

/-- The memory of one process is replaced. -/
def State.set (s : State ι α β) (i : ι) (M : Option (Memory α β)) : State ι α β := Function.update s i M

@[simp] theorem State.set_self (s : State ι α β) (i : ι) (M : Option (Memory α β)) : s.set i M i = M := by
  rw [State.set, Function.update_self]

theorem State.set_of_ne (s : State ι α β) {i j : ι} (h : j ≠ i) (M : Option (Memory α β)) :
    s.set i M j = s j := by
  rw [State.set, Function.update_of_ne h]

/-- One step. -/
inductive Step : State ι α β → Act ι α β → State ι α β → Prop
  | load {s : State ι α β} {i : ι} {M : Memory α β} {a : α} {b : β} :
      s i = some M → M.bytes a = some b → Step s (.load i a b) s
  | store {s : State ι α β} {i : ι} {M : Memory α β} {a : α} (b : β) :
      s i = some M → (M.bytes a).isSome = true → Step s (.store i a b) (s.set i (some (M.store a b)))
  | tau {s : State ι α β} (i : ι) : Step s (.tau i) s
  | spawn {s : State ι α β} {j : ι} : s j = none → Step s (.spawn j) (s.set j (some .empty))
  | fork {s : State ι α β} {i j : ι} {M : Memory α β} :
      s i = some M → s j = none → Step s (.fork i j) (s.set j (some M))
  | map {s : State ι α β} {i : ι} {M : Memory α β} {R : Set α} (c : α → β) :
      s i = some M → (∀ a ∈ R, M.bytes a = none) → Step s (.map i R c) (s.set i (some (M.map R c)))
  | unmap {s : State ι α β} {i : ι} {M : Memory α β} {R : Set α} :
      s i = some M → (∀ a ∈ R, (M.bytes a).isSome = true) →
        Step s (.unmap i R) (s.set i (some (M.unmap R)))
  | clear {s : State ι α β} {i : ι} {M : Memory α β} :
      s i = some M → Step s (.clear i) (s.set i (some .empty))
  | reap {s : State ι α β} {r i : ι} {M N : Memory α β} :
      s r = some M → s i = some N → r ≠ i →
        Step s (.reap r i) ((s.set r (some (M.lose N))).set i none)

/-! ## Separation -/

/-- The process that takes the step. -/
def Act.actor : Act ι α β → Option ι
  | .load i _ _ | .store i _ _ | .tau i | .fork i _ | .map i _ _ | .unmap i _ | .clear i | .reap i _ => some i
  | .spawn _ => none

/-- The process that comes or goes. -/
def Act.subject : Act ι α β → Option ι
  | .spawn j | .fork _ j | .reap _ j => some j
  | _ => none

/-- **A step leaves the memories of all others alone.** -/
theorem Step.frame {s t : State ι α β} {x : Act ι α β} (h : Step s x t) (hactor : x.actor ≠ some i)
    (hsubject : x.subject ≠ some i) : t i = s i := by
  have hne : ∀ {j : ι}, some j ≠ some i → i ≠ j := fun h heq => h (congrArg some heq.symm)
  cases h with
  | load => rfl
  | store => exact State.set_of_ne _ (hne hactor) _
  | tau => rfl
  | spawn => exact State.set_of_ne _ (hne hsubject) _
  | fork => exact State.set_of_ne _ (hne hsubject) _
  | map => exact State.set_of_ne _ (hne hactor) _
  | unmap => exact State.set_of_ne _ (hne hactor) _
  | clear => exact State.set_of_ne _ (hne hactor) _
  | reap => rw [State.set_of_ne _ (hne hsubject), State.set_of_ne _ (hne hactor)]

/-! ## Noninterference -/

/-- What a process's own steps do to its memory, burials apart. -/
inductive Own (i : ι) : Option (Memory α β) → Act ι α β → Option (Memory α β) → Prop
  | load {M : Memory α β} {a : α} {b : β} : M.bytes a = some b → Own i (some M) (.load i a b) (some M)
  | store (M : Memory α β) (a : α) (b : β) : Own i (some M) (.store i a b) (some (M.store a b))
  | tau (M : Option (Memory α β)) : Own i M (.tau i) M
  | fork (M : Option (Memory α β)) (j : ι) : Own i M (.fork i j) M
  | map (M : Memory α β) (R : Set α) (c : α → β) : Own i (some M) (.map i R c) (some (M.map R c))
  | unmap (M : Memory α β) (R : Set α) : Own i (some M) (.unmap i R) (some (M.unmap R))
  | clear (M : Memory α β) : Own i (some M) (.clear i) (some .empty)

/-- `i` is there all the time and buries nobody. -/
def Act.Undisturbed (i : ι) (x : Act ι α β) : Prop := x.subject ≠ some i ∧ ∀ j, x ≠ .reap i j

/-- `x` is a step of `i`. -/
def Act.by (i : ι) (x : Act ι α β) : Bool := decide (x.actor = some i)

/-- Two steps that ask the same: they may differ in what is read. -/
inductive Act.Asks : Act ι α β → Act ι α β → Prop
  | load (i : ι) (a : α) (b b' : β) : Asks (.load i a b) (.load i a b')
  | same (x : Act ι α β) : Asks x x

/-- A step of the process itself. -/
theorem Step.own {s t : State ι α β} {x : Act ι α β} (h : Step s x t) (hx : x.Undisturbed i)
    (hactor : x.actor = some i) : Own i (s i) x (t i) := by
  obtain ⟨hsubject, hreap⟩ := hx
  cases h with
  | load hi ha =>
    obtain rfl := Option.some.inj hactor
    rw [hi]
    exact .load ha
  | store b hi ha =>
    obtain rfl := Option.some.inj hactor
    rw [hi, State.set_self]
    exact .store _ _ b
  | tau k =>
    obtain rfl := Option.some.inj hactor
    exact .tau _
  | spawn => cases hactor
  | @fork _ k j M hk =>
    obtain rfl := Option.some.inj hactor
    rw [State.set_of_ne _ fun heq => hsubject (congrArg some heq.symm)]
    exact .fork _ _
  | map c hi hfree =>
    obtain rfl := Option.some.inj hactor
    rw [hi, State.set_self]
    exact .map _ _ c
  | unmap hi =>
    obtain rfl := Option.some.inj hactor
    rw [hi, State.set_self]
    exact .unmap _ _
  | clear hi =>
    obtain rfl := Option.some.inj hactor
    rw [hi, State.set_self]
    exact .clear _
  | reap =>
    obtain rfl := Option.some.inj hactor
    exact absurd rfl (hreap _)

omit [DecidableEq ι] in
/-- Own steps that ask the same have the same effect. -/
theorem Own.determined {M N N' : Option (Memory α β)} {x y : Act ι α β} (h : Own i M x N) (hsame : x.Asks y)
    (h' : Own i M y N') : x = y ∧ N = N' := by
  cases hsame with
  | load k a b b' =>
    cases h with
    | load hb =>
      cases h' with
      | load hb' =>
        rw [hb] at hb'
        obtain rfl := Option.some.inj hb'
        exact ⟨rfl, rfl⟩
  | same =>
    refine ⟨rfl, ?_⟩
    cases h <;> cases h' <;> rfl

/-- **Noninterference**: two runs in which `i` starts with the same memory, is there all the time, buries
    nobody and asks the same give it the same answers, and leave it with the same memory, whatever all others
    do in them. -/
theorem determined {s t s' t' : State ι α β} {xs ys : List (Act ι α β)} (h : Path Step s xs t)
    (h' : Path Step s' ys t') (hstart : s i = s' i) (hxs : ∀ x ∈ xs, x.Undisturbed i)
    (hys : ∀ x ∈ ys, x.Undisturbed i)
    (hasks : List.Forall₂ Act.Asks (xs.filter (Act.by i)) (ys.filter (Act.by i))) :
    xs.filter (Act.by i) = ys.filter (Act.by i) ∧ t i = t' i := by
  have hview : ∀ {s t : State ι α β} {xs : List (Act ι α β)}, Path Step s xs t →
      (∀ x ∈ xs, x.Undisturbed i) → Path (Own i) (s i) (xs.filter (Act.by i)) (t i) := by
    intro s t xs h hxs
    have hmine : ∀ (s : State ι α β) x t, x.Undisturbed i → Step s x t → x.by i = true → Own i (s i) x (t i) :=
      fun _ _ _ hx hs hby => hs.own hx (of_decide_eq_true hby)
    have hother : ∀ (s : State ι α β) x t, x.Undisturbed i → Step s x t → x.by i = false → t i = s i :=
      fun _ _ _ hx hs hby => hs.frame (of_decide_eq_false hby) hx.1
    exact h.view (Act.by i) hmine hother hxs
  have hp' := hview h' hys
  rw [← hstart] at hp'
  refine Path.determined (fun M x y N N' hsame (hx : Own i M x N) hy => ?_) (hview h hxs) hp' hasks
  exact hx.determined hsame hy

end Machine

end Separate
