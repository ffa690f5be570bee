/-
  `Promise` (kernel/promise.h): a value that is set once, and waited for by any number of threads.

  1. **Code** — `set` stores the value and adds one to the semaphore; `get` takes one, adds one, and reads the
     value.  Beside the value we note what `set` was called with, whether it has stored it, and what `get`s
     have returned.
  2. **The token** — there is one token: with `set` until its `up`, then in the count, or with a `get` between
     its `down` and its `up`.  Before `set` has stored the value, nobody but `set` can have it.
  3. **The result** — `promise_laws`.
-/
import BadApple.Threads.Tasks

namespace BadApple

namespace Threads

open Function (update)

open Tokens (Program Instr tally)

universe u

variable {α : Type u}

/-! ## The code -/

/-- `Promise`, and what has happened to it. -/
structure Promise (α : Type u) where
  value : α
  setTo : Option α
  stored : Bool
  returned : List α
deriving DecidableEq, Repr

/-- Where a thread is: between calls, before a step of `set`, or before a step of `get`. -/
inductive PromisePlace (α : Type u) where
  | idle
  | setStore (v : α)
  | setUp
  | getDown
  | getUp
  | getValue
deriving DecidableEq, Repr

/-- The calls of a `Promise`. -/
inductive PromiseCall (α : Type u) where
  | set (v : α)
  | get
deriving DecidableEq, Repr

namespace Promise

/-- `Promise()`, with the value that `T value{}` is. -/
def new (value : α) : Promise α := ⟨value, none, false, []⟩

/-- The steps of `set` and `get`. -/
def code : PromisePlace α → Instr Unit (Promise α) (PromisePlace α)
  | .idle => .rest
  | .setStore v => .act fun _ p => ({ p with value := v, stored := true }, .setUp)
  | .setUp => .up () .idle
  | .getDown => .down () .getUp
  | .getUp => .up () .getValue
  | .getValue => .act fun _ p => ({ p with returned := p.returned ++ [p.value] }, .idle)

/-- `set` is called once. -/
def call : PromiseCall α → Promise α → PromisePlace α → Option (Promise α × PromisePlace α)
  | .set v, p, _ => if p.setTo = none then some ({ p with setTo := some v }, .setStore v) else none
  | .get, p, _ => some (p, .getDown)

/-- The code of a `Promise`. -/
def program : Program Unit (Promise α) (PromisePlace α) (PromiseCall α) := ⟨code, call⟩

/-- A `Promise` that nobody has used: its semaphore is `Semaphore sem{0}`. -/
def start (value : α) : Tasks Unit (Promise α) (PromisePlace α) :=
  .start (fun _ => 0) (new value) fun _ => .idle

end Promise

/-- The states reached by any number of threads in any order of steps. -/
def PromiseRuns (threads : Nat) (value : α) : Tasks Unit (Promise α) (PromisePlace α) → Prop :=
  Tasks.Reached Promise.program threads (Promise.start value)

/-! ## Places -/

namespace PromisePlace

/-- Who has the token. -/
def holds : PromisePlace α → Nat
  | .setStore _ | .setUp | .getUp => 1
  | _ => 0

/-- Who has been able to go on because the value was stored. -/
def after : PromisePlace α → Nat
  | .setUp | .getUp | .getValue => 1
  | _ => 0

end PromisePlace

namespace Promise

variable {p : PromisePlace α} {i : Unit} {next : PromisePlace α}

theorem code_rest (h : code p = .rest) : p = .idle := by
  cases p <;> first | rfl | cases h

theorem code_down (h : code p = .down i next) : p = .getDown ∧ next = .getUp := by
  cases p <;> cases h
  exact ⟨rfl, rfl⟩

theorem code_up (h : code p = .up i next) :
    (p = .setUp ∧ next = .idle) ∨ (p = .getUp ∧ next = .getValue) := by
  cases p <;> cases h
  · exact Or.inl ⟨rfl, rfl⟩
  · exact Or.inr ⟨rfl, rfl⟩

end Promise

/-! ## The invariant -/

/-- **Where the token is, and what has been stored and returned.** -/
structure PromiseOk (threads : Nat) (s : Tokens.State Unit (Promise α) (PromisePlace α)) : Prop where
  token : s.count () + tally PromisePlace.holds s.pc threads + (if s.mem.setTo = none then 1 else 0) = 1
  setting : ∀ t v, t < threads → s.pc t = .setStore v → s.mem.setTo = some v
  before : s.mem.stored = false →
    s.count () = 0 ∧ tally PromisePlace.after s.pc threads = 0 ∧ s.mem.returned = []
  value : s.mem.stored = true → s.mem.setTo = some s.mem.value
  returned : ∀ x ∈ s.mem.returned, s.mem.setTo = some x

variable {threads t : Nat} {value : α} {s : Tokens.State Unit (Promise α) (PromisePlace α)}

theorem promiseOk_start (value : α) :
    PromiseOk threads ⟨fun _ => 0, Promise.new value, fun _ => PromisePlace.idle⟩ := by
  refine ⟨?_, fun t v _ h => ?_, fun _ => ⟨rfl, Tokens.tally_const _ _ _, rfl⟩, fun h => ?_, fun x hx => ?_⟩
  · rw [Tokens.tally_const]
    rfl
  · cases h
  · cases h
  · cases hx

/-- A thread that goes on after the value was stored shows that it was. -/
theorem PromiseOk.stored (h : PromiseOk threads s) (ht : t < threads) (hafter : 0 < (s.pc t).after) :
    s.mem.stored = true := by
  cases hstored : s.mem.stored with
  | true => rfl
  | false =>
    have hzero := (h.before hstored).2.1
    have hle := Tokens.le_tally PromisePlace.after s.pc ht
    omega

/-- Where the others are. -/
theorem PromiseOk.setting_update (h : PromiseOk threads s) {p : PromisePlace α} {setTo : Option α}
    (hp : ∀ v, p = .setStore v → setTo = some v) (hset : ∀ v, s.mem.setTo = some v → setTo = some v) (u : Nat)
    (v : α) (hu : u < threads) (hpc : update s.pc t p u = .setStore v) : setTo = some v := by
  by_cases hut : u = t
  · subst hut
    rw [Function.update_self] at hpc
    exact hp v hpc
  · rw [Function.update_of_ne hut] at hpc
    exact hset v (h.setting u v hu hpc)

/-- **A call** keeps the invariant. -/
theorem PromiseOk.call (h : PromiseOk threads s) (ht : t < threads) (hpc : s.pc t = .idle) {c : PromiseCall α}
    {mem : Promise α} {p : PromisePlace α} (hcall : Promise.call c s.mem .idle = some (mem, p)) :
    PromiseOk threads ⟨s.count, mem, update s.pc t p⟩ := by
  have hholds := Tokens.tally_update PromisePlace.holds s.pc p ht
  have hafter := Tokens.tally_update PromisePlace.after s.pc p ht
  rw [hpc] at hholds hafter
  have htoken := h.token
  cases c with
  | get =>
    obtain ⟨rfl, rfl⟩ := Prod.mk.inj (Option.some.inj hcall)
    refine ⟨?_, h.setting_update (fun v hv => by cases hv) fun v hv => hv, fun hs => ?_, h.value, h.returned⟩
    · simp only [PromisePlace.holds] at hholds
      simp only
      omega
    · obtain ⟨hcount, hzero, hnone⟩ := h.before hs
      refine ⟨hcount, ?_, hnone⟩
      show tally PromisePlace.after (update s.pc t .getDown) threads = 0
      simp only [PromisePlace.after] at hafter hzero
      omega
  | set v =>
    simp only [Promise.call] at hcall
    by_cases hset : s.mem.setTo = none
    · rw [if_pos hset] at hcall
      obtain ⟨rfl, rfl⟩ := Prod.mk.inj (Option.some.inj hcall)
      refine ⟨?_, h.setting_update (fun v' hv => ?_) (fun v' hv => ?_), fun hs => ?_, fun hs => ?_,
        fun x hx => ?_⟩
      · rw [if_pos hset] at htoken
        simp only [PromisePlace.holds] at hholds
        simp only [reduceCtorEq, if_false]
        omega
      · rw [PromisePlace.setStore.inj hv]
      · rw [hset] at hv
        cases hv
      · obtain ⟨hcount, hzero, hnone⟩ := h.before hs
        refine ⟨hcount, ?_, hnone⟩
        show tally PromisePlace.after (update s.pc t (.setStore v)) threads = 0
        simp only [PromisePlace.after] at hafter hzero
        omega
      · have hval := h.value hs
        rw [hset] at hval
        cases hval
      · have hval := h.returned x hx
        rw [hset] at hval
        cases hval
    · rw [if_neg hset] at hcall
      cases hcall

/-- **The actions** keep the invariant. -/
theorem PromiseOk.act (h : PromiseOk threads s) (ht : t < threads)
    {f : Nat → Promise α → Promise α × PromisePlace α} (hcode : Promise.code (s.pc t) = .act f) :
    PromiseOk threads ⟨s.count, (f t s.mem).1, update s.pc t (f t s.mem).2⟩ := by
  have hholds := Tokens.tally_update PromisePlace.holds s.pc (f t s.mem).2 ht
  have hafter := Tokens.tally_update PromisePlace.after s.pc (f t s.mem).2 ht
  have htoken := h.token
  cases hpc : s.pc t with
  | setStore v =>
    rw [hpc] at hcode hholds hafter
    obtain rfl := Instr.act.inj hcode
    have hset := h.setting t v ht hpc
    refine ⟨?_, h.setting_update (fun v' hv => by cases hv) fun v' hv => hv, (fun hs => by cases hs),
      fun _ => hset, h.returned⟩
    simp only [PromisePlace.holds] at hholds
    simp only
    omega
  | getValue =>
    rw [hpc] at hcode hholds hafter
    obtain rfl := Instr.act.inj hcode
    have hstored := h.stored ht (by rw [hpc]; exact Nat.one_pos)
    refine ⟨?_, h.setting_update (fun v' hv => by cases hv) fun v' hv => hv, fun hs => ?_, h.value,
      fun x hx => ?_⟩
    · simp only [PromisePlace.holds] at hholds
      simp only
      omega
    · exact absurd (hstored.symm.trans hs) (by decide)
    · rcases List.mem_append.1 hx with hx | hx
      · exact h.returned x hx
      · rw [List.mem_singleton.1 hx]
        exact h.value hstored
  | idle =>
    rw [hpc] at hcode
    cases hcode
  | setUp =>
    rw [hpc] at hcode
    cases hcode
  | getDown =>
    rw [hpc] at hcode
    cases hcode
  | getUp =>
    rw [hpc] at hcode
    cases hcode

/-- `down` takes the token from the count. -/
theorem PromiseOk.down (h : PromiseOk threads s) (ht : t < threads) (hpc : s.pc t = .getDown)
    (hpos : 0 < s.count ()) :
    PromiseOk threads ⟨update s.count () (s.count () - 1), s.mem, update s.pc t .getUp⟩ := by
  have hholds := Tokens.tally_update PromisePlace.holds s.pc .getUp ht
  have hafter := Tokens.tally_update PromisePlace.after s.pc .getUp ht
  rw [hpc] at hholds hafter
  have htoken := h.token
  refine ⟨?_, h.setting_update (fun v' hv => by cases hv) fun v' hv => hv, fun hs => ?_, h.value, h.returned⟩
  · simp only [PromisePlace.holds] at hholds
    simp only [Function.update_self]
    omega
  · have hzero := (h.before hs).1
    omega

/-- `up` gives the token to the count. -/
theorem PromiseOk.up (h : PromiseOk threads s) (ht : t < threads) {next : PromisePlace α}
    (hpc : (s.pc t = .setUp ∧ next = .idle) ∨ (s.pc t = .getUp ∧ next = .getValue)) :
    PromiseOk threads ⟨update s.count () (s.count () + 1), s.mem, update s.pc t next⟩ := by
  have hholds := Tokens.tally_update PromisePlace.holds s.pc next ht
  have htoken := h.token
  have hstored : s.mem.stored = true := by
    refine h.stored ht ?_
    rcases hpc with ⟨hpc, -⟩ | ⟨hpc, -⟩ <;> rw [hpc] <;> exact Nat.one_pos
  have hmoved : tally PromisePlace.holds (update s.pc t next) threads + 1 =
      tally PromisePlace.holds s.pc threads := by
    rcases hpc with ⟨hpc, rfl⟩ | ⟨hpc, rfl⟩ <;> rw [hpc] at hholds <;> exact hholds
  refine ⟨?_, h.setting_update (fun v' hv => ?_) fun v' hv => hv, fun hs => ?_, h.value, h.returned⟩
  · simp only [Function.update_self]
    omega
  · rcases hpc with ⟨-, rfl⟩ | ⟨-, rfl⟩ <;> cases hv
  · exact absurd (hstored.symm.trans hs) (by decide)

/-- **Every run** keeps the invariant. -/
theorem promiseOk_of_reached
    (h : Tokens.Reached Promise.program threads ⟨fun _ => 0, Promise.new value, fun _ => PromisePlace.idle⟩ s) :
    PromiseOk threads s := by
  apply Tokens.Guarded.invariant (I := PromiseOk threads) (promiseOk_start value) ?_ ?_ ?_ ?_ h
  · intro s t c mem p ht hI hcode hcall
    have hpc := Promise.code_rest hcode
    rw [hpc] at hcall
    exact hI.call ht hpc hcall
  · intro s t i next ht hI hcode hpos
    obtain ⟨hpc, rfl⟩ := Promise.code_down hcode
    exact hI.down ht hpc hpos
  · intro s t i next ht hI hcode
    exact hI.up ht (Promise.code_up hcode)
  · exact fun s t f ht hI hcode _ => hI.act ht hcode

/-! ## The result -/

/-- `set` has been called and no thread is in it any more. -/
def SetCompleted (threads : Nat) (s : Tasks Unit (Promise α) (PromisePlace α)) : Prop :=
  s.mem.setTo ≠ none ∧ ∀ t, t < threads → s.pc t ≠ .setUp ∧ ∀ v, s.pc t ≠ .setStore v

/-- **Promises**: with one `set` and any number of `get`s, in every state reached, each `get` that has
    completed has returned what `set` was called with, and none has before `set` stored it; and once `set` has
    completed and no thread has a step left, every `get` that was started has completed. -/
theorem promise_laws {threads : Nat} {value : α} {s : Tasks Unit (Promise α) (PromisePlace α)}
    (h : PromiseRuns threads value s) :
    (∀ x ∈ s.mem.returned, s.mem.setTo = some x ∧ s.mem.stored = true) ∧
    (SetCompleted threads s → s.Stuck Promise.program threads → ∀ t, t < threads → s.pc t = .idle) := by
  have hok : PromiseOk threads (s.view Promise.program) := promiseOk_of_reached (Tasks.Guarded.view h)
  refine ⟨fun x hx => ⟨hok.returned x hx, ?_⟩, fun hset hstuck t ht => ?_⟩
  · cases hstored : s.mem.stored with
    | true => rfl
    | false =>
      have hnone : s.mem.returned = [] := (hok.before hstored).2.2
      rw [hnone] at hx
      cases hx
  · have hplaces : ∀ u, u < threads → s.place Promise.program u = s.pc u ∧ (s.pc u = .idle ∨
        s.pc u = .getDown ∧ (s.sem ()).n = 0) := by
      intro u hu
      obtain ⟨hplace, hrest | ⟨-, i, next, hdown, hzero⟩⟩ := (Tasks.Guarded.tasksOk h).stuck hstuck hu
      · exact ⟨hplace, Or.inl (Promise.code_rest hrest)⟩
      · exact ⟨hplace, Or.inr ⟨(Promise.code_down hdown).1, hzero⟩⟩
    rcases (hplaces t ht).2 with hidle | ⟨-, hzero⟩
    · exact hidle
    · -- nobody has the token
      exfalso
      have htoken : (s.sem ()).n + tally PromisePlace.holds (s.place Promise.program) threads +
          (if s.mem.setTo = none then 1 else 0) = 1 := hok.token
      have hnobody : tally PromisePlace.holds (s.place Promise.program) threads = 0 := by
        refine Tokens.tally_eq_zero fun u hu => ?_
        obtain ⟨hplace, hidle | ⟨hdown, -⟩⟩ := hplaces u hu
        · rw [hplace, hidle]
          rfl
        · rw [hplace, hdown]
          rfl
      rw [if_neg hset.1] at htoken
      omega

/-- A `get` that waits until `set` has stored the value. -/
theorem promise_laws_waiting : ∃ s : Tasks Unit (Promise Nat) (PromisePlace Nat), PromiseRuns 2 0 s ∧
    ((∀ x ∈ s.mem.returned, s.mem.setTo = some x ∧ s.mem.stored = true) ∧
      (SetCompleted 2 s → s.Stuck Promise.program 2 → ∀ t, t < 2 → s.pc t = .idle)) ∧
    s.mem.returned = [7] := by
  have h₀ : PromiseRuns 2 0 (Promise.start 0) := Runs.Guarded.start rfl
  have h₁ := h₀.next (.call 0 .get) rfl
  have h₂ := h₁.next (.step 0) rfl
  have h₃ := h₂.next (.step 0) rfl
  have h₄ := h₃.next (.call 1 (.set 7)) rfl
  have h₅ := h₄.next (.step 1) rfl
  have h₆ := h₅.next (.step 1) rfl
  have h₇ := h₆.next (.step 0) rfl
  have h₈ := h₇.next (.step 0) rfl
  have h₉ := h₈.next (.step 0) rfl
  exact ⟨_, h₉, promise_laws h₉, rfl⟩

end Threads

end BadApple
