/-
  `Barrier` (kernel/barrier.h): `n` threads wait for each other.

  1. **Code** — `sync` decrements a counter that starts at `n`.  The thread that brings it to `0` adds one to
     the semaphore; each other one takes one and adds one.  The counter stays between `0` and `n`, so that it
     makes no difference that it is an `int32_t`.
  2. **The token** — as long as a thread is missing there is none.  The last arrival brings one; from then on
     it is in the count or with a thread before its `up`.
  3. **The result** — `barrier_laws`.
-/
import BadApple.Threads.Tasks

namespace BadApple

namespace Threads

open Function (update)

open Tokens (Program Instr tally)

/-! ## The code -/

/-- `Barrier`, beside its semaphore. -/
structure Barrier where
  n : Int
deriving DecidableEq, Repr

/-- Where a thread is: it has not called `sync`; before a step of `sync`; or `sync` has returned. -/
inductive BarrierPlace where
  | notCalled
  | decrement
  | lastUp
  | down
  | up
  | returned
deriving DecidableEq, Repr

namespace Barrier

/-- `n.add_fetch(-1)`: the counter, and the value that is returned. -/
def addFetch (b : Barrier) : Int × Barrier := (b.n - 1, { b with n := b.n - 1 })

/-- The steps of `sync`. -/
def code : BarrierPlace → Instr Unit Barrier BarrierPlace
  | .notCalled => .rest
  | .decrement => .act fun _ b => (b.addFetch.2, if b.addFetch.1 = 0 then .lastUp else .down)
  | .lastUp => .up () .returned
  | .down => .down () .up
  | .up => .up () .returned
  | .returned => .rest

/-- A thread calls `sync` once. -/
def call (_ : Unit) (b : Barrier) : BarrierPlace → Option (Barrier × BarrierPlace)
  | .notCalled => some (b, .decrement)
  | _ => none

/-- The code of a `Barrier`. -/
def program : Program Unit Barrier BarrierPlace Unit := ⟨code, call⟩

/-- `Barrier(n)`: its semaphore is `Semaphore ready{0}`. -/
def start (n : Nat) : Tasks Unit Barrier BarrierPlace := .start (fun _ => 0) ⟨n⟩ fun _ => .notCalled

end Barrier

/-- The states reached by `n` threads in any order of steps. -/
def BarrierRuns (n : Nat) : Tasks Unit Barrier BarrierPlace → Prop :=
  Tasks.Reached Barrier.program n (Barrier.start n)

/-! ## Places -/

namespace BarrierPlace

/-- Who has not decremented the counter. -/
def missing : BarrierPlace → Nat
  | .notCalled | .decrement => 1
  | _ => 0

/-- Who has the token. -/
def holds : BarrierPlace → Nat
  | .lastUp | .up => 1
  | _ => 0

/-- Who has been able to go on because nobody was missing. -/
def after : BarrierPlace → Nat
  | .lastUp | .up | .returned => 1
  | _ => 0

end BarrierPlace

namespace Barrier

variable {p : BarrierPlace} {i : Unit} {next : BarrierPlace}

theorem code_rest (h : code p = .rest) : p = .notCalled ∨ p = .returned := by
  cases p <;> first | exact Or.inl rfl | exact Or.inr rfl | cases h

theorem code_down (h : code p = .down i next) : p = .down ∧ next = .up := by
  cases p <;> cases h
  exact ⟨rfl, rfl⟩

theorem code_up (h : code p = .up i next) : (p = .lastUp ∨ p = .up) ∧ next = .returned := by
  cases p <;> cases h
  · exact ⟨Or.inl rfl, rfl⟩
  · exact ⟨Or.inr rfl, rfl⟩

theorem code_act {f : Nat → Barrier → Barrier × BarrierPlace} (h : code p = .act f) : p = .decrement ∧
    f = fun _ b => (b.addFetch.2, if b.addFetch.1 = 0 then .lastUp else .down) := by
  cases p <;> cases h
  exact ⟨rfl, rfl⟩

end Barrier

/-! ## The invariant -/

/-- **What the counter counts, and where the token is.** -/
structure BarrierOk (n : Nat) (s : Tokens.State Unit Barrier BarrierPlace) : Prop where
  counter : s.mem.n = (tally BarrierPlace.missing s.pc n : Nat)
  token : s.count () + tally BarrierPlace.holds s.pc n + (if s.mem.n = 0 then 0 else 1) = 1
  before : s.mem.n ≠ 0 → tally BarrierPlace.after s.pc n = 0

variable {n t : Nat} {s : Tokens.State Unit Barrier BarrierPlace}

theorem barrierOk_start (hn : 1 ≤ n) : BarrierOk n ⟨fun _ => 0, ⟨n⟩, fun _ => BarrierPlace.notCalled⟩ := by
  refine ⟨?_, ?_, fun _ => Tokens.tally_const _ _ _⟩
  · rw [Tokens.tally_const, BarrierPlace.missing, Nat.mul_one]
  · rw [Tokens.tally_const, if_neg (show (n : Int) ≠ 0 by omega)]
    rfl

/-- Nobody goes on while a thread is missing. -/
theorem BarrierOk.counter_zero (h : BarrierOk n s) (ht : t < n) (hafter : 0 < (s.pc t).after) :
    s.mem.n = 0 := by
  by_contra hne
  have hzero := h.before hne
  have hle := Tokens.le_tally BarrierPlace.after s.pc ht
  omega

/-- **A call** keeps the invariant. -/
theorem BarrierOk.call (h : BarrierOk n s) (ht : t < n) {c : Unit} {mem : Barrier} {p : BarrierPlace}
    (hcall : Barrier.call c s.mem (s.pc t) = some (mem, p)) :
    BarrierOk n ⟨s.count, mem, update s.pc t p⟩ := by
  have hmissing := Tokens.tally_update BarrierPlace.missing s.pc p ht
  have hholds := Tokens.tally_update BarrierPlace.holds s.pc p ht
  have hafter := Tokens.tally_update BarrierPlace.after s.pc p ht
  have hcounter := h.counter
  have htoken := h.token
  cases hpc : s.pc t with
  | notCalled =>
    rw [hpc] at hcall hmissing hholds hafter
    obtain ⟨rfl, rfl⟩ := Prod.mk.inj (Option.some.inj hcall)
    simp only [BarrierPlace.missing, BarrierPlace.holds, BarrierPlace.after] at hmissing hholds hafter
    refine ⟨?_, ?_, fun hne => ?_⟩
    · show s.mem.n = (tally BarrierPlace.missing (update s.pc t .decrement) n : Nat)
      omega
    · show s.count () + tally BarrierPlace.holds (update s.pc t .decrement) n +
        (if s.mem.n = 0 then 0 else 1) = 1
      omega
    · have hzero := h.before hne
      show tally BarrierPlace.after (update s.pc t .decrement) n = 0
      omega
  | _ =>
    rw [hpc] at hcall
    cases hcall

/-- **An arrival** keeps the invariant: the last one brings the token. -/
theorem BarrierOk.arrive (h : BarrierOk n s) (ht : t < n) (hpc : s.pc t = .decrement) :
    BarrierOk n ⟨s.count, s.mem.addFetch.2,
      update s.pc t (if s.mem.addFetch.1 = 0 then .lastUp else .down)⟩ := by
  have hself := Tokens.le_tally BarrierPlace.missing s.pc ht
  have hcounter := h.counter
  have htoken := h.token
  rw [hpc, BarrierPlace.missing] at hself
  have hne : s.mem.n ≠ 0 := by omega
  have hzero := h.before hne
  rw [if_neg hne] at htoken
  by_cases hlast : s.mem.addFetch.1 = 0
  · have hmissing := Tokens.tally_update BarrierPlace.missing s.pc .lastUp ht
    have hholds := Tokens.tally_update BarrierPlace.holds s.pc .lastUp ht
    rw [hpc] at hmissing hholds
    simp only [BarrierPlace.missing, BarrierPlace.holds] at hmissing hholds
    rw [if_pos hlast]
    refine ⟨?_, ?_, fun hne => absurd hlast hne⟩
    · show s.mem.n - 1 = (tally BarrierPlace.missing (update s.pc t .lastUp) n : Nat)
      omega
    · rw [if_pos (show s.mem.addFetch.2.n = 0 from hlast)]
      simp only
      omega
  · have hmissing := Tokens.tally_update BarrierPlace.missing s.pc .down ht
    have hholds := Tokens.tally_update BarrierPlace.holds s.pc .down ht
    have hafter := Tokens.tally_update BarrierPlace.after s.pc .down ht
    rw [hpc] at hmissing hholds hafter
    simp only [BarrierPlace.missing, BarrierPlace.holds, BarrierPlace.after] at hmissing hholds hafter
    rw [if_neg hlast]
    refine ⟨?_, ?_, fun _ => ?_⟩
    · show s.mem.n - 1 = (tally BarrierPlace.missing (update s.pc t .down) n : Nat)
      omega
    · rw [if_neg (show s.mem.addFetch.2.n ≠ 0 from hlast)]
      simp only
      omega
    · show tally BarrierPlace.after (update s.pc t .down) n = 0
      omega

/-- `down` takes the token from the count. -/
theorem BarrierOk.down (h : BarrierOk n s) (ht : t < n) (hpc : s.pc t = .down) (hpos : 0 < s.count ()) :
    BarrierOk n ⟨update s.count () (s.count () - 1), s.mem, update s.pc t .up⟩ := by
  have hmissing := Tokens.tally_update BarrierPlace.missing s.pc .up ht
  have hholds := Tokens.tally_update BarrierPlace.holds s.pc .up ht
  rw [hpc] at hmissing hholds
  simp only [BarrierPlace.missing, BarrierPlace.holds] at hmissing hholds
  have hcounter := h.counter
  have htoken := h.token
  refine ⟨?_, ?_, fun hne => ?_⟩
  · simp only
    omega
  · simp only [Function.update_self]
    omega
  · rw [if_neg hne] at htoken
    omega

/-- `up` gives the token to the count. -/
theorem BarrierOk.up (h : BarrierOk n s) (ht : t < n) (hpc : s.pc t = .lastUp ∨ s.pc t = .up) :
    BarrierOk n ⟨update s.count () (s.count () + 1), s.mem, update s.pc t .returned⟩ := by
  have hmissing := Tokens.tally_update BarrierPlace.missing s.pc .returned ht
  have hholds := Tokens.tally_update BarrierPlace.holds s.pc .returned ht
  have hcounter := h.counter
  have htoken := h.token
  have hzero : s.mem.n = 0 := by
    refine h.counter_zero ht ?_
    rcases hpc with hpc | hpc <;> rw [hpc] <;> exact Nat.one_pos
  have hself : (s.pc t).missing = 0 ∧ (s.pc t).holds = 1 := by
    rcases hpc with hpc | hpc <;> rw [hpc] <;> exact ⟨rfl, rfl⟩
  rw [hself.1] at hmissing
  rw [hself.2] at hholds
  simp only [BarrierPlace.missing, BarrierPlace.holds] at hmissing hholds
  refine ⟨?_, ?_, fun hne => absurd hzero hne⟩
  · simp only
    omega
  · simp only [Function.update_self]
    omega

/-- **Every run** keeps the invariant. -/
theorem barrierOk_of_reached (hn : 1 ≤ n)
    (h : Tokens.Reached Barrier.program n ⟨fun _ => 0, ⟨n⟩, fun _ => BarrierPlace.notCalled⟩ s) :
    BarrierOk n s := by
  apply Tokens.Guarded.invariant (I := BarrierOk n) (barrierOk_start hn) ?_ ?_ ?_ ?_ h
  · exact fun s t c mem p ht hI _ hcall => hI.call (c := c) ht hcall
  · intro s t i next ht hI hcode hpos
    obtain ⟨hpc, rfl⟩ := Barrier.code_down hcode
    exact hI.down ht hpc hpos
  · intro s t i next ht hI hcode
    obtain ⟨hpc, rfl⟩ := Barrier.code_up hcode
    exact hI.up ht hpc
  · intro s t f ht hI hcode _
    obtain ⟨hpc, rfl⟩ := Barrier.code_act hcode
    exact hI.arrive ht hpc

/-! ## The result -/

/-- A thread has not decremented the counter yet. -/
def BarrierPlace.Missing (p : BarrierPlace) : Prop := p = .notCalled ∨ p = .decrement

/-- **Barriers**: when `n` threads call `sync` once each, in every state reached, no `sync` has returned
    unless all `n` threads have decremented the counter; and once all have called `sync` and no thread has a
    step left, all have returned. -/
theorem barrier_laws {n : Nat} (hn : 1 ≤ n) {s : Tasks Unit Barrier BarrierPlace} (h : BarrierRuns n s) :
    (∀ t, t < n → s.pc t = .returned → ∀ u, u < n → ¬ (s.pc u).Missing) ∧
    ((∀ t, t < n → s.pc t ≠ .notCalled) → s.Stuck Barrier.program n → ∀ t, t < n → s.pc t = .returned) := by
  have hok : BarrierOk n (s.view Barrier.program) := barrierOk_of_reached hn (Tasks.Guarded.view h)
  have hphases := Tasks.Guarded.tasksOk h
  -- a thread that has not decremented the counter, or has returned, is not in `down`
  have hat : ∀ {t p}, s.pc t = p → p ≠ .down → s.place Barrier.program t = p := by
    intro t p hpc hne
    refine Tasks.place_at ?_ hpc
    rw [hphases.outside fun i next hcode => hne (hpc ▸ (Barrier.code_down hcode).1)]
    decide
  refine ⟨fun t ht hreturned u hu hmissing => ?_, fun hcalled hstuck t ht => ?_⟩
  · have hzero : s.mem.n = 0 := by
      refine hok.counter_zero (t := t) ht ?_
      show 0 < (s.place Barrier.program t).after
      rw [hat hreturned (by decide)]
      exact Nat.one_pos
    have hcounter : s.mem.n = (tally BarrierPlace.missing (s.place Barrier.program) n : Nat) := hok.counter
    have hle := Tokens.le_tally BarrierPlace.missing (s.place Barrier.program) hu
    have hself : (s.place Barrier.program u).missing = 1 := by
      rcases hmissing with hpc | hpc <;> rw [hat hpc (by decide)] <;> rfl
    omega
  · have hplaces : ∀ u, u < n → s.place Barrier.program u = s.pc u ∧ (s.pc u = .returned ∨
        s.pc u = .down ∧ (s.sem ()).n = 0) := by
      intro u hu
      obtain ⟨hplace, hrest | ⟨-, i, next, hdown, hzero⟩⟩ := hphases.stuck hstuck hu
      · exact ⟨hplace, Or.inl ((Barrier.code_rest hrest).resolve_left (hcalled u hu))⟩
      · exact ⟨hplace, Or.inr ⟨(Barrier.code_down hdown).1, hzero⟩⟩
    rcases (hplaces t ht).2 with hreturned | ⟨-, hzero⟩
    · exact hreturned
    · -- nobody is missing, and nobody has the token
      exfalso
      have hnobody : ∀ w : BarrierPlace → Nat, w .returned = 0 → w .down = 0 →
          tally w (s.place Barrier.program) n = 0 := by
        intro w hreturned hdown
        refine Tokens.tally_eq_zero fun u hu => ?_
        obtain ⟨hplace, hpc | ⟨hpc, -⟩⟩ := hplaces u hu
        · rw [hplace, hpc, hreturned]
        · rw [hplace, hpc, hdown]
      have hcounter : s.mem.n = (tally BarrierPlace.missing (s.place Barrier.program) n : Nat) := hok.counter
      have htoken : (s.sem ()).n + tally BarrierPlace.holds (s.place Barrier.program) n +
          (if s.mem.n = 0 then 0 else 1) = 1 := hok.token
      rw [hnobody BarrierPlace.missing rfl rfl, Int.natCast_zero] at hcounter
      rw [hnobody BarrierPlace.holds rfl rfl, if_pos hcounter] at htoken
      omega

/-- Two threads, the first of which waits for the second. -/
theorem barrier_laws_two : ∃ s, BarrierRuns 2 s ∧
    ((∀ t, t < 2 → s.pc t = .returned → ∀ u, u < 2 → ¬ (s.pc u).Missing) ∧
      ((∀ t, t < 2 → s.pc t ≠ .notCalled) → s.Stuck Barrier.program 2 → ∀ t, t < 2 → s.pc t = .returned)) ∧
    s.pc 0 = .returned ∧ s.pc 1 = .returned := by
  have h₀ : BarrierRuns 2 (Barrier.start 2) := Runs.Guarded.start rfl
  have h₁ := h₀.next (.call 0 ()) rfl
  have h₂ := h₁.next (.step 0) rfl
  have h₃ := h₂.next (.step 0) rfl
  have h₄ := h₃.next (.step 0) rfl
  have h₅ := h₄.next (.call 1 ()) rfl
  have h₆ := h₅.next (.step 1) rfl
  have h₇ := h₆.next (.step 1) rfl
  have h₈ := h₇.next (.step 0) rfl
  have h₉ := h₈.next (.step 0) rfl
  exact ⟨_, h₉, barrier_laws (by decide) h₉, rfl, rfl⟩

end Threads

end BadApple
