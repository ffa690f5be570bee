/-
  Threads that share counters: a program in which a thread may wait for a counter to be positive.

  1. **Programs** — a place of the code is a call to come, `down` or `up` of a counter, or an action on the
     shared state.  `down` waits until its counter is positive, and takes one from it in the same step.
  2. **Runs** — any thread takes the next step, and a thread that rests may be given a call.  A condition on
     the actions makes a guarded run.
  3. **Counting** — `tally w` adds up the weights of the places where the threads are.  An invariant of such a
     program is an equation between counters and tallies; a step changes one summand.
-/
import BadApple.Lib.Runs
import BadApple.Lib.Sums

namespace Tokens

open Function (update)

universe u v w x

/-! ## Programs -/

/-- What a thread does at a place: it rests, waits for a counter and takes one from it, adds one to a counter,
    or acts on the shared state. -/
inductive Instr (ι : Type u) (σ : Type v) (π : Type w) where
  | rest
  | down (i : ι) (next : π)
  | up (i : ι) (next : π)
  | act (f : Nat → σ → σ × π)

/-- The code, and how a thread that rests starts a call. -/
structure Program (ι : Type u) (σ : Type v) (π : Type w) (κ : Type x) where
  code : π → Instr ι σ π
  call : κ → σ → π → Option (σ × π)

/-- The counters, the shared state, and where the threads are. -/
structure State (ι : Type u) (σ : Type v) (π : Type w) where
  count : ι → Nat
  mem : σ
  pc : Nat → π

variable {ι : Type u} {σ : Type v} {π : Type w} {κ : Type x} [DecidableEq ι]

/-- One step of thread `t`, one of the first `threads`. -/
inductive Step (P : Program ι σ π κ) (threads : Nat) : State ι σ π → Nat → State ι σ π → Prop
  | call {s : State ι σ π} {t : Nat} {c : κ} {mem : σ} {p : π} (ht : t < threads)
      (hcode : P.code (s.pc t) = .rest) (hcall : P.call c s.mem (s.pc t) = some (mem, p)) :
      Step P threads s t ⟨s.count, mem, update s.pc t p⟩
  | down {s : State ι σ π} {t : Nat} {i : ι} {next : π} (ht : t < threads)
      (hcode : P.code (s.pc t) = .down i next) (hpos : 0 < s.count i) :
      Step P threads s t ⟨update s.count i (s.count i - 1), s.mem, update s.pc t next⟩
  | up {s : State ι σ π} {t : Nat} {i : ι} {next : π} (ht : t < threads)
      (hcode : P.code (s.pc t) = .up i next) :
      Step P threads s t ⟨update s.count i (s.count i + 1), s.mem, update s.pc t next⟩
  | act {s : State ι σ π} {t : Nat} {f : Nat → σ → σ × π} (ht : t < threads)
      (hcode : P.code (s.pc t) = .act f) :
      Step P threads s t ⟨s.count, (f t s.mem).1, update s.pc t (f t s.mem).2⟩

/-- A thread takes an action only where the condition holds. -/
def Allowed (P : Program ι σ π κ) (ok : Nat → σ → π → Prop) (s : State ι σ π) (t : Nat) : Prop :=
  ∀ f, P.code (s.pc t) = .act f → ok t s.mem (s.pc t)

/-- The states reached from `start` when each action meets `ok`. -/
def Guarded (P : Program ι σ π κ) (threads : Nat) (ok : Nat → σ → π → Prop) (start : State ι σ π) :
    State ι σ π → Prop :=
  Runs.Guarded (fun s => s = start) (Step P threads) (Allowed P ok)

/-- The states reached from `start`. -/
def Reached (P : Program ι σ π κ) (threads : Nat) (start : State ι σ π) : State ι σ π → Prop :=
  Guarded P threads (fun _ _ _ => True) start

/-- **The invariant rule**: what holds at the start and is kept by each of the four kinds of steps. -/
theorem Guarded.invariant {P : Program ι σ π κ} {threads : Nat} {ok : Nat → σ → π → Prop} {start : State ι σ π}
    {I : State ι σ π → Prop} (h0 : I start)
    (hcall : ∀ s t c mem p, t < threads → I s → P.code (s.pc t) = .rest →
      P.call c s.mem (s.pc t) = some (mem, p) → I ⟨s.count, mem, update s.pc t p⟩)
    (hdown : ∀ s t i next, t < threads → I s → P.code (s.pc t) = .down i next → 0 < s.count i →
      I ⟨update s.count i (s.count i - 1), s.mem, update s.pc t next⟩)
    (hup : ∀ s t i next, t < threads → I s → P.code (s.pc t) = .up i next →
      I ⟨update s.count i (s.count i + 1), s.mem, update s.pc t next⟩)
    (hact : ∀ s t f, t < threads → I s → P.code (s.pc t) = .act f → ok t s.mem (s.pc t) →
      I ⟨s.count, (f t s.mem).1, update s.pc t (f t s.mem).2⟩)
    {s : State ι σ π} (h : Guarded P threads ok start s) : I s := by
  apply Runs.Guarded.invariant (I := I) ?_ ?_ h
  · rintro s rfl
    exact h0
  · intro s t s' _ hI hok hstep
    cases hstep with
    | call ht hcode hc => exact hcall _ _ _ _ _ ht hI hcode hc
    | down ht hcode hpos => exact hdown _ _ _ _ ht hI hcode hpos
    | up ht hcode => exact hup _ _ _ _ ht hI hcode
    | act ht hcode => exact hact _ _ _ ht hI hcode (hok _ hcode)

/-! ## Counting -/

/-- The weights of the places where the first `threads` threads are, added up. -/
def tally (w : π → Nat) (pc : Nat → π) (threads : Nat) : Nat :=
  Sums.sumTo (fun t => w (pc t)) threads

/-- **One thread moves.** -/
theorem tally_update (w : π → Nat) (pc : Nat → π) (p : π) {t threads : Nat} (ht : t < threads) :
    tally w (update pc t p) threads + w (pc t) = tally w pc threads + w p := by
  have hcomp : (fun u => w (update pc t p u)) = update (fun u => w (pc u)) t (w p) := by
    funext u
    by_cases hu : u = t
    · rw [hu, Function.update_self, Function.update_self]
    · rw [Function.update_of_ne hu, Function.update_of_ne hu]
  unfold tally
  rw [hcomp]
  exact Sums.sumTo_update _ t _ threads ht

/-- A thread's weight is counted. -/
theorem le_tally (w : π → Nat) (pc : Nat → π) {t threads : Nat} (ht : t < threads) :
    w (pc t) ≤ tally w pc threads := Sums.le_sumTo (fun t => w (pc t)) ht

/-- What is counted is somewhere. -/
theorem exists_of_tally_pos {w : π → Nat} {pc : Nat → π} {threads : Nat} (h : 0 < tally w pc threads) :
    ∃ t, t < threads ∧ 0 < w (pc t) := Sums.exists_of_sumTo_pos h

/-- Nobody is where something is counted. -/
theorem tally_eq_zero {w : π → Nat} {pc : Nat → π} {threads : Nat}
    (h : ∀ t, t < threads → w (pc t) = 0) : tally w pc threads = 0 := by
  by_contra hne
  obtain ⟨t, ht, hpos⟩ := exists_of_tally_pos (Nat.pos_of_ne_zero hne)
  rw [h t ht] at hpos
  exact Nat.lt_irrefl 0 hpos

/-- Everybody is at one place. -/
theorem tally_const (w : π → Nat) (p : π) (threads : Nat) : tally w (fun _ => p) threads = threads * w p := by
  unfold tally
  induction threads with
  | zero => rw [Sums.sumTo, Nat.zero_mul]
  | succ n ih => rw [Sums.sumTo, ih, Nat.succ_mul]

end Tokens
