/-
  Runs of a labelled transition system, and invariants carried along them.

  `Guarded init step ok` is the set of states reached from an initial state by steps each of which
  meets the condition `ok` in the state in which it is taken.  With `ok` constantly true it is plain
  reachability (`Reached`).  Both come with the one induction every safety proof needs.
-/

namespace Runs

universe u v

variable {σ : Type u} {α : Type v} {init : σ → Prop} {step : σ → α → σ → Prop} {ok ok' : σ → α → Prop}

/-- States reached by runs all of whose steps meet `ok` in the state before them. -/
inductive Guarded (init : σ → Prop) (step : σ → α → σ → Prop) (ok : σ → α → Prop) : σ → Prop
  | start {s : σ} : init s → Guarded init step ok s
  | next {s t : σ} {a : α} :
      Guarded init step ok s → ok s a → step s a t → Guarded init step ok t

/-- States reached by any run. -/
def Reached (init : σ → Prop) (step : σ → α → σ → Prop) : σ → Prop :=
  Guarded init step fun _ _ => True

theorem Reached.start {s : σ} (h : init s) : Reached init step s := Guarded.start h

theorem Reached.next {s t : σ} {a : α} (h : Reached init step s) (hs : step s a t) :
    Reached init step t := Guarded.next h trivial hs

/-- **The invariant rule**: what holds initially and is kept by every step that meets `ok` holds in
    every state of a guarded run.  The step may use that the state before it is itself reached. -/
theorem Guarded.invariant {I : σ → Prop} (h0 : ∀ s, init s → I s)
    (hstep : ∀ s a t, Guarded init step ok s → I s → ok s a → step s a t → I t) :
    ∀ {s : σ}, Guarded init step ok s → I s := by
  intro s h
  induction h with
  | start hi => exact h0 _ hi
  | next hs hok hst ih => exact hstep _ _ _ hs ih hok hst

/-- The invariant rule for plain reachability. -/
theorem Reached.invariant {I : σ → Prop} (h0 : ∀ s, init s → I s)
    (hstep : ∀ s a t, Reached init step s → I s → step s a t → I t) :
    ∀ {s : σ}, Reached init step s → I s :=
  Guarded.invariant h0 fun s a t hr hI _ hs => hstep s a t hr hI hs

/-- A run that meets a stronger condition meets a weaker one. -/
theorem Guarded.mono (himp : ∀ s a, ok s a → ok' s a) {s : σ} (h : Guarded init step ok s) :
    Guarded init step ok' s := by
  induction h with
  | start hi => exact Guarded.start hi
  | next _ hok hst ih => exact Guarded.next ih (himp _ _ hok) hst

/-- Folding a partial step function over a list of actions is a run. -/
theorem Reached.foldlM {f : σ → α → Option σ} :
    ∀ {as : List α} {s t : σ}, Reached init (fun s a t => f s a = some t) s →
      as.foldlM f s = some t → Reached init (fun s a t => f s a = some t) t := by
  intro as
  induction as with
  | nil =>
    intro s t hs he
    obtain rfl : s = t := Option.some.inj he
    exact hs
  | cons a as ih =>
    intro s t hs he
    rw [List.foldlM_cons] at he
    cases hf : f s a with
    | none =>
      rw [hf] at he
      simp at he
    | some u =>
      rw [hf] at he
      exact ih (Reached.next hs hf) he

/-- Folding a partial step function that stops where a condition fails is a guarded run. -/
theorem Guarded.foldlM {f : σ → α → Option σ} {ok : σ → α → Bool} :
    ∀ {as : List α} {s t : σ},
      Guarded init (fun s a t => f s a = some t) (fun s a => ok s a = true) s →
      as.foldlM (fun s a => if ok s a then f s a else none) s = some t →
      Guarded init (fun s a t => f s a = some t) (fun s a => ok s a = true) t := by
  intro as
  induction as with
  | nil =>
    intro s t hs he
    obtain rfl : s = t := Option.some.inj he
    exact hs
  | cons a as ih =>
    intro s t hs he
    rw [List.foldlM_cons] at he
    by_cases hok : ok s a = true
    · rw [if_pos hok] at he
      cases hf : f s a with
      | none =>
        rw [hf] at he
        simp at he
      | some u =>
        rw [hf] at he
        exact ih (Guarded.next hs hok hf) he
    · rw [if_neg hok] at he
      simp at he

/-! ## Loops -/

universe w x

/-- **Effects add up along a loop**: each round has an effect `R (V x)` on the state and on what is known
    beside it, effects compose, and so the loop has the effect of all its rounds. -/
theorem foldlM_effect {γ : Type w} {ι : Type x} {step : σ → α → Option σ}
    {R : (ι → Prop) → σ → γ → σ → γ → Prop} {I : σ → γ → Prop} {V : α → ι → Prop}
    (hnil : ∀ s g, I s g → R (fun _ => False) s g s g)
    (htrans : ∀ V₁ V₂ s g s₁ g₁ s₂ g₂, R V₁ s g s₁ g₁ → R V₂ s₁ g₁ s₂ g₂ →
      R (fun i => V₁ i ∨ V₂ i) s g s₂ g₂)
    (hinv : ∀ V s g s' g', R V s g s' g' → I s' g') :
    ∀ {as : List α},
      (∀ a ∈ as, ∀ s g, I s g → ∃ s' g', step s a = some s' ∧ R (V a) s g s' g') →
      ∀ {s : σ} {g : γ}, I s g →
        ∃ s' g', as.foldlM step s = some s' ∧ R (fun i => ∃ a ∈ as, V a i) s g s' g' := by
  intro as
  induction as with
  | nil =>
    intro _ s g hI
    refine ⟨s, g, rfl, ?_⟩
    have hnone : (fun i => ∃ a ∈ ([] : List α), V a i) = fun _ => False := by
      funext i
      simp
    rw [hnone]
    exact hnil s g hI
  | cons a as ih =>
    intro hstep s g hI
    obtain ⟨s₁, g₁, ha, h₁⟩ := hstep a (by simp) s g hI
    obtain ⟨s₂, g₂, has, h₂⟩ := ih (fun b hb => hstep b (by simp [hb])) (hinv _ _ _ _ _ h₁)
    have hsame : (fun i => V a i ∨ ∃ b ∈ as, V b i) = fun i => ∃ b ∈ a :: as, V b i := by
      funext i
      simp
    refine ⟨s₂, g₂, ?_, hsame ▸ htrans _ _ _ _ _ _ _ _ h₁ h₂⟩
    rw [List.foldlM_cons, ha]
    exact has

/-! ## Budgets -/

/-- An operation that costs `c` out of a budget of `n`: it fails if it cannot be paid for, and leaves the
    rest of the budget if it can. -/
def Paid {β : Type w} (n c : Nat) (r : Option β) (P : β → Nat → Prop) : Prop :=
  (∃ b n', r = some b ∧ c + n' = n ∧ P b n') ∨ (n < c ∧ r = none)

/-- Nothing to pay. -/
theorem Paid.pure {β : Type w} {P : β → Nat → Prop} {b : β} {n : Nat} (h : P b n) :
    Paid n 0 (some b) P := Or.inl ⟨b, n, rfl, by omega, h⟩

/-- One after the other. -/
theorem Paid.bind {β : Type w} {γ : Type x} {P : β → Nat → Prop} {Q : γ → Nat → Prop} {r : Option β}
    {f : β → Option γ} {n c d : Nat} (h : Paid n c r P) (hf : ∀ b n', P b n' → Paid n' d (f b) Q) :
    Paid n (c + d) (r.bind f) Q := by
  rcases h with ⟨b, n', rfl, hn, hP⟩ | ⟨hlt, rfl⟩
  · rcases hf b n' hP with ⟨b', n'', hd, hn', hQ⟩ | ⟨hlt, hd⟩
    · exact Or.inl ⟨b', n'', hd, by omega, hQ⟩
    · exact Or.inr ⟨by omega, hd⟩
  · exact Or.inr ⟨by omega, rfl⟩

theorem Paid.mono {β : Type w} {P Q : β → Nat → Prop} {r : Option β} {n c : Nat} (h : Paid n c r P)
    (himp : ∀ b n', P b n' → Q b n') : Paid n c r Q := by
  rcases h with ⟨b, n', hr, hn, hP⟩ | h
  · exact Or.inl ⟨b, n', hr, hn, himp b n' hP⟩
  · exact Or.inr h

/-- An operation and what is made of its result. -/
theorem Paid.bind_some {β : Type w} {γ : Type x} {P : β → Nat → Prop} {Q : γ → Nat → Prop} {r : Option β}
    {f : β → γ} {n c : Nat} (h : Paid n c r P) (hf : ∀ b n', P b n' → Q (f b) n') :
    Paid n c (r.bind fun b => some (f b)) Q := by
  rcases h with ⟨b, n', rfl, hn, hP⟩ | ⟨hlt, rfl⟩
  · exact Or.inl ⟨f b, n', rfl, hn, hf b n' hP⟩
  · exact Or.inr ⟨hlt, rfl⟩

/-- What is there after an operation that succeeded. -/
theorem Paid.of_some {β : Type w} {P : β → Nat → Prop} {r : Option β} {b : β} {n c : Nat}
    (h : Paid n c r P) (hr : r = some b) : ∃ n', c + n' = n ∧ P b n' := by
  rcases h with ⟨b', n', hb', hn, hP⟩ | ⟨-, hnone⟩
  · rw [hr] at hb'
    obtain rfl := Option.some.inj hb'
    exact ⟨n', hn, hP⟩
  · rw [hr] at hnone
    simp at hnone

/-- What can be paid for happens. -/
theorem Paid.exists_some {β : Type w} {P : β → Nat → Prop} {r : Option β} {n c : Nat} (h : Paid n c r P)
    (hc : c ≤ n) : ∃ b n', r = some b ∧ c + n' = n ∧ P b n' := by
  rcases h with h | ⟨hlt, -⟩
  · exact h
  · exact absurd hc (by omega)

/-- An operation succeeds when it can be paid for. -/
theorem Paid.isSome_iff {β : Type w} {P : β → Nat → Prop} {r : Option β} {n c : Nat} (h : Paid n c r P) :
    r.isSome = true ↔ c ≤ n := by
  rcases h with ⟨b, n', rfl, hn, -⟩ | ⟨hlt, rfl⟩
  · simp only [Option.isSome_some, true_iff]
    omega
  · simp only [Option.isSome_none, Bool.false_eq_true, false_iff]
    omega

/-- What all rounds of a loop cost. -/
def total (cost : α → Nat) : List α → Nat
  | [] => 0
  | a :: as => cost a + total cost as

/-- A bound on all rounds. -/
theorem total_le {cost : α → Nat} {b : Nat} (h : ∀ a, cost a ≤ b) (as : List α) :
    total cost as ≤ as.length * b := by
  induction as with
  | nil => exact Nat.zero_le _
  | cons a as ih =>
    have ha := h a
    rw [total, List.length_cons, Nat.succ_mul]
    omega

/-- **A loop is paid for round by round.**  `I` may use which rounds are done; no round is done twice. -/
theorem Paid.foldlM {step : σ → α → Option σ} {cost : α → Nat} {I : (α → Prop) → σ → Nat → Prop} :
    ∀ {as : List α} {D : α → Prop}, as.Nodup → (∀ a ∈ as, ¬ D a) →
      (∀ a ∈ as, ∀ D s n, ¬ D a → I D s n → Paid n (cost a) (step s a) (I fun b => D b ∨ b = a)) →
      ∀ {s : σ} {n : Nat}, I D s n →
        Paid n (total cost as) (as.foldlM step s) (I fun b => D b ∨ b ∈ as) := by
  intro as
  induction as with
  | nil =>
    intro D _ _ _ s n hI
    apply Paid.pure
    have hsame : (fun b => D b ∨ b ∈ ([] : List α)) = D := by
      funext b
      simp
    rw [hsame]
    exact hI
  | cons a as ih =>
    intro D hnodup hnew hstep s n hI
    obtain ⟨hnot, hnodup'⟩ := List.nodup_cons.1 hnodup
    rw [List.foldlM_cons]
    refine Paid.bind (hstep a (by simp) D s n (hnew a (by simp)) hI) fun s' n' hI' => ?_
    have hsame : (fun b => (D b ∨ b = a) ∨ b ∈ as) = fun b => D b ∨ b ∈ a :: as := by
      funext b
      simp [or_assoc]
    rw [← hsame]
    refine ih hnodup' (fun b hb => ?_) (fun b hb => hstep b (by simp [hb])) hI'
    rintro (hD | rfl)
    · exact hnew b (by simp [hb]) hD
    · exact hnot hb

/-- **A loop over a range, paid for round by round**: `I k` holds after `k` rounds, which cost `c k` in all. -/
theorem Paid.range {step : σ → Nat → Option σ} {c : Nat → Nat} {I : Nat → σ → Nat → Prop} {start : Nat}
    (hzero : c 0 = 0) (hmono : ∀ k, c k ≤ c (k + 1)) : ∀ {N : Nat},
    (∀ k, k < N → ∀ s n, I k s n → Paid n (c (k + 1) - c k) (step s (start + k)) (I (k + 1))) →
    ∀ {s : σ} {n : Nat}, I 0 s n → Paid n (c N) ((List.range' start N).foldlM step s) (I N) := by
  intro N
  induction N with
  | zero =>
    intro _ s n h0
    rw [hzero]
    exact Paid.pure h0
  | succ N ih =>
    intro hstep s n h0
    have hlast : c N + (c (N + 1) - c N) = c (N + 1) := Nat.add_sub_cancel' (hmono N)
    rw [List.range'_concat, List.foldlM_append, Nat.one_mul, ← hlast]
    refine Paid.bind (ih (fun k hk => hstep k (Nat.lt_succ_of_lt hk)) h0) fun s' n' hI => ?_
    rw [List.foldlM_cons]
    exact (hstep N (Nat.lt_succ_self N) s' n' hI).bind_some fun _ _ h => h

end Runs
