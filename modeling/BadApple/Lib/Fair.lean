/-
  Infinite runs under a scheduler.

  1. **Runs** — at each time the scheduler says who acts; who cannot act leaves the state as it is.  Every
     state of such a run is reached in the sense of `Runs.Reached` (`states_reached`).
  2. **Settling** — if every step leaves the state as it is or lowers a measure, the state does not change any
     more from some time on (`settles`).
  3. **Fairness** — a scheduler that comes back to everybody then leaves a state that nobody can change
     (`settles_fair`).
-/
import BadApple.Lib.Runs

namespace Fair

universe u v

variable {σ : Type u} {α : Type v} {act : α → σ → Option σ} {sched : Nat → α} {s₀ : σ}

/-- The states of the run. -/
def states (act : α → σ → Option σ) (sched : Nat → α) (s₀ : σ) : Nat → σ
  | 0 => s₀
  | k + 1 => (act (sched k) (states act sched s₀ k)).getD (states act sched s₀ k)

/-- The scheduler comes back to everybody in `P`, again and again. -/
def FairTo (sched : Nat → α) (P : α → Prop) : Prop := ∀ a, P a → ∀ k, ∃ k', k ≤ k' ∧ sched k' = a

theorem states_reached (act : α → σ → Option σ) (sched : Nat → α) (s₀ : σ) : ∀ k,
    Runs.Reached (fun s => s = s₀) (fun s a t => act a s = some t) (states act sched s₀ k) := by
  intro k
  induction k with
  | zero => exact Runs.Reached.start rfl
  | succ k ih =>
    rw [states]
    cases hact : act (sched k) (states act sched s₀ k) with
    | none => exact ih
    | some t => exact ih.next hact

variable {μ : σ → Nat}

/-- From any time on, the state stays or the measure goes down. -/
theorem same_or_lower (hdown : ∀ k a t, act a (states act sched s₀ k) = some t →
    t = states act sched s₀ k ∨ μ t < μ (states act sched s₀ k)) (k : Nat) : ∀ d,
    states act sched s₀ (k + d) = states act sched s₀ k ∨
      μ (states act sched s₀ (k + d)) < μ (states act sched s₀ k) := by
  intro d
  induction d with
  | zero => exact Or.inl rfl
  | succ d ih =>
    rw [← Nat.add_assoc, states]
    cases hact : act (sched (k + d)) (states act sched s₀ (k + d)) with
    | none => exact ih
    | some t =>
      rw [Option.getD_some]
      rcases hdown (k + d) _ t hact with hsame | hlower
      · rw [hsame]
        exact ih
      · rcases ih with heq | hlt
        · rw [heq] at hlower
          exact Or.inr hlower
        · exact Or.inr (Nat.lt_trans hlower hlt)

/-- **Settling**: where every step leaves the state as it is or lowers a measure, the state does not change
    any more from some time on. -/
theorem settles (hdown : ∀ k a t, act a (states act sched s₀ k) = some t →
    t = states act sched s₀ k ∨ μ t < μ (states act sched s₀ k)) :
    ∃ K, ∀ k, K ≤ k → states act sched s₀ k = states act sched s₀ K := by
  have hall : ∀ (m K : Nat), μ (states act sched s₀ K) ≤ m →
      ∃ K, ∀ k, K ≤ k → states act sched s₀ k = states act sched s₀ K := by
    intro m
    induction m with
    | zero =>
      intro K hm
      refine ⟨K, fun k hk => ?_⟩
      rcases same_or_lower hdown K (k - K) with h | h
      · rw [Nat.add_sub_cancel' hk] at h
        exact h
      · omega
    | succ m ih =>
      intro K hm
      by_cases hsame : ∀ k, K ≤ k → states act sched s₀ k = states act sched s₀ K
      · exact ⟨K, hsame⟩
      · obtain ⟨k, hchange⟩ := Classical.not_forall.1 hsame
        obtain ⟨hk, hne⟩ := Classical.not_imp.1 hchange
        rcases same_or_lower hdown K (k - K) with h | h
        · rw [Nat.add_sub_cancel' hk] at h
          exact absurd h hne
        · rw [Nat.add_sub_cancel' hk] at h
          exact ih k (by omega)
  exact hall _ 0 (Nat.le_refl _)

/-- **Fairness**: then nobody to whom the scheduler comes back can change the state any more. -/
theorem settles_fair {P : α → Prop} (hfair : FairTo sched P)
    (hdown : ∀ k a t, act a (states act sched s₀ k) = some t →
      t = states act sched s₀ k ∨ μ t < μ (states act sched s₀ k)) :
    ∃ K, (∀ k, K ≤ k → states act sched s₀ k = states act sched s₀ K) ∧
      ∀ a, P a → ∀ t, act a (states act sched s₀ K) = some t → t = states act sched s₀ K := by
  obtain ⟨K, hK⟩ := settles hdown
  refine ⟨K, hK, fun a ha t ht => ?_⟩
  obtain ⟨k, hk, hsched⟩ := hfair a ha K
  have hnext := hK (k + 1) (by omega)
  rw [states, hsched, hK k hk, ht, Option.getD_some] at hnext
  exact hnext

end Fair
