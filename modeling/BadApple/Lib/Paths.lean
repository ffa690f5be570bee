/-
  Runs with their labels, and refinement.

  `Path step s as t`: the steps labelled `as` lead from `s` to `t`.  A function from the states of one system
  to those of another that keeps the label of every step carries whole runs over (`Path.image`); a view of the
  state that only some labels change sees a run of these labels only (`Path.view`).
-/
import Mathlib.Data.List.Forall2

namespace Runs

universe u v w

variable {σ : Type u} {τ : Type w} {α : Type v} {step : σ → α → σ → Prop} {step' : τ → α → τ → Prop}
  {s t u : σ} {a : α} {as bs : List α}

/-- The steps labelled `as` lead from one state to the other. -/
inductive Path (step : σ → α → σ → Prop) : σ → List α → σ → Prop
  | nil (s : σ) : Path step s [] s
  | cons {s t u : σ} {a : α} {as : List α} : step s a t → Path step t as u → Path step s (a :: as) u

theorem Path.single (h : step s a t) : Path step s [a] t := .cons h (.nil t)

/-- One run after the other. -/
theorem Path.append (h : Path step s as t) (h' : Path step t bs u) : Path step s (as ++ bs) u := by
  induction h with
  | nil => exact h'
  | cons hstep _ ih => exact .cons hstep (ih h')

/-- What every step keeps holds at the end of a run. -/
theorem Path.invariant {I : σ → Prop} (hstep : ∀ s a t, I s → step s a t → I t) (h : Path step s as t)
    (hs : I s) : I t := by
  induction h with
  | nil => exact hs
  | cons ha _ ih => exact ih (hstep _ _ _ hs ha)

/-- **Refinement of runs**: `f` maps every step from a state that meets the invariant to a step with the
    same label, and so it maps every run to a run with the same labels. -/
theorem Path.image {f : σ → τ} {I : σ → Prop} (hkeep : ∀ s a t, I s → step s a t → I t)
    (hsim : ∀ s a t, I s → step s a t → step' (f s) a (f t)) (h : Path step s as t) (hs : I s) :
    Path step' (f s) as (f t) := by
  induction h with
  | nil => exact .nil _
  | cons ha _ ih => exact .cons (hsim _ _ _ hs ha) (ih (hkeep _ _ _ hs ha))

/-- **What a view sees of a run**: the steps of `mine` move the view as `step'` says, the others that may
    occur leave it alone. -/
theorem Path.view {f : σ → τ} {ok : α → Prop} (mine : α → Bool)
    (hmine : ∀ s a t, ok a → step s a t → mine a = true → step' (f s) a (f t))
    (hother : ∀ s a t, ok a → step s a t → mine a = false → f t = f s) (h : Path step s as t)
    (hok : ∀ a ∈ as, ok a) : Path step' (f s) (as.filter mine) (f t) := by
  induction h with
  | nil => exact .nil _
  | @cons s t u a as ha _ ih =>
    obtain ⟨hoka, hokas⟩ := List.forall_mem_cons.1 hok
    cases hm : mine a with
    | true =>
      rw [List.filter_cons_of_pos hm]
      exact .cons (hmine _ _ _ hoka ha hm) (ih hokas)
    | false =>
      rw [List.filter_cons_of_neg (by rw [hm]; decide), ← hother _ _ _ hoka ha hm]
      exact ih hokas

/-- **Runs that ask the same**: when labels that ask the same are answered the same, and lead to the same
    state, two runs from one state that ask the same have the same answers. -/
theorem Path.determined {same : α → α → Prop}
    (hdet : ∀ s a b t u, same a b → step s a t → step s b u → a = b ∧ t = u) (h : Path step s as t)
    (h' : Path step s bs u) (hsame : List.Forall₂ same as bs) : as = bs ∧ t = u := by
  induction h generalizing bs with
  | nil =>
    cases hsame
    cases h'
    exact ⟨rfl, rfl⟩
  | cons ha _ ih =>
    cases hsame with
    | cons hab hrest =>
      cases h' with
      | cons hb hbs =>
        obtain ⟨rfl, rfl⟩ := hdet _ _ _ _ _ hab ha hb
        obtain ⟨rfl, rfl⟩ := ih hbs hrest
        exact ⟨rfl, rfl⟩

end Runs
