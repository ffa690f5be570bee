/-
  Loops, and whether they end.

  1. **Runs** — a round of a loop goes on with a new state or leaves with a result.  `run` makes at most
     `fuel` rounds; more fuel does not change what comes out, so `Ends` relates a state to at most one
     result.
  2. **Rules** — what holds at every round holds at the end (`Ends.induct`); a loop whose rounds go down in
     a well-founded order ends (`terminates_of_lt`).
  3. **Positions** — where the rounds move a position that takes finitely many values, the loop ends if no
     position comes a second time (`terminates_of_noReturn`); if the position alone decides whether a round
     goes on, the converse holds as well (`noReturn_of_terminates`).
-/
import Mathlib.Data.Fintype.Pigeonhole
import Mathlib.Logic.Function.Iterate

namespace Loops

universe u v

variable {σ : Type u} {ρ : Type v} {round : σ → σ ⊕ ρ} {s s' : σ} {r r' : ρ} {fuel : Nat}

/-! ## Runs -/

/-- What a loop leaves with; `none` when it is not at its end after `fuel` rounds. -/
def run (round : σ → σ ⊕ ρ) : (fuel : Nat) → σ → Option ρ
  | 0, _ => none
  | fuel + 1, s =>
    match round s with
    | .inl s' => run round fuel s'
    | .inr r => some r

/-- The loop, entered in `s`, leaves with `r`. -/
def Ends (round : σ → σ ⊕ ρ) (s : σ) (r : ρ) : Prop := ∃ fuel, run round fuel s = some r

/-- The loop, entered in `s`, leaves after finitely many rounds. -/
def Terminates (round : σ → σ ⊕ ρ) (s : σ) : Prop := ∃ r, Ends round s r

theorem run_goes (h : round s = .inl s') : run round (fuel + 1) s = run round fuel s' := by
  rw [run, h]

theorem run_leaves (h : round s = .inr r) : run round (fuel + 1) s = some r := by
  rw [run, h]

theorem run_succ : ∀ {fuel : Nat} {s : σ}, run round fuel s = some r → run round (fuel + 1) s = some r := by
  intro fuel
  induction fuel with
  | zero =>
    intro s h
    cases h
  | succ fuel ih =>
    intro s h
    cases hround : round s with
    | inl s' =>
      rw [run_goes hround] at h
      rw [run_goes hround]
      exact ih h
    | inr r' =>
      rw [run_leaves hround] at h
      rw [run_leaves hround, h]

/-- More rounds do not change what comes out. -/
theorem run_of_le (h : run round fuel s = some r) :
    ∀ {fuel' : Nat}, fuel ≤ fuel' → run round fuel' s = some r := by
  intro fuel' hle
  induction hle with
  | refl => exact h
  | step _ ih => exact run_succ ih

theorem Ends.unique (h : Ends round s r) (h' : Ends round s r') : r = r' := by
  obtain ⟨n, hn⟩ := h
  obtain ⟨n', hn'⟩ := h'
  have h₁ := run_of_le hn (Nat.le_max_left n n')
  have h₂ := run_of_le hn' (Nat.le_max_right n n')
  exact Option.some.inj (h₁.symm.trans h₂)

theorem Ends.leaves (h : round s = .inr r) : Ends round s r := ⟨1, run_leaves h⟩

theorem ends_iff_of_goes (h : round s = .inl s') : Ends round s r ↔ Ends round s' r := by
  constructor
  · rintro ⟨fuel, hrun⟩
    cases fuel with
    | zero => cases hrun
    | succ fuel =>
      rw [run_goes h] at hrun
      exact ⟨fuel, hrun⟩
  · rintro ⟨fuel, hrun⟩
    exact ⟨fuel + 1, by rw [run_goes h, hrun]⟩

theorem terminates_iff_of_goes (h : round s = .inl s') : Terminates round s ↔ Terminates round s' :=
  exists_congr fun _ => ends_iff_of_goes h

/-! ## Rules -/

/-- **The rule for results**: `I` is kept by the rounds that go on, and gives `Q` of what the last one leaves
    with. -/
theorem Ends.induct {I : σ → Prop} {Q : ρ → Prop} (hgoes : ∀ s s', I s → round s = .inl s' → I s')
    (hleaves : ∀ s r, I s → round s = .inr r → Q r) (h : Ends round s r) (hs : I s) : Q r := by
  obtain ⟨fuel, hrun⟩ := h
  induction fuel generalizing s with
  | zero => cases hrun
  | succ fuel ih =>
    cases hround : round s with
    | inl s' =>
      rw [run_goes hround] at hrun
      exact ih (hgoes s s' hs hround) hrun
    | inr r' =>
      rw [run_leaves hround] at hrun
      obtain rfl := Option.some.inj hrun
      exact hleaves s r' hs hround

/-- **The rule for termination**: every round that goes on keeps `I` and goes down in a well-founded order. -/
theorem terminates_of_lt {lt : σ → σ → Prop} (hwf : WellFounded lt) {I : σ → Prop}
    (hgoes : ∀ s s', I s → round s = .inl s' → I s' ∧ lt s' s) (hs : I s) : Terminates round s := by
  induction s using hwf.induction with
  | _ s ih =>
    cases hround : round s with
    | inl s' =>
      obtain ⟨hs', hlt⟩ := hgoes s s' hs hround
      exact (terminates_iff_of_goes hround).2 (ih s' hlt hs')
    | inr r => exact ⟨r, Ends.leaves hround⟩

/-! ## Positions -/

/-- From a position on, no position comes again as long as `pass` lets the rounds go on. -/
def NoReturn {π : Type u} (next : π → π) (pass : π → Prop) (p : π) : Prop :=
  ∀ i j, i < j → (∀ k, k < j → pass (next^[k] p)) → next^[i] p ≠ next^[j] p

variable {π : Type u} {next : π → π} {pass : π → Prop} (pos : σ → π)

/-- As long as the positions pass, the rounds go on. -/
theorem terminates_of_not_pass (hgoes : ∀ s s', round s = .inl s' → pos s' = next (pos s))
    (hleaves : ∀ s, ¬ pass (pos s) → ∃ r, round s = .inr r) :
    ∀ (n : Nat) (s : σ), ¬ pass (next^[n] (pos s)) → Terminates round s := by
  intro n
  induction n with
  | zero =>
    intro s hnot
    obtain ⟨r, hr⟩ := hleaves s hnot
    exact ⟨r, Ends.leaves hr⟩
  | succ n ih =>
    intro s hnot
    cases hround : round s with
    | inl s' =>
      rw [terminates_iff_of_goes hround]
      refine ih s' ?_
      rw [hgoes s s' hround, ← Function.iterate_succ_apply]
      exact hnot
    | inr r => exact ⟨r, Ends.leaves hround⟩

/-- Where every position passes, the rounds go on for ever. -/
theorem not_ends_of_pass (hpass : ∀ s, pass (pos s) → ∃ s', round s = .inl s' ∧ pos s' = next (pos s)) :
    ∀ (fuel : Nat) (s : σ), (∀ k, pass (next^[k] (pos s))) → run round fuel s = none := by
  intro fuel
  induction fuel with
  | zero =>
    intro s _
    rfl
  | succ fuel ih =>
    intro s hall
    obtain ⟨s', hround, hpos⟩ := hpass s (hall 0)
    rw [run_goes hround]
    refine ih s' ?_
    intro k
    rw [hpos, ← Function.iterate_succ_apply]
    exact hall (k + 1)

/-- Positions that come a second time come again and again. -/
theorem pass_of_return {p : π} {i j : Nat} (hij : i < j) (hret : next^[i] p = next^[j] p)
    (hpass : ∀ k, k < j → pass (next^[k] p)) : ∀ k, pass (next^[k] p) := by
  intro k
  induction k using Nat.strongRecOn with
  | ind k ih =>
    by_cases hk : k < j
    · exact hpass k hk
    · -- `k` lies behind the return, by as much as `k - (j - i)` behind the first visit
      have hback : next^[k] p = next^[k - (j - i)] p := by
        have h₁ : next^[k] p = next^[k - j] (next^[j] p) := by
          rw [← Function.iterate_add_apply, Nat.sub_add_cancel (by omega)]
        have h₂ : next^[k - (j - i)] p = next^[k - j] (next^[i] p) := by
          rw [← Function.iterate_add_apply]
          congr 1
          omega
        rw [h₁, h₂, hret]
      rw [hback]
      exact ih _ (by omega)

/-- If a position does not come again, some position stops the rounds, there being finitely many. -/
theorem exists_not_pass_of_noReturn {p : π} {S : Set π} (hfin : S.Finite)
    (hin : ∀ k, pass (next^[k] p) → next^[k] p ∈ S) (h : NoReturn next pass p) : ∃ n, ¬ pass (next^[n] p) := by
  by_contra hnot
  have hall : ∀ k, pass (next^[k] p) := by
    intro k
    by_contra hk
    exact hnot ⟨k, hk⟩
  have : Finite S := hfin
  obtain ⟨i, j, hne, heq⟩ :=
    Finite.exists_ne_map_eq_of_infinite fun k : Nat => (⟨next^[k] p, hin k (hall k)⟩ : S)
  have hsame : next^[i] p = next^[j] p := congrArg Subtype.val heq
  rcases Nat.lt_or_gt_of_ne hne with hlt | hgt
  · exact h i j hlt (fun k _ => hall k) hsame
  · exact h j i hgt (fun k _ => hall k) hsame.symm

/-- **A loop over positions ends** if no position comes a second time. -/
theorem terminates_of_noReturn {S : Set π} (hfin : S.Finite) (hS : ∀ p, pass p → p ∈ S)
    (hgoes : ∀ s s', round s = .inl s' → pos s' = next (pos s))
    (hleaves : ∀ s, ¬ pass (pos s) → ∃ r, round s = .inr r) (h : NoReturn next pass (pos s)) :
    Terminates round s := by
  obtain ⟨n, hn⟩ := exists_not_pass_of_noReturn hfin (fun k hk => hS _ hk) h
  exact terminates_of_not_pass pos hgoes hleaves n s hn

/-- **A loop over positions does not end** if one comes a second time, and all positions up to then let it
    go on. -/
theorem noReturn_of_terminates (hpass : ∀ s, pass (pos s) → ∃ s', round s = .inl s' ∧ pos s' = next (pos s))
    (h : Terminates round s) : NoReturn next pass (pos s) := by
  obtain ⟨r, fuel, hrun⟩ := h
  intro i j hij hbefore hret
  rw [not_ends_of_pass pos hpass fuel s (pass_of_return hij hret hbefore)] at hrun
  cases hrun

end Loops
