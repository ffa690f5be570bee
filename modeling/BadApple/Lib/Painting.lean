/-
  Painting into a buffer, place by place.

  `Painted pos b b' R f` says that `b'` is `b` with `f` painted at the places of `R`, where `pos` is where a
  place lies in the buffer.  Paintings of one picture add up, in whatever order and however often its places
  are painted (`Painted.trans`); a painting of all that was painted before hides it (`Painted.over`).
-/
import Mathlib.Logic.Function.Basic

namespace Painting

universe u v w

variable {ι : Type u} {κ : Type v} {β : Type w}

/-- `f` is painted at the places of `R`, and nothing else is changed. -/
structure Painted (pos : ι → κ) (b b' : κ → β) (R : ι → Prop) (f : ι → β) : Prop where
  inside : ∀ i, R i → b' (pos i) = f i
  outside : ∀ k, (∀ i, R i → pos i ≠ k) → b' k = b k

variable {pos : ι → κ} {b b' b'' : κ → β} {R R' : ι → Prop} {f g : ι → β}

theorem Painted.refl (pos : ι → κ) (b : κ → β) (f : ι → β) : Painted pos b b (fun _ => False) f :=
  ⟨fun _ h => h.elim, fun _ _ => rfl⟩

/-- One place. -/
theorem Painted.update [DecidableEq κ] (pos : ι → κ) (b : κ → β) (i : ι) (f : ι → β) :
    Painted pos b (Function.update b (pos i) (f i)) (fun j => j = i) f where
  inside j hj := by
    obtain rfl := hj
    rw [Function.update_self]
  outside k hk := Function.update_of_ne (hk i rfl).symm _ _

/-- **One painting after the other.** -/
theorem Painted.trans (hpos : Function.Injective pos) (h : Painted pos b b' R f)
    (h' : Painted pos b' b'' R' f) : Painted pos b b'' (fun i => R i ∨ R' i) f where
  inside i hi := by
    by_cases hlast : R' i
    · exact h'.inside i hlast
    · rw [h'.outside (pos i) fun j hj heq => hlast (hpos heq ▸ hj)]
      exact h.inside i (hi.resolve_right hlast)
  outside k hk := by
    rw [h'.outside k fun i hi => hk i (Or.inr hi), h.outside k fun i hi => hk i (Or.inl hi)]

/-- What was painted before stays at the places that are not painted over. -/
theorem Painted.over (hpos : Function.Injective pos) (h : Painted pos b b' R g) (h' : Painted pos b' b'' R' f)
    {i : ι} (hi : R i) (hnot : ¬ R' i) : b'' (pos i) = g i := by
  rw [h'.outside (pos i) fun j hj heq => hnot (hpos heq ▸ hj)]
  exact h.inside i hi

end Painting
