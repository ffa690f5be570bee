/-
  Tokens at places: where each token is, and what it does to all of them that some are moved.

  A population says which tokens are at each place.  `none` stands for being nowhere, so that coming into
  being and going away are moves as well.
-/

namespace Moves

universe u v

variable {P : Type u} {τ : Type v} [DecidableEq P] [DecidableEq τ] {f f' : P → List τ} {us : List τ}
  {p q o : Option P} {x : τ}

/-- The token `x` is at `p`, once, and nowhere else. -/
def At (f : P → List τ) (x : τ) (p : Option P) : Prop :=
  ∀ r, (f r).count x = if p = some r then 1 else 0

/-- The tokens `us` go from `p` to `q`. -/
def Move (us : List τ) (p q : Option P) (f f' : P → List τ) : Prop :=
  ∀ x r, (f' r).count x + (if p = some r then us.count x else 0)
    = (f r).count x + if q = some r then us.count x else 0

/-! ## Where a token is -/

/-- A token that stands at a place is at that place. -/
theorem At.eq_some {r : P} (h : At f x p) (hx : x ∈ f r) : p = some r := by
  have hpos := List.count_pos_iff.2 hx
  rw [h r] at hpos
  by_cases hp : p = some r
  · exact hp
  · rw [if_neg hp] at hpos
    omega

theorem At.one {r : P} (h : At f x (some r)) : (f r).count x = 1 := by
  rw [h r, if_pos rfl]

/-! ## Moves -/

theorem Move.refl (f : P → List τ) : Move [] p q f f := by
  intro x r
  simp

/-- A move between two places, which leaves all others as they are. -/
theorem Move.of_ends {a b : P} (hab : a ≠ b) (ha : (f a).Perm (us ++ f' a)) (hb : (f' b).Perm (us ++ f b))
    (hne : ∀ r, r ≠ a → r ≠ b → f' r = f r) : Move us (some a) (some b) f f' := by
  intro x r
  have hca := ha.count_eq x
  have hcb := hb.count_eq x
  rw [List.count_append] at hca hcb
  by_cases hrb : r = b
  · rw [hrb, if_neg fun h => hab (Option.some.inj h), if_pos rfl]
    omega
  · rw [if_neg (show some b ≠ some r from fun h => hrb (Option.some.inj h).symm)]
    by_cases hra : r = a
    · rw [hra, if_pos rfl]
      omega
    · rw [if_neg fun h => hra (Option.some.inj h).symm, hne r hra hrb]

/-- Tokens come into being. -/
theorem Move.of_enter {b : P} (hb : (f' b).Perm (us ++ f b)) (hne : ∀ r, r ≠ b → f' r = f r) :
    Move us none (some b) f f' := by
  intro x r
  have hcb := hb.count_eq x
  rw [List.count_append] at hcb
  rw [if_neg (by simp)]
  by_cases hrb : r = b
  · rw [hrb, if_pos rfl]
    omega
  · rw [if_neg fun h => hrb (Option.some.inj h).symm, hne r hrb]

/-- Tokens go away. -/
theorem Move.of_leave {a : P} (ha : (f a).Perm (us ++ f' a)) (hne : ∀ r, r ≠ a → f' r = f r) :
    Move us (some a) none f f' := by
  intro x r
  have hca := ha.count_eq x
  rw [List.count_append] at hca
  rw [if_neg (show (none : Option P) ≠ some r by simp)]
  by_cases hra : r = a
  · rw [hra, if_pos rfl]
    omega
  · rw [if_neg fun h => hra (Option.some.inj h).symm, hne r hra]

/-- What is moved away from a place was there. -/
theorem Move.mem_from {a : P} (h : Move us (some a) q f f') (hq : q ≠ some a) (hx : x ∈ us) :
    x ∈ f a := by
  have hc := h x a
  rw [if_pos rfl, if_neg hq] at hc
  have hpos := List.count_pos_iff.2 hx
  apply List.count_pos_iff.1
  omega

/-- **A token that is not moved** stays where it is. -/
theorem At.move_of_not_mem (h : At f x o) (hm : Move us p q f f') (hx : x ∉ us) : At f' x o := by
  intro r
  have hc := hm x r
  rw [List.count_eq_zero.2 hx, ite_self, ite_self] at hc
  rw [← h r]
  omega

/-- **A token that is moved** is where it goes. -/
theorem At.move_of_mem (h : At f x p) (hm : Move us p q f f') (hone : us.count x = 1) : At f' x q := by
  intro r
  have hc := hm x r
  rw [hone, h r] at hc
  omega

/-- A token that a move takes from a place was there, and is now where it goes. -/
theorem At.move_from {a : P} (h : At f x o) (hm : Move us (some a) q f f') (hq : q ≠ some a)
    (hx : x ∈ us) : o = some a ∧ At f' x q := by
  have ho : o = some a := h.eq_some (hm.mem_from hq hx)
  refine ⟨ho, ?_⟩
  rw [ho] at h
  refine h.move_of_mem hm ?_
  have hc := hm x a
  rw [if_pos rfl, if_neg hq, h.one] at hc
  have hpos := List.count_pos_iff.2 hx
  omega

end Moves
