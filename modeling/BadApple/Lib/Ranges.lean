/-
  Finite lists of half-open ranges of naturals, and what it means for them to TILE an interval.

  1. **Ranges** — `Range` is `[start, start + len)`; a range of length `0` contains nothing.
  2. **Counting** — `hits rs a` counts the members of `rs` that contain `a`.  Splitting, joining and
     inserting ranges are ADDITIVE in `hits`, so an edit of a list of ranges is verified by one
     linear equation per address instead of by a case analysis on neighbours.
  3. **The bridge** — `tiles_iff_hits`: a list of ranges is pairwise disjoint with union `[lo, hi)`
     exactly when every address of `[lo, hi)` is hit once and no other address is hit at all.
-/
import Mathlib.Data.List.Basic

namespace Ranges

/-! ## Ranges and membership -/

/-- The half-open range `[start, start + len)`. -/
structure Range where
  start : Nat
  len : Nat
deriving DecidableEq, Repr

/-- `r.Has a` — the address `a` lies in `r`. -/
def Range.Has (r : Range) (a : Nat) : Prop := r.start ≤ a ∧ a < r.start + r.len

instance (r : Range) (a : Nat) : Decidable (r.Has a) :=
  inferInstanceAs (Decidable (_ ∧ _))

/-- No address lies in both ranges. -/
def Range.Disjoint (r s : Range) : Prop := ∀ a, r.Has a → ¬ s.Has a

/-! ## Counting the ranges that contain an address -/

/-- `hits rs a` — how many members of `rs` contain `a`. -/
def hits (rs : List Range) (a : Nat) : Nat := rs.countP (fun r => decide (r.Has a))

@[simp] theorem hits_nil (a : Nat) : hits [] a = 0 := rfl

theorem hits_cons (r : Range) (rs : List Range) (a : Nat) :
    hits (r :: rs) a = hits rs a + (if r.Has a then 1 else 0) := by
  simp only [hits, List.countP_cons, decide_eq_true_eq]

@[simp] theorem hits_append (rs ss : List Range) (a : Nat) :
    hits (rs ++ ss) a = hits rs a + hits ss a := List.countP_append

theorem hits_perm {rs ss : List Range} (h : rs.Perm ss) (a : Nat) : hits rs a = hits ss a :=
  h.countP_eq _

/-- A range of length `0` is never hit. -/
theorem not_has_of_len_zero {r : Range} (h : r.len = 0) (a : Nat) : ¬ r.Has a := by
  rintro ⟨h1, h2⟩; omega

/-- **Joining is additive**: a range is hit as often as its two halves together. -/
theorem hits_split (s m n a : Nat) :
    (if (Range.mk s (m + n)).Has a then 1 else 0)
      = (if (Range.mk s m).Has a then 1 else 0)
        + (if (Range.mk (s + m) n).Has a then 1 else 0) := by
  by_cases h1 : (Range.mk s m).Has a
  · have h2 : ¬ (Range.mk (s + m) n).Has a := by
      simp only [Range.Has] at h1 ⊢; omega
    have h3 : (Range.mk s (m + n)).Has a := by
      simp only [Range.Has] at h1 ⊢; omega
    rw [if_pos h1, if_neg h2, if_pos h3]
  · have h3 : (Range.mk s (m + n)).Has a ↔ (Range.mk (s + m) n).Has a := by
      simp only [Range.Has] at h1 ⊢; omega
    rw [if_neg h1, Nat.zero_add, if_congr h3 rfl rfl]

/-- Extending an interval by the range above it. -/
theorem hits_extend {lo m : Nat} (h : lo ≤ m) (n a : Nat) :
    (if lo ≤ a ∧ a < m then 1 else 0) + (if (Range.mk m n).Has a then 1 else 0)
      = if lo ≤ a ∧ a < m + n then 1 else 0 := by
  by_cases hm : (Range.mk m n).Has a
  · have h1 : ¬ (lo ≤ a ∧ a < m) := by
      simp only [Range.Has] at hm; omega
    have h2 : lo ≤ a ∧ a < m + n := by
      simp only [Range.Has] at hm; omega
    rw [if_pos hm, if_neg h1, if_pos h2]
  · have h2 : (lo ≤ a ∧ a < m + n) ↔ (lo ≤ a ∧ a < m) := by
      simp only [Range.Has] at hm; omega
    rw [if_neg hm, Nat.add_zero, if_congr h2 rfl rfl]

theorem hits_pos_iff {rs : List Range} {a : Nat} : 0 < hits rs a ↔ ∃ r ∈ rs, r.Has a := by
  simp only [hits, List.countP_pos_iff, decide_eq_true_eq]

/-- Pairwise disjointness is the same as hitting no address twice. -/
theorem pairwise_disjoint_iff_hits (rs : List Range) :
    rs.Pairwise Range.Disjoint ↔ ∀ a, hits rs a ≤ 1 := by
  induction rs with
  | nil => simp
  | cons r rs ih =>
    rw [List.pairwise_cons, ih]
    constructor
    · rintro ⟨hr, hrs⟩ a
      rw [hits_cons]
      by_cases ha : r.Has a
      · have hz : ¬ 0 < hits rs a := by
          rw [hits_pos_iff]
          rintro ⟨s, hs, hsa⟩
          exact hr s hs a ha hsa
        rw [if_pos ha]; omega
      · rw [if_neg ha]; exact hrs a
    · intro h
      refine ⟨fun s hs a ha hsa => ?_, fun a => ?_⟩
      · have h1 := h a
        have h2 : 0 < hits rs a := hits_pos_iff.mpr ⟨s, hs, hsa⟩
        rw [hits_cons, if_pos ha] at h1; omega
      · have h1 := h a
        rw [hits_cons] at h1; omega

/-! ## Tiling -/

/-- `Tiles rs lo hi` — the members of `rs` are pairwise disjoint and their union is `[lo, hi)`. -/
structure Tiles (rs : List Range) (lo hi : Nat) : Prop where
  disjoint : rs.Pairwise Range.Disjoint
  cover : ∀ a, (∃ r ∈ rs, r.Has a) ↔ lo ≤ a ∧ a < hi

/-- **The counting form of a tiling**: every address of `[lo, hi)` is hit exactly once, every other
    address never. -/
theorem tiles_iff_hits {rs : List Range} {lo hi : Nat} :
    Tiles rs lo hi ↔ ∀ a, hits rs a = if lo ≤ a ∧ a < hi then 1 else 0 := by
  constructor
  · intro h a
    have h1 := (pairwise_disjoint_iff_hits rs).mp h.disjoint a
    have h2 : 0 < hits rs a ↔ lo ≤ a ∧ a < hi := hits_pos_iff.trans (h.cover a)
    split
    · rename_i hin
      have := h2.mpr hin; omega
    · rename_i hout
      have : ¬ 0 < hits rs a := fun hp => hout (h2.mp hp)
      omega
  · intro h
    refine ⟨(pairwise_disjoint_iff_hits rs).mpr fun a => ?_, fun a => ?_⟩
    · rw [h a]; split <;> omega
    · rw [← hits_pos_iff, h a]
      split
      · rename_i hin; exact ⟨fun _ => hin, fun _ => by omega⟩
      · rename_i hout; exact ⟨fun hp => absurd hp (by omega), fun hin => absurd hin hout⟩

/-- A non-empty member of a tiling lies inside the tiled interval. -/
theorem Tiles.bounds {rs : List Range} {lo hi : Nat} (h : Tiles rs lo hi) {r : Range}
    (hr : r ∈ rs) (hpos : 0 < r.len) : lo ≤ r.start ∧ r.start + r.len ≤ hi := by
  have h1 := (h.cover r.start).mp ⟨r, hr, Nat.le_refl _, by omega⟩
  have h2 := (h.cover (r.start + r.len - 1)).mp ⟨r, hr, by omega, by omega⟩
  omega

end Ranges
