/-
  Rows: consecutive intervals, each starting where the one before it stops.

  `Row start stop lo l hi` says that the members of `l`, in order, fill `[lo, hi)` without a gap.  A row
  is cut and joined at any of its members (`row_append`), so an edit in the middle is a statement about
  the middle alone; members of positive length lie apart and are determined by where they start.
-/
import Mathlib.Data.List.Chain

namespace Rows

universe u

variable {α : Type u} {start stop : α → Int} {lo hi : Int} {l l₁ l₂ : List α} {x y : α}

/-- `l` fills `[lo, hi)`, in order. -/
def Row (start stop : α → Int) : Int → List α → Int → Prop
  | lo, [], hi => lo = hi
  | lo, x :: l, hi => start x = lo ∧ Row start stop (stop x) l hi

@[simp] theorem row_nil : Row start stop lo [] hi ↔ lo = hi := Iff.rfl

@[simp] theorem row_cons :
    Row start stop lo (x :: l) hi ↔ start x = lo ∧ Row start stop (stop x) l hi := Iff.rfl

/-- **Cutting and joining.** -/
theorem row_append : ∀ {l₁ : List α} {lo : Int},
    Row start stop lo (l₁ ++ l₂) hi ↔
      ∃ m, Row start stop lo l₁ m ∧ Row start stop m l₂ hi := by
  intro l₁
  induction l₁ with
  | nil =>
    intro lo
    constructor
    · exact fun h => ⟨lo, rfl, h⟩
    · rintro ⟨m, rfl, h⟩
      exact h
  | cons x l₁ ih =>
    intro lo
    rw [List.cons_append, row_cons, ih]
    constructor
    · rintro ⟨hx, m, h1, h2⟩
      exact ⟨m, ⟨hx, h1⟩, h2⟩
    · rintro ⟨m, ⟨hx, h1⟩, h2⟩
      exact ⟨hx, m, h1, h2⟩

/-- A member in the middle. -/
theorem row_middle :
    Row start stop lo (l₁ ++ x :: l₂) hi ↔
      Row start stop lo l₁ (start x) ∧ Row start stop (stop x) l₂ hi := by
  rw [row_append]
  constructor
  · rintro ⟨m, h1, rfl, h2⟩
    exact ⟨h1, h2⟩
  · rintro ⟨h1, h2⟩
    exact ⟨start x, h1, rfl, h2⟩

/-- The members lie inside the interval that is filled. -/
theorem Row.bounds (hlen : ∀ x ∈ l, start x < stop x) :
    ∀ {lo : Int}, Row start stop lo l hi → lo ≤ hi ∧ ∀ x ∈ l, lo ≤ start x ∧ stop x ≤ hi := by
  induction l with
  | nil =>
    rintro lo rfl
    refine ⟨Int.le_refl _, ?_⟩
    simp
  | cons y l ih =>
    rintro lo ⟨hy, h⟩
    have hlt := hlen y (by simp)
    obtain ⟨hle, hin⟩ := ih (fun x hx => hlen x (by simp [hx])) h
    refine ⟨by omega, ?_⟩
    intro x hx
    rcases List.mem_cons.1 hx with rfl | hx
    · omega
    · have := hin x hx
      omega

/-- Members of length `k` and more: there is not room for many. -/
theorem Row.length_le {k : Int} (hlen : ∀ x ∈ l, start x + k ≤ stop x) :
    ∀ {lo : Int}, Row start stop lo l hi → k * l.length ≤ hi - lo := by
  induction l with
  | nil =>
    rintro lo rfl
    simp
  | cons y l ih =>
    rintro lo ⟨hy, h⟩
    have hlt := hlen y (by simp)
    have hrest := ih (fun x hx => hlen x (by simp [hx])) h
    rw [List.length_cons, Int.natCast_add, Int.mul_add]
    omega

/-- Two members lie apart. -/
theorem Row.apart (hlen : ∀ x ∈ l, start x < stop x) :
    ∀ {lo : Int}, Row start stop lo l hi → ∀ x ∈ l, ∀ y ∈ l, x ≠ y →
      stop x ≤ start y ∨ stop y ≤ start x := by
  induction l with
  | nil => simp
  | cons z l ih =>
    rintro lo ⟨hz, h⟩ x hx y hy hne
    have hrest : ∀ x ∈ l, start x < stop x := fun x hx => hlen x (by simp [hx])
    have hin := (Row.bounds hrest h).2
    rcases List.mem_cons.1 hx with hxz | hx'
    · rcases List.mem_cons.1 hy with hyz | hy'
      · exact absurd (hxz.trans hyz.symm) hne
      · exact Or.inl (hxz ▸ (hin y hy').1)
    · rcases List.mem_cons.1 hy with hyz | hy'
      · exact Or.inr (hyz ▸ (hin x hx').1)
      · exact ih hrest h x hx' y hy' hne

/-- Where a member starts determines it. -/
theorem Row.eq_of_start (hlen : ∀ x ∈ l, start x < stop x) (h : Row start stop lo l hi) (hx : x ∈ l)
    (hy : y ∈ l) (hs : start x = start y) : x = y := by
  by_contra hne
  have hlx := hlen x hx
  have hly := hlen y hy
  rcases Row.apart hlen h x hx y hy hne with h | h
  · omega
  · omega

/-- A member stands at one place only. -/
theorem Row.not_mem (hlen : ∀ y ∈ l₁ ++ x :: l₂, start y < stop y)
    (h : Row start stop lo (l₁ ++ x :: l₂) hi) : x ∉ l₁ ++ l₂ := by
  obtain ⟨h1, h2⟩ := row_middle.1 h
  have hx := hlen x (by simp)
  intro hmem
  rcases List.mem_append.1 hmem with hm | hm
  · have := (h1.bounds fun y hy => hlen y (by simp [hy])).2 x hm
    omega
  · have := (h2.bounds fun y hy => hlen y (by simp [hy])).2 x hm
    omega

end Rows
