/-
  Doubly linked chains: a list of nodes as it is read off two link functions.

  `Linked next prev l` says that `next` and `prev` give each node of `l` its neighbours in `l`, and no
  neighbour at either end; `Chain` adds the two end pointers.  Both are stated through splittings
  `l = a ++ y :: b`, so that using them is one application and an edit is checked node by node.

  1. **Edits** — pushing a node at the front, unlinking one from anywhere, cutting the last one.  Each
     is stated for any new link functions with the right values on the nodes that stay, whatever the
     order of assignments that produced them.
  2. **Walks** — following `next` from the first node for long enough reads the whole list, so a chain
     is finite, acyclic and determined by its links.
-/
import Mathlib.Data.List.Nodup

namespace Chains

universe u

variable {α : Type u} {next prev next' prev' : α → Option α} {l l₁ l₂ : List α} {x : α}

/-! ## Links -/

/-- Each node of `l` has its neighbours in `l` as its links. -/
def Linked (next prev : α → Option α) (l : List α) : Prop :=
  ∀ a y b, l = a ++ y :: b → next y = b.head? ∧ prev y = a.getLast?

theorem Linked.nil : Linked next prev ([] : List α) := by
  intro a y b h
  simp at h

theorem Linked.next_eq (h : Linked next prev (l₁ ++ x :: l₂)) : next x = l₂.head? :=
  (h l₁ x l₂ rfl).1

theorem Linked.prev_eq (h : Linked next prev (l₁ ++ x :: l₂)) : prev x = l₁.getLast? :=
  (h l₁ x l₂ rfl).2

/-- Only the links of the nodes matter. -/
theorem Linked.congr (h : Linked next prev l) (hn : ∀ y ∈ l, next' y = next y)
    (hp : ∀ y ∈ l, prev' y = prev y) : Linked next' prev' l := by
  intro a y b he
  have hy : y ∈ l := by simp [he]
  rw [hn y hy, hp y hy]
  exact h a y b he

/-- A link points into the list. -/
theorem Linked.next_mem (h : Linked next prev l) {y z : α} (hy : y ∈ l) (hz : next y = some z) :
    z ∈ l := by
  obtain ⟨a, b, rfl⟩ := List.append_of_mem hy
  rw [h.next_eq] at hz
  have hzb : z ∈ b := List.mem_of_mem_head? hz
  simp [hzb]

theorem Linked.prev_mem (h : Linked next prev l) {y z : α} (hy : y ∈ l) (hz : prev y = some z) :
    z ∈ l := by
  obtain ⟨a, b, rfl⟩ := List.append_of_mem hy
  rw [h.prev_eq] at hz
  have hza : z ∈ a := List.mem_of_getLast? hz
  simp [hza]

/-! ## Chains with end pointers -/

/-- `l` is read off `next` and `prev` between the end pointers `first` and `last`. -/
structure Chain (next prev : α → Option α) (first last : Option α) (l : List α) : Prop where
  first_eq : first = l.head?
  last_eq : last = l.getLast?
  linked : Linked next prev l
  nodup : l.Nodup

variable {first last : Option α}

theorem Chain.nil : Chain next prev none none ([] : List α) :=
  ⟨rfl, rfl, Linked.nil, List.nodup_nil⟩

/-- Only the links of the nodes matter. -/
theorem Chain.congr (h : Chain next prev first last l) (hn : ∀ y ∈ l, next' y = next y)
    (hp : ∀ y ∈ l, prev' y = prev y) : Chain next' prev' first last l :=
  ⟨h.first_eq, h.last_eq, h.linked.congr hn hp, h.nodup⟩

/-- A chain without a first node is empty. -/
theorem Chain.eq_nil (h : Chain next prev none last l) : l = [] :=
  List.head?_eq_none_iff.1 h.first_eq.symm

/-- In a list without repetitions a node determines what stands on its two sides. -/
theorem not_mem_sides (h : (l₁ ++ x :: l₂).Nodup) : x ∉ l₁ ∧ x ∉ l₂ := by
  rw [List.nodup_append] at h
  obtain ⟨-, h2, h3⟩ := h
  exact ⟨fun hx => h3 x hx x (by simp) rfl, (List.nodup_cons.1 h2).1⟩

/-- **Pushing `x` at the front.**  Its links are set, and the old first node points back to it. -/
theorem Chain.push (h : Chain next prev first last l) (hx : x ∉ l) (hnx : next' x = first)
    (hpx : prev' x = none) (hn : ∀ y ∈ l, next' y = next y)
    (hfirst : ∀ y, first = some y → prev' y = some x)
    (hp : ∀ y ∈ l, first ≠ some y → prev' y = prev y) :
    Chain next' prev' (some x) (some (last.getD x)) (x :: l) := by
  refine ⟨rfl, ?_, ?_, List.nodup_cons.2 ⟨hx, h.nodup⟩⟩
  · rw [h.last_eq, List.getLast?_cons]
  intro a y b he
  cases a with
  | nil =>
    obtain ⟨rfl, rfl⟩ := List.cons.inj he
    exact ⟨hnx.trans h.first_eq, hpx⟩
  | cons z a =>
    obtain ⟨rfl, rfl⟩ := List.cons.inj he
    obtain ⟨hnext, hprev⟩ := h.linked a y b rfl
    refine ⟨by rw [hn y (by simp), hnext], ?_⟩
    cases a with
    | nil => exact hfirst y h.first_eq
    | cons w a =>
      have hne : first ≠ some y := by
        rw [h.first_eq]
        rintro ⟨rfl⟩
        exact (not_mem_sides h.nodup).1 (by simp)
      rw [hp y (by simp) hne, hprev]
      simp [List.getLast?_cons]

/-- **Unlinking `x`.**  Its neighbours are joined, all other nodes keep their links. -/
theorem Chain.unlink (h : Chain next prev first last (l₁ ++ x :: l₂))
    (hleft : ∀ y, l₁.getLast? = some y → next' y = l₂.head?)
    (hright : ∀ y, l₂.head? = some y → prev' y = l₁.getLast?)
    (hn : ∀ y ∈ l₁ ++ l₂, l₁.getLast? ≠ some y → next' y = next y)
    (hp : ∀ y ∈ l₁ ++ l₂, l₂.head? ≠ some y → prev' y = prev y) :
    Chain next' prev' (l₁ ++ l₂).head? (l₁ ++ l₂).getLast? (l₁ ++ l₂) := by
  have hnodup : (l₁ ++ l₂).Nodup := h.nodup.sublist (by simp)
  refine ⟨rfl, rfl, ?_, hnodup⟩
  intro a y b he
  have hy : y ∈ l₁ ++ l₂ := by simp [he]
  obtain ⟨hya, hyb⟩ := not_mem_sides (he ▸ hnodup)
  rcases List.append_eq_append_iff.1 he with ⟨c, rfl, hc⟩ | ⟨c, rfl, hc⟩
  · -- `y` lies in `l₂`, after `c`
    have hold := h.linked (l₁ ++ x :: c) y b (by simp [hc])
    have hne : l₁.getLast? ≠ some y := fun hl => hya (by simp [List.mem_of_getLast? hl])
    refine ⟨by rw [hn y hy hne, hold.1], ?_⟩
    cases c with
    | nil =>
      rw [hright y (by simp [hc])]
      simp
    | cons w c =>
      have hhead : l₂.head? ≠ some y := by
        rw [hc]
        rintro ⟨rfl⟩
        exact hya (by simp)
      rw [hp y hy hhead, hold.2]
      simp [List.getLast?_append]
  · cases c with
    | nil =>
      -- `y` heads `l₂`
      obtain rfl : y :: b = l₂ := hc
      have hold := h.linked (a ++ [] ++ [x]) y b (by simp)
      have hne : (a ++ []).getLast? ≠ some y :=
        fun hl => hya (by simpa using List.mem_of_getLast? hl)
      refine ⟨by rw [hn y hy hne, hold.1], ?_⟩
      rw [hright y rfl, List.append_nil]
    | cons w c =>
      -- `y` lies in `l₁`, before `c`
      obtain ⟨rfl, rfl⟩ := List.cons.inj hc
      have hold := h.linked a y (c ++ x :: l₂) (by simp)
      have hhead : l₂.head? ≠ some y :=
        fun hl => hyb (by simp [List.mem_of_mem_head? hl])
      refine ⟨?_, by rw [hp y hy hhead, hold.2]⟩
      cases c with
      | nil =>
        rw [hleft y (by simp)]
        rfl
      | cons z c =>
        have hlast : (a ++ y :: z :: c).getLast? ≠ some y := by
          intro hl
          have hzc : (z :: c).getLast? = some y := by
            simpa [List.getLast?_append, List.getLast?_cons] using hl
          exact hyb (List.mem_append_left l₂ (List.mem_of_getLast? hzc))
        rw [hn y hy hlast, hold.1]
        rfl

/-! ## Walks -/

/-- The nodes met from `first` along `next`, at most `fuel` of them. -/
def walk (next : α → Option α) : Nat → Option α → List α
  | 0, _ => []
  | _ + 1, none => []
  | fuel + 1, some x => x :: walk next fuel (next x)

/-- **Walking a chain reads its list.** -/
theorem Linked.walk_eq (h : Linked next prev l) :
    ∀ {fuel : Nat} {a b : List α}, l = a ++ b → b.length ≤ fuel → walk next fuel b.head? = b := by
  intro fuel
  induction fuel with
  | zero =>
    intro a b _ hlen
    simpa [walk] using (List.length_eq_zero_iff.1 (Nat.le_zero.1 hlen)).symm
  | succ fuel ih =>
    intro a b he hlen
    cases b with
    | nil => rfl
    | cons y b =>
      have hrest := ih (a := a ++ [y]) (b := b) (by simp [he]) (by simpa using hlen)
      simp only [List.head?_cons, walk]
      rw [(h a y b he).1, hrest]

theorem Chain.walk_eq (h : Chain next prev first last l) {fuel : Nat} (hlen : l.length ≤ fuel) :
    walk next fuel first = l := by
  rw [h.first_eq]
  exact h.linked.walk_eq (List.nil_append l).symm hlen

end Chains
