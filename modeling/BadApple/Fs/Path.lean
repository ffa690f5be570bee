/-
  `Path` — the components of a path (kernel/path.h).

  1. **Strings** — a C string in memory is read up to its NUL; indices are 32-bit words.
  2. **Parsing** — the constructor of `Path` takes a leading `/` as a component of its own, cuts the rest at
     slashes, and skips repeated ones.  A component is the list of its characters.
  3. **Specification** — an absolute path starts with `/`; the names in a path are its pieces between
     slashes that are not empty (`Path.parse_eq`).
-/
import Mathlib.Data.List.Basic

namespace BadApple

/-! ## Strings -/

/-- The characters from `f i` up to the first NUL. -/
def cString (f : Nat → UInt8) : (fuel i : Nat) → List UInt8
  | 0, _ => []
  | fuel + 1, i => if f i = 0 then [] else f i :: cString f fuel (i + 1)

/-- The C string at the start of `f`. -/
def chars (f : Nat → UInt8) : List UInt8 := cString f 4294967296 0

theorem cString_eq_of_nul {f : Nat → UInt8} {l : List UInt8} :
    ∀ {fuel i : Nat}, l.length < fuel → (∀ k (hk : k < l.length), f (i + k) = l[k] ∧ l[k] ≠ 0) →
      f (i + l.length) = 0 → cString f fuel i = l := by
  induction l with
  | nil =>
    intro fuel i hfuel _ hnul
    obtain ⟨fuel, rfl⟩ : ∃ m, fuel = m + 1 := ⟨fuel - 1, by simp at hfuel; omega⟩
    rw [cString, if_pos (show f i = 0 from hnul)]
  | cons c l ih =>
    intro fuel i hfuel hl hnul
    obtain ⟨fuel, rfl⟩ : ∃ m, fuel = m + 1 := ⟨fuel - 1, by simp at hfuel; omega⟩
    obtain ⟨hc, hc0⟩ := hl 0 (by simp)
    have hfi : f i = c := hc
    rw [cString, if_neg (by rw [hfi]; exact hc0), hfi]
    rw [List.length_cons] at hfuel hnul
    congr 1
    refine ih (by omega) ?_ (by rw [← hnul]; congr 1; omega)
    intro k hk
    have hnext := hl (k + 1) (by rw [List.length_cons]; omega)
    rw [show i + 1 + k = i + (k + 1) by omega]
    exact hnext

/-! ## Parsing -/

/-- `'/'`. -/
def slash : UInt8 := 47

/-- The loop of the constructor, with the characters of `path_string` so far; `skipping` says that it is in
    one of the loops over repeated slashes. -/
def Path.parseRest : List UInt8 → List UInt8 → Bool → List (List UInt8)
  | [], cur, _ => if cur = [] then [] else [cur]
  | c :: rest, cur, skipping =>
    if c = slash then
      if skipping then parseRest rest cur true else cur :: parseRest rest [] true
    else parseRest rest (cur ++ [c]) false

/-- `Path(path)`. -/
def Path.parse : List UInt8 → List (List UInt8)
  | [] => []
  | c :: rest => (if c = slash then [[slash]] else []) ++ parseRest (c :: rest) [] true

/-- `path.merge_symbolic_link(link)`. -/
def Path.mergeSymbolicLink (path link : List (List UInt8)) : List (List UInt8) :=
  if link = [] then path else link ++ path

/-! ## Specification -/

/-- Whether a path starts with a slash. -/
def isAbsolute (p : List UInt8) : Bool := p.head? = some slash

/-- The names in a path. -/
def namesOf (p : List UInt8) : List (List UInt8) := (p.splitOn slash).filter fun n => n ≠ []

/-- The component for the root, if there is one. -/
def rootOf (p : List UInt8) : List (List UInt8) := if isAbsolute p then [[slash]] else []

theorem namesOf_slash (p rest : List UInt8) : namesOf (p ++ slash :: rest) = namesOf p ++ namesOf rest := by
  rw [namesOf, List.splitOn_append_cons_self, List.filter_append]
  rfl

theorem namesOf_single {cur : List UInt8} (h : slash ∉ cur) :
    namesOf cur = if cur = [] then [] else [cur] := by
  rw [namesOf, List.splitOn_eq_singleton h]
  by_cases hcur : cur = []
  · rw [hcur]
    rfl
  · rw [if_neg hcur]
    simp [hcur]

theorem slash_not_mem_splitOn {p : List UInt8} : ∀ n ∈ p.splitOn slash, slash ∉ n := by
  induction p with
  | nil => simp
  | cons c rest ih =>
    rw [List.splitOn_cons_eq_if_modifyHead]
    by_cases hc : c = slash
    · rw [if_pos (by simp [hc])]
      intro n hn
      rcases List.mem_cons.1 hn with rfl | hn
      · simp
      · exact ih n hn
    · rw [if_neg (by simpa using hc)]
      cases hsplit : rest.splitOn slash with
      | nil => exact absurd hsplit (List.splitOn_ne_nil _ _)
      | cons m ms =>
        rw [hsplit] at ih
        intro n hn
        rw [List.modifyHead_cons] at hn
        rcases List.mem_cons.1 hn with rfl | hn
        · intro hmem
          rcases List.mem_cons.1 hmem with hmem | hmem
          · exact hc hmem.symm
          · exact ih m (by simp) hmem
        · exact ih n (List.mem_cons_of_mem m hn)

/-- Names are not empty, and have no slash in them. -/
theorem name_of_mem {p n : List UInt8} (h : n ∈ namesOf p) : n ≠ [] ∧ slash ∉ n := by
  rw [namesOf, List.mem_filter] at h
  exact ⟨of_decide_eq_true h.2, slash_not_mem_splitOn n h.1⟩

theorem Path.parseRest_eq : ∀ (p cur : List UInt8) (skipping : Bool), slash ∉ cur →
    (skipping = true → cur = []) → (skipping = false → cur ≠ []) →
    Path.parseRest p cur skipping = namesOf (cur ++ p) := by
  intro p
  induction p with
  | nil =>
    intro cur skipping hcur _ _
    rw [Path.parseRest, List.append_nil, namesOf_single hcur]
  | cons c rest ih =>
    intro cur skipping hcur hskip hnot
    rw [Path.parseRest]
    by_cases hc : c = slash
    · rw [if_pos hc, hc, namesOf_slash]
      cases skipping with
      | true =>
        rw [if_pos rfl, hskip rfl, ih [] true (by simp) (fun _ => rfl) (by simp)]
        rfl
      | false =>
        rw [if_neg (by simp), ih [] true (by simp) (fun _ => rfl) (by simp), namesOf_single hcur,
          if_neg (hnot rfl)]
        rfl
    · rw [if_neg hc, ih (cur ++ [c]) false ?_ (by simp) (by simp), List.append_assoc]
      · rfl
      · intro hmem
        rcases List.mem_append.1 hmem with hmem | hmem
        · exact hcur hmem
        · exact hc (List.mem_singleton.1 hmem).symm

/-- **What the constructor does**: the root if the path is absolute, then the names. -/
theorem Path.parse_eq (p : List UInt8) : Path.parse p = rootOf p ++ namesOf p := by
  cases p with
  | nil => rfl
  | cons c rest =>
    rw [Path.parse, Path.parseRest_eq _ [] true (by simp) (fun _ => rfl) (by simp), List.nil_append]
    simp [rootOf, isAbsolute]

end BadApple
