/-
  The rounds of `Ext2::find`, and that they come to an end (kernel/ext2.cc).

  1. **A round** — `findRound` takes the next component, with what has replaced links so far kept beside it.
  2. **What it does** — `findRound_cases`: it leaves; or it passes over a component and the path gets
     shorter; or it replaces a link, the path may get longer, and the counter, which is below 100, goes up.
  3. **The result** — `find_ends`: the counter and the length of the path go down lexicographically, so the
     loop ends, with what `findLinks` says, after at most 100 links.
-/
import BadApple.Fs.Find
import BadApple.Lib.Loops

namespace BadApple.FileSystem

/-! ## A round -/

/-- What `find` holds at the head of its loop: the counter, the node, and the components from the one in
    hand on; beside it, what has replaced each link. -/
structure Search where
  count : Nat
  node : Nat
  path : List (List UInt8)
  links : List (List (List UInt8))

/-- What a search comes to: what has replaced each link, and the result. -/
abbrev Found := List (List (List UInt8)) × Lookup

/-- One round of the loop of `find`. -/
def findRound (fs : FileSystem) (stack : Nat → Nat → UInt8) (s : Search) : Search ⊕ Found :=
  match s.path with
  | [] => .inr (s.links, .node s.node)
  | str :: path =>
    if s.count ≥ 100 then .inr (s.links, .null)
    else if str.head? = some slash then .inl { s with node := fs.root, path := path }
    else if ¬ (fs.node s.node).isDir then .inr (s.links, .null)
    else
      match fs.findOne s.node str with
      | .stops => .inr (s.links, .stops)
      | .null => .inr (s.links, .null)
      | .node next =>
        if (fs.node next).isSymlink then
          if path ≠ [] then
            match (fs.node next).getSymbol (stack (s.count + 1)) with
            | none => .inr (s.links, .stops)
            | some newPathStr =>
              let newPath := Path.parse (chars newPathStr)
              .inl ⟨s.count + 1, s.node, Path.mergeSymbolicLink path newPath, s.links ++ [newPath]⟩
          else .inl { s with count := s.count + 1, node := next, path := path }
        else .inl { s with node := next, path := path }

/-- The search for a path. -/
def Search.start (dir : Nat) (name : List UInt8) : Search := ⟨0, dir, Path.parse name, []⟩

/-! ## What it does -/

variable {fs : FileSystem} {stack : Nat → Nat → UInt8} {s s' : Search}

/-- What the loop of `find` makes of the rest of a search. -/
def Search.answer (fs : FileSystem) (stack : Nat → Nat → UInt8) (s : Search) : Found :=
  let rest := fs.findLoop stack s.count s.node s.path
  (s.links ++ rest.1, rest.2)

/-- A round goes on to `s'`: it passes over a component, or replaces a link. -/
structure Goes (s s' : Search) : Prop where
  below : s.count < 100
  moves : (s'.links = s.links ∧ s.count ≤ s'.count ∧ s'.count ≤ s.count + 1 ∧ s'.path.length < s.path.length) ∨
    (s'.links.length = s.links.length + 1 ∧ s'.count = s.count + 1)

/-- **What a round does**: it goes on and leaves the answer as it is, or it leaves with the answer, and a
    scan has stopped if the answer is that the search stops. -/
theorem findRound_cases (fs : FileSystem) (stack : Nat → Nat → UInt8) (s : Search) :
    (∃ s', fs.findRound stack s = .inl s' ∧ Goes s s' ∧ s'.answer fs stack = s.answer fs stack) ∨
    ∃ r, fs.findRound stack s = .inr (s.links, r) ∧ s.answer fs stack = (s.links, r) ∧
      (r = .stops → ∃ d n, fs.findOne d n = .stops) := by
  obtain ⟨count, node, path, links⟩ := s
  cases path with
  | nil =>
    refine Or.inr ⟨_, rfl, ?_, fun h => ?_⟩
    · rw [Search.answer, findLoop, List.append_nil]
    · cases h
  | cons str path =>
    rw [findRound, Search.answer, findLoop]
    simp only
    by_cases hcount : count ≥ 100
    · rw [if_pos hcount, if_pos hcount]
      exact Or.inr ⟨_, rfl, by rw [List.append_nil], fun h => by cases h⟩
    rw [if_neg hcount, if_neg hcount]
    have hbelow : count < 100 := by omega
    by_cases hroot : str.head? = some slash
    · rw [if_pos hroot, if_pos hroot]
      exact Or.inl ⟨_, rfl, ⟨hbelow, Or.inl ⟨rfl, Nat.le_refl _, Nat.le_succ _, Nat.lt_succ_self _⟩⟩, rfl⟩
    rw [if_neg hroot, if_neg hroot]
    by_cases hdir : ¬ (fs.node node).isDir = true
    · rw [if_pos hdir, if_pos hdir]
      exact Or.inr ⟨_, rfl, by rw [List.append_nil], fun h => by cases h⟩
    rw [if_neg hdir, if_neg hdir]
    cases hone : fs.findOne node str with
    | stops => exact Or.inr ⟨_, rfl, by rw [List.append_nil], fun _ => ⟨node, str, hone⟩⟩
    | null => exact Or.inr ⟨_, rfl, by rw [List.append_nil], fun h => by cases h⟩
    | node next =>
      simp only
      by_cases hlink : (fs.node next).isSymlink = true
      · rw [if_pos hlink, if_pos hlink]
        by_cases hpath : path = []
        · rw [if_neg (by simpa using hpath), if_neg (by simpa using hpath)]
          exact Or.inl ⟨_, rfl, ⟨hbelow, Or.inl ⟨rfl, Nat.le_succ _, Nat.le_refl _, Nat.lt_succ_self _⟩⟩, rfl⟩
        · rw [if_pos hpath, if_pos hpath, Node.getSymbol_eq]
          refine Or.inl ⟨_, rfl, ⟨hbelow, Or.inr ⟨List.length_append, rfl⟩⟩, ?_⟩
          rw [Search.answer]
          simp only [List.append_assoc, List.singleton_append]
      · rw [if_neg hlink, if_neg hlink]
        exact Or.inl ⟨_, rfl, ⟨hbelow, Or.inl ⟨rfl, Nat.le_refl _, Nat.le_succ _, Nat.lt_succ_self _⟩⟩, rfl⟩

/-! ## The end -/

/-- Links left, then components left. -/
def Search.measure (s : Search) : Nat × Nat := (100 - s.count, s.path.length)

theorem Goes.measure_lt (h : Goes s s') : Prod.Lex (· < ·) (· < ·) s'.measure s.measure := by
  have hbelow := h.below
  rcases h.moves with ⟨-, hle, hle', hlt⟩ | ⟨-, hcount⟩
  · by_cases heq : s'.count = s.count
    · rw [Search.measure, Search.measure, heq]
      exact Prod.Lex.right _ hlt
    · exact Prod.Lex.left _ _ (by omega)
  · exact Prod.Lex.left _ _ (by omega)

/-- No more links have been replaced than were counted, which are at most 100. -/
structure Counted (s : Search) : Prop where
  links : s.links.length ≤ s.count
  count : s.count ≤ 100

theorem Goes.counted (h : Goes s s') (hs : Counted s) : Counted s' := by
  have hbelow := h.below
  have hlinks := hs.links
  rcases h.moves with ⟨heq, hle, hle', -⟩ | ⟨hlen, hcount⟩
  · exact ⟨by rw [heq]; omega, by omega⟩
  · exact ⟨by omega, by omega⟩

/-- **The loop ends** from every state of a search. -/
theorem findRound_terminates (fs : FileSystem) (stack : Nat → Nat → UInt8) (s : Search) :
    Loops.Terminates (fs.findRound stack) s := by
  have hwf : WellFounded fun t t' : Search => Prod.Lex (· < ·) (· < ·) t.measure t'.measure :=
    InvImage.wf Search.measure (WellFounded.prod_lex Nat.lt_wfRel.wf Nat.lt_wfRel.wf)
  refine Loops.terminates_of_lt hwf (I := fun _ => True) ?_ trivial
  intro t t' _ hround
  rcases findRound_cases fs stack t with ⟨u, hu, hgoes, -⟩ | ⟨r, hr, -⟩
  · rw [hround] at hu
    obtain rfl := Sum.inl.inj hu
    exact ⟨trivial, hgoes.measure_lt⟩
  · rw [hround] at hr
    cases hr

/-- What a search that ends has come to. -/
theorem Search.ends_answer {found : Found} (h : Loops.Ends (fs.findRound stack) s found) (hs : Counted s) :
    found = s.answer fs stack ∧ found.1.length ≤ 100 ∧ (found.2 = .stops → ∃ d n, fs.findOne d n = .stops) := by
  refine h.induct (I := fun t => Counted t ∧ t.answer fs stack = s.answer fs stack)
    (Q := fun found => found = s.answer fs stack ∧ found.1.length ≤ 100 ∧
      (found.2 = .stops → ∃ d n, fs.findOne d n = .stops)) ?_ ?_ ⟨hs, rfl⟩
  · rintro t t' ⟨hcounted, hans⟩ hround
    rcases findRound_cases fs stack t with ⟨u, hu, hgoes, hsame⟩ | ⟨r, hr, -⟩
    · rw [hround] at hu
      obtain rfl := Sum.inl.inj hu
      exact ⟨hgoes.counted hcounted, hsame.trans hans⟩
    · rw [hround] at hr
      cases hr
  · rintro t found ⟨hcounted, hans⟩ hround
    rcases findRound_cases fs stack t with ⟨u, hu, -⟩ | ⟨r, hr, hanswer, hstops⟩
    · rw [hround] at hu
      cases hu
    · rw [hround] at hr
      obtain rfl := Sum.inr.inj hr
      exact ⟨hanswer.symm.trans hans, Nat.le_trans hcounted.links hcounted.count, hstops⟩

/-- **`find` terminates** on every path, however the links are arranged: its loop ends with what `findLinks`
    says.  It has replaced at most 100 links, and has come to a node or to null if all scans come to an end.
    -/
theorem find_ends (fs : FileSystem) (stack : Nat → Nat → UInt8) (dir : Nat) (name : List UInt8) :
    ∃ links result, Loops.Ends (fs.findRound stack) (Search.start dir name) (links, result) ∧
      fs.findLinks stack dir name = (links, result) ∧ links.length ≤ 100 ∧
      ((∀ d n, fs.findOne d n ≠ .stops) → result ≠ .stops) := by
  obtain ⟨⟨links, result⟩, hends⟩ := findRound_terminates fs stack (Search.start dir name)
  have hstart : Counted (Search.start dir name) := ⟨Nat.le_refl 0, Nat.zero_le 100⟩
  obtain ⟨hans, hlinks, hstops⟩ := Search.ends_answer hends hstart
  refine ⟨links, result, hends, hans.symm, hlinks, ?_⟩
  intro hscans hresult
  obtain ⟨d, n, hone⟩ := hstops hresult
  exact hscans d n hone

end BadApple.FileSystem
