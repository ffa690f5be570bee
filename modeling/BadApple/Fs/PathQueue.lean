/-
  `Path` and `PathString` in memory (kernel/path.h).

  1. **Strings** — a `PathString` grows its buffer by half when it is full; a write past the end of a buffer
     is `overrun`.  The heap gives no more than it has.
  2. **Paths** — a queue of `PathString`s over their `next`.  The constructor reads the string by a 32-bit
     index, in a loop with a loop over repeated slashes in it, and one such loop before it.
  3. **Specification** — `Yields`: what one gets through repeated `remove()`.
  4. **Refinement** — `construct_refines`: the constructor puts on the queue what `Path.parse` has on its
     list, by induction on the characters that are left.
  5. **The result** — `path_spec`: these are the root, if the path is absolute, and the names in the path;
     joined again they are parsed as the same; a link goes before what is left; and no buffer is overrun.
-/
import BadApple.Fs.Directory
import BadApple.Threads.Queue

namespace BadApple

open Function (update)

open Threads (Queue OnQueue)

/-! ## Strings -/

/-- `HEAP_SIZE`. -/
def heapSize : Nat := 5242880

/-- What keeps a path from being made: the panic of `new`, a write past the end of a buffer, the use of a null
    pointer, or an endless loop. -/
inductive PathError where
  | outOfMemory
  | overrun
  | null
  | hangs

/-- `PathString`, less `next`. -/
structure PathString where
  name : Nat → UInt8
  size : Nat
  maxSize : Nat

namespace PathString

/-- `PathString()`. -/
def make : PathString := ⟨fun _ => 0, 0, 10⟩

/-- `name[size++] = c`. -/
def put (s : PathString) (c : UInt8) : Except PathError PathString :=
  if ¬ s.size < s.maxSize then .error .overrun
  else .ok { s with name := update s.name s.size c, size := u32 (s.size + 1) }

/-- `add_char(c)`. -/
def addChar (s : PathString) (c : UInt8) : Except PathError PathString :=
  if u32 (s.size + 1) ≥ s.maxSize then
    let maxSize := u32 (s.maxSize * 3 / 2)
    if heapSize < maxSize then .error .outOfMemory
    else if ¬ s.size ≤ maxSize then .error .overrun  -- the loop that copies
    else put ⟨fun i => if i < s.size then s.name i else 0, s.size, maxSize⟩ c
  else s.put c

/-- The characters that `get()` copies. -/
def get (s : PathString) : List UInt8 := (List.range s.size).map s.name

/-- `isEmpty()`. -/
def isEmpty (s : PathString) : Bool := s.size = 0

end PathString

/-! ## Paths -/

/-- The `PathString`s that were made, and their `next`. -/
structure Strings where
  next : Nat → Option Nat
  string : Nat → PathString
  made : Nat

/-- Another `PathString`. -/
def Strings.make (m : Strings) : Nat × Strings :=
  (m.made, ⟨update m.next m.made none, update m.string m.made PathString.make, m.made + 1⟩)

namespace Path

/-- `add`, word by word the `add` of a `Queue`. -/
def add (m : Strings) (path : Queue) (s : Nat) : Except PathError (Strings × Queue) :=
  match path.add m.next s with
  | none => .error .null
  | some (path, next) => .ok ({ m with next := next }, path)

/-- `remove`, word by word that of a `Queue`. -/
def remove (m : Strings) (path : Queue) : Option Nat × Queue := path.remove m.next

/-- `add_char` to the string `s`. -/
def addCharTo (m : Strings) (s : Nat) (c : UInt8) : Except PathError Strings :=
  match (m.string s).addChar c with
  | .error e => .error e
  | .ok string => .ok { m with string := update m.string s string }

/-- A loop over slashes, from the index `i` on. -/
def skipRound (p : Nat → UInt8) (i : Nat) : Nat ⊕ Nat := if p i = slash then .inl (u32 (i + 1)) else .inr i

/-- As many rounds as there are indices: a loop over the string that is not at its end then has none. -/
def rounds : Nat := 4294967297

/-- The main loop of the constructor between two rounds. -/
structure Parser where
  i : Nat
  strings : Strings
  path : Queue
  pathString : Nat

/-- A round of the main loop. -/
def parseRound (p : Nat → UInt8) (s : Parser) : Parser ⊕ Except PathError Parser :=
  if p s.i ≠ 0 then
    if p s.i = slash then
      match add s.strings s.path s.pathString with
      | .error e => .inr (.error e)
      | .ok (strings, path) =>
        let (pathString, strings) := strings.make
        match Loops.run (skipRound p) rounds (u32 (s.i + 1)) with
        | none => .inr (.error .hangs)
        | some i => .inl ⟨i, strings, path, pathString⟩
    else
      match addCharTo s.strings s.pathString (p s.i) with
      | .error e => .inr (.error e)
      | .ok strings => .inl { s with i := u32 (s.i + 1), strings := strings }
  else .inr (.ok s)

/-- The first part of the constructor: the root. -/
def addRoot (p : Nat → UInt8) (m : Strings) : Except PathError (Strings × Queue) :=
  if p 0 = slash then
    let (s, m) := m.make
    match addCharTo m s slash with
    | .error e => .error e
    | .ok m => add m ⟨none, none⟩ s
  else .ok (m, ⟨none, none⟩)

/-- The last part: the string in hand, if there is something in it. -/
def finish (s : Parser) : Except PathError (Strings × Queue) :=
  if (s.strings.string s.pathString).isEmpty then .ok (s.strings, s.path)
  else add s.strings s.path s.pathString

/-- `Path(path)`. -/
def construct (p : Nat → UInt8) (m : Strings) : Except PathError (Strings × Queue) :=
  if p 0 = 0 then .ok (m, ⟨none, none⟩)
  else
    match addRoot p m with
    | .error e => .error e
    | .ok (m, path) =>
      match Loops.run (skipRound p) rounds 0 with
      | none => .error .hangs
      | some i =>
        let (pathString, m) := m.make
        match Loops.run (parseRound p) rounds ⟨i, m, path, pathString⟩ with
        | none => .error .hangs
        | some (.error e) => .error e
        | some (.ok s) => finish s

/-- `merge_symbolic_link(link)`.  The copy that is passed leaves the strings as they are when it is
    destroyed. -/
def merge (m : Strings) (path link : Queue) : Strings × Queue :=
  match link.first, link.last with
  | some first, some last => ({ m with next := update m.next last path.first }, ⟨some first, path.last⟩)
  | _, _ => (m, path)

/-! ## Specification -/

/-- What one gets through repeated `remove()`: the characters of one string after the other, then null. -/
def Yields (m : Strings) : (path : Queue) → List (List UInt8) → Prop
  | path, [] => (remove m path).1 = none
  | path, c :: comps =>
    ∃ s, (remove m path).1 = some s ∧ (m.string s).get = c ∧ Yields m (remove m path).2 comps

/-- The path has the strings `ids`, which hold `comps`; they were made after the first `old`. -/
structure Holds (m : Strings) (old : Nat) (path : Queue) (ids : List Nat) (comps : List (List UInt8)) :
    Prop where
  queue : OnQueue m.next path ids
  nodup : ids.Nodup
  made : ∀ s ∈ ids, old ≤ s ∧ s < m.made
  names : ids.map (fun s => (m.string s).get) = comps

/-- The strings that were made first are as they were. -/
structure Kept (old : Nat) (m m' : Strings) : Prop where
  made : m.made ≤ m'.made
  same : ∀ s, s < old → m'.next s = m.next s ∧ m'.string s = m.string s

/-- The components of a path. -/
def components (name : List UInt8) : List (List UInt8) := rootOf name ++ namesOf name

end Path

/-! ## Growing -/

namespace PathString

variable {s s' : PathString} {c : UInt8}

/-- A string whose characters, and one more, fit into its buffer, which fits into the heap. -/
structure Fits (s : PathString) : Prop where
  size : s.size < s.maxSize
  ten : 10 ≤ s.maxSize
  heap : s.maxSize ≤ heapSize

theorem fits_make : make.Fits := ⟨by decide, by decide, by decide⟩

@[simp] theorem get_make : make.get = [] := rfl

theorem get_length (s : PathString) : s.get.length = s.size := by
  rw [get, List.length_map, List.length_range]

theorem isEmpty_iff : s.isEmpty = true ↔ s.get = [] := by
  rw [isEmpty, decide_eq_true_iff, ← List.length_eq_zero_iff, get_length]

/-- Writing the next character. -/
theorem put_eq (h : s.Fits) : ∃ s', s.put c = .ok s' ∧ s'.size = s.size + 1 ∧ s'.maxSize = s.maxSize ∧
    s'.get = s.get ++ [c] := by
  have hsize := h.size
  have hheap := h.heap
  rw [heapSize] at hheap
  have hnext : u32 (s.size + 1) = s.size + 1 := u32_of_lt (by omega)
  rw [put, if_neg (by omega), hnext]
  refine ⟨_, rfl, rfl, rfl, ?_⟩
  show (List.range (s.size + 1)).map (update s.name s.size c) = (List.range s.size).map s.name ++ [c]
  rw [List.range_succ, List.map_append, List.map_singleton, Function.update_self]
  congr 1
  refine List.map_congr_left fun i hi => Function.update_of_ne ?_ _ _
  exact Nat.ne_of_lt (List.mem_range.1 hi)

/-- **`add_char`** adds the character and keeps the string in its buffer; only a string of millions of
    characters can run out of memory. -/
theorem addChar_cases (h : s.Fits) (c : UInt8) :
    (s.addChar c = .error .outOfMemory ∧ 3495252 < s.size) ∨
    ∃ s', s.addChar c = .ok s' ∧ s'.Fits ∧ s'.get = s.get ++ [c] := by
  have hsize := h.size
  have hten := h.ten
  have hheap := h.heap
  have hbytes : heapSize = 5242880 := rfl
  rw [addChar, u32_of_lt (n := s.size + 1) (by omega), u32_of_lt (n := s.maxSize * 3 / 2) (by omega)]
  by_cases hfull : s.size + 1 ≥ s.maxSize
  · rw [if_pos hfull]
    simp only
    by_cases hmem : heapSize < s.maxSize * 3 / 2
    · rw [if_pos hmem]
      exact Or.inl ⟨rfl, by omega⟩
    · -- the new buffer is larger by a few characters at least
      rw [if_neg hmem, if_neg (by omega)]
      have hgrown : Fits ⟨fun i => if i < s.size then s.name i else 0, s.size, s.maxSize * 3 / 2⟩ :=
        ⟨show s.size < s.maxSize * 3 / 2 by omega, show 10 ≤ s.maxSize * 3 / 2 by omega,
          show s.maxSize * 3 / 2 ≤ heapSize by omega⟩
      obtain ⟨s', hput, hsize', hmax', hget⟩ := put_eq (c := c) hgrown
      refine Or.inr ⟨s', hput, ⟨?_, ?_, ?_⟩, ?_⟩
      · rw [hsize', hmax']
        show s.size + 1 < s.maxSize * 3 / 2
        omega
      · rw [hmax']
        exact hgrown.ten
      · rw [hmax']
        exact hgrown.heap
      · rw [hget, get, get]
        congr 1
        exact List.map_congr_left fun i hi => if_pos (List.mem_range.1 hi)
  · rw [if_neg hfull]
    obtain ⟨s', hput, hsize', hmax', hget⟩ := put_eq (c := c) h
    refine Or.inr ⟨s', hput, ⟨by omega, by omega, by omega⟩, hget⟩

end PathString

/-! ## Strings on a path -/

namespace Path

variable {m m' m'' : Strings} {old : Nat} {path path' : Queue} {ids : List Nat} {comps : List (List UInt8)}
variable {s : Nat} {cur : List UInt8}

theorem Kept.refl (old : Nat) (m : Strings) : Kept old m m := ⟨Nat.le_refl _, fun _ _ => ⟨rfl, rfl⟩⟩

theorem Kept.trans (h : Kept old m m') (h' : Kept old m' m'') : Kept old m m'' := by
  refine ⟨Nat.le_trans h.made h'.made, fun s hs => ?_⟩
  exact ⟨(h'.same s hs).1.trans (h.same s hs).1, (h'.same s hs).2.trans (h.same s hs).2⟩

/-- What a path holds depends on its strings only. -/
theorem Holds.congr (h : Holds m old path ids comps) (hnext : ∀ s ∈ ids, m'.next s = m.next s)
    (hstring : ∀ s ∈ ids, m'.string s = m.string s) (hmade : m.made ≤ m'.made) :
    Holds m' old path ids comps := by
  refine ⟨h.queue.congr hnext, h.nodup, ?_, ?_⟩
  · intro s hs
    have := h.made s hs
    omega
  · rw [← h.names]
    exact List.map_congr_left fun s hs => by rw [hstring s hs]

/-- A string in hand: it was made after the first `old`, and is on no path yet. -/
structure InHand (m : Strings) (old : Nat) (ids : List Nat) (s : Nat) (cur : List UInt8) : Prop where
  made : old ≤ s ∧ s < m.made
  apart : s ∉ ids
  fits : (m.string s).Fits
  chars : (m.string s).get = cur

/-- **Another string** is empty, and on no path. -/
theorem make_inHand (h : Holds m old path ids comps) (hold : old ≤ m.made) :
    InHand m.make.2 old ids m.make.1 [] ∧ Holds m.make.2 old path ids comps ∧ Kept old m m.make.2 := by
  have hnew : ∀ s ∈ ids, s ≠ m.made := fun s hs => Nat.ne_of_lt (h.made s hs).2
  refine ⟨⟨⟨hold, Nat.lt_succ_self _⟩, fun hmem => hnew _ hmem rfl, ?_, ?_⟩, ?_, ?_⟩
  · show (update m.string m.made PathString.make m.made).Fits
    rw [Function.update_self]
    exact PathString.fits_make
  · show (update m.string m.made PathString.make m.made).get = []
    rw [Function.update_self]
    rfl
  · exact h.congr (fun s hs => Function.update_of_ne (hnew s hs) _ _)
      (fun s hs => Function.update_of_ne (hnew s hs) _ _) (Nat.le_succ _)
  · refine ⟨Nat.le_succ _, fun s hs => ?_⟩
    exact ⟨Function.update_of_ne (by omega) _ _, Function.update_of_ne (by omega) _ _⟩

/-- **`add`** puts the string in hand behind the others. -/
theorem add_holds (h : Holds m old path ids comps) (hs : InHand m old ids s cur) :
    ∃ m' path', add m path s = .ok (m', path') ∧ Holds m' old path' (ids ++ [s]) (comps ++ [cur]) ∧
      Kept old m m' ∧ m'.made = m.made := by
  obtain ⟨path', next', hadd, hqueue, hnext⟩ := h.queue.add h.nodup hs.apart
  refine ⟨{ m with next := next' }, path', by rw [add, hadd], ⟨hqueue, ?_, ?_, ?_⟩, ?_, rfl⟩
  · rw [List.nodup_append]
    refine ⟨h.nodup, List.nodup_singleton s, ?_⟩
    rintro a ha b hb rfl
    rw [List.mem_singleton.1 hb] at ha
    exact hs.apart ha
  · intro t ht
    rcases List.mem_append.1 ht with ht | ht
    · exact h.made t ht
    · rw [List.mem_singleton.1 ht]
      exact hs.made
  · rw [List.map_append, List.map_singleton, h.names, hs.chars]
  · refine ⟨Nat.le_refl _, fun t ht => ⟨hnext t ?_ ?_, rfl⟩⟩
    · have := hs.made
      omega
    · intro hmem
      have := h.made t hmem
      omega

/-- **`add_char`** to the string in hand. -/
theorem addCharTo_cases (h : Holds m old path ids comps) (hs : InHand m old ids s cur) (c : UInt8) :
    (addCharTo m s c = .error .outOfMemory ∧ 3495252 < cur.length) ∨
    ∃ m', addCharTo m s c = .ok m' ∧ InHand m' old ids s (cur ++ [c]) ∧ Holds m' old path ids comps ∧
      Kept old m m' ∧ m'.made = m.made := by
  have hlen : cur.length = (m.string s).size := by rw [← hs.chars, PathString.get_length]
  rw [addCharTo]
  rcases PathString.addChar_cases hs.fits c with ⟨hmem, hlong⟩ | ⟨string, hadd, hfits, hget⟩
  · rw [hmem]
    exact Or.inl ⟨rfl, by omega⟩
  · rw [hadd]
    refine Or.inr ⟨{ m with string := update m.string s string }, rfl, ⟨hs.made, hs.apart, ?_, ?_⟩, ?_, ?_, rfl⟩
    · show (update m.string s string s).Fits
      rw [Function.update_self]
      exact hfits
    · show (update m.string s string s).get = cur ++ [c]
      rw [Function.update_self, hget, hs.chars]
    · refine h.congr (fun _ _ => rfl) (fun t ht => Function.update_of_ne ?_ _ _) (Nat.le_refl _)
      rintro rfl
      exact hs.apart ht
    · refine ⟨Nat.le_refl _, fun t ht => ⟨rfl, Function.update_of_ne ?_ _ _⟩⟩
      have := hs.made
      omega

/-- **Repeated `remove()`** yields what a path holds. -/
theorem Holds.yields : ∀ {ids : List Nat} {comps : List (List UInt8)} {path : Queue},
    Holds m old path ids comps → Yields m path comps := by
  intro ids
  induction ids with
  | nil =>
    intro comps path h
    obtain rfl : [] = comps := h.names
    exact h.queue.remove.1
  | cons s ids ih =>
    intro comps path h
    obtain rfl : (m.string s).get :: ids.map (fun s => (m.string s).get) = comps := h.names
    obtain ⟨hfirst, hrest⟩ := h.queue.remove
    refine ⟨s, hfirst, rfl, ih ⟨hrest, (List.nodup_cons.1 h.nodup).2, ?_, rfl⟩⟩
    exact fun t ht => h.made t (List.mem_cons_of_mem s ht)

/-! ## The loops -/

open Ext2 (CString)

variable {p : Nat → UInt8} {name : List UInt8} {i : Nat} {done : List (List UInt8)}

/-- The character at an index, and those behind it. -/
theorem drop_eq (hp : CString p name) (hi : i < name.length) : name.drop i = p i :: name.drop (i + 1) := by
  rw [hp.chars i hi, List.drop_eq_getElem_cons hi]

theorem char_ne_zero (hp : CString p name) (hi : i < name.length) : p i ≠ 0 := by
  rw [hp.chars i hi]
  intro h0
  exact hp.noNul (h0 ▸ List.getElem_mem hi)

/-- **A loop over slashes** stops at the first character that is none, or at the end. -/
theorem skip_eq (hp : CString p name) (hlen : name.length < 4294967296) :
    ∀ (left fuel i : Nat), i + left = name.length → left < fuel →
      ∃ j, Loops.run (skipRound p) fuel i = some j ∧ i ≤ j ∧ j ≤ name.length ∧
        name.drop j = (name.drop i).dropWhile (fun c => c = slash) := by
  intro left
  induction left with
  | zero =>
    intro fuel i hi hfuel
    obtain ⟨fuel, rfl⟩ : ∃ f, fuel = f + 1 := ⟨fuel - 1, by omega⟩
    have hnul : p i = 0 := by
      rw [show i = name.length by omega]
      exact hp.nul
    refine ⟨i, Loops.run_leaves (if_neg (by rw [hnul]; decide)), Nat.le_refl i, by omega, ?_⟩
    rw [List.drop_of_length_le (by omega)]
    rfl
  | succ left ih =>
    intro fuel i hi hfuel
    obtain ⟨fuel, rfl⟩ : ∃ f, fuel = f + 1 := ⟨fuel - 1, by omega⟩
    rw [drop_eq hp (by omega : i < name.length)]
    by_cases hc : p i = slash
    · obtain ⟨j, hrun, hij, hj, hdrop⟩ := ih fuel (i + 1) (by omega) (by omega)
      have hround : skipRound p i = .inl (i + 1) := by rw [skipRound, if_pos hc, u32_of_lt (by omega)]
      refine ⟨j, by rw [Loops.run_goes hround, hrun], by omega, hj, ?_⟩
      rw [hdrop, List.dropWhile_cons_of_pos (by simpa using hc)]
    · refine ⟨i, Loops.run_leaves (if_neg hc), Nat.le_refl i, by omega, ?_⟩
      rw [List.dropWhile_cons_of_neg (by simpa using hc), drop_eq hp (by omega)]

/-- Skipping slashes at once, or one by one. -/
theorem parseRest_skip : ∀ (l : List UInt8),
    parseRest l [] true = parseRest (l.dropWhile fun c => c = slash) [] false := by
  intro l
  induction l with
  | nil => rfl
  | cons c l ih =>
    by_cases hc : c = slash
    · rw [List.dropWhile_cons_of_pos (by simpa using hc), parseRest, if_pos hc, if_pos rfl, ih]
    · rw [List.dropWhile_cons_of_neg (by simpa using hc), parseRest, parseRest, if_neg hc, if_neg hc]

theorem dropWhile_head (l : List UInt8) : (l.dropWhile fun c => c = slash).head? ≠ some slash := by
  intro h
  have hnot := List.head?_dropWhile_not (fun c : UInt8 => decide (c = slash)) l
  rw [h] at hnot
  simp at hnot

/-- **Invariant of the main loop**: the path holds what was found, the string in hand has the characters
    `cur` of the next component, and the rest of `name` is parsed to the rest of the components. -/
structure Parsing (name : List UInt8) (m₀ : Strings) (target : List (List UInt8)) (s : Parser) (ids : List Nat)
    (done : List (List UInt8)) (cur : List UInt8) : Prop where
  holds : Holds s.strings m₀.made s.path ids done
  inHand : InHand s.strings m₀.made ids s.pathString cur
  kept : Kept m₀.made m₀ s.strings
  index : s.i ≤ name.length
  short : cur.length ≤ s.i
  start : cur = [] → (name.drop s.i).head? ≠ some slash
  rest : done ++ parseRest (name.drop s.i) cur false = target

/-- The constructor runs out of memory, which takes millions of characters. -/
def OutOfMemory {α : Type} (name : List UInt8) (r : Except PathError α) : Prop :=
  r = .error .outOfMemory ∧ 3495253 < name.length

variable {m₀ : Strings} {target : List (List UInt8)} {st : Parser}

/-- **A round of the main loop**: it takes a character or ends a component, unless the string is at its end.
    -/
theorem parseRound_cases (hp : CString p name) (hlen : name.length < 4294967296)
    (h : Parsing name m₀ target st ids done cur) :
    (∃ r, parseRound p st = .inr r ∧ OutOfMemory name r) ∨
    (parseRound p st = .inr (.ok st) ∧ st.i = name.length) ∨
    ∃ st' ids' done' cur', parseRound p st = .inl st' ∧ st.i < st'.i ∧
      Parsing name m₀ target st' ids' done' cur' := by
  have hindex := h.index
  by_cases hend : st.i = name.length
  · refine Or.inr (Or.inl ⟨?_, hend⟩)
    have hnul : p st.i = 0 := by rw [hend]; exact hp.nul
    rw [parseRound, if_neg (by simp [hnul])]
  have hi : st.i < name.length := by omega
  have hrest := h.rest
  rw [drop_eq hp hi, parseRest] at hrest
  rw [parseRound, if_pos (char_ne_zero hp hi)]
  by_cases hc : p st.i = slash
  · -- the component is complete
    rw [if_pos hc]
    have hcur : cur ≠ [] := by
      intro hnil
      have hstart := h.start hnil
      rw [drop_eq hp hi, hc] at hstart
      exact hstart rfl
    obtain ⟨m', path', hadd, hholds, hkept, hmade⟩ := add_holds h.holds h.inHand
    have hold : m₀.made ≤ m'.made := by
      have := h.inHand.made
      omega
    obtain ⟨hin, hholds', hkept'⟩ := make_inHand hholds hold
    obtain ⟨j, hrun, hij, hj, hdrop⟩ := skip_eq hp hlen (name.length - (st.i + 1)) rounds (st.i + 1) (by omega)
      (by rw [rounds]; omega)
    rw [hadd]
    simp only
    rw [u32_of_lt (by omega), hrun]
    refine Or.inr (Or.inr ⟨_, _, _, _, rfl, hij, hholds', hin,
      (h.kept.trans hkept).trans hkept', hj, Nat.zero_le _, fun _ => ?_, ?_⟩)
    · rw [hdrop]
      exact dropWhile_head _
    · rw [if_pos hc, if_neg (by simp)] at hrest
      rw [hdrop, ← parseRest_skip, List.append_assoc]
      exact hrest
  · -- another character of it
    rw [if_neg hc]
    rw [if_neg hc] at hrest
    have hshort := h.short
    rcases addCharTo_cases h.holds h.inHand (p st.i) with ⟨hmem, hlong⟩ | ⟨m', hadd, hin, hholds, hkept, _⟩
    · rw [hmem]
      exact Or.inl ⟨_, rfl, rfl, by omega⟩
    · rw [hadd]
      have hnext : u32 (st.i + 1) = st.i + 1 := u32_of_lt (by omega)
      refine Or.inr (Or.inr ⟨_, _, _, _, rfl, ?_, hholds, hin, h.kept.trans hkept, ?_, ?_, ?_, ?_⟩)
      · show st.i < u32 (st.i + 1)
        omega
      · show u32 (st.i + 1) ≤ name.length
        omega
      · show (cur ++ [p st.i]).length ≤ u32 (st.i + 1)
        rw [hnext, List.length_append, List.length_singleton]
        omega
      · intro hnil
        simp at hnil
      · show done ++ parseRest (name.drop (u32 (st.i + 1))) (cur ++ [p st.i]) false = target
        rw [hnext]
        exact hrest

/-- **The main loop**, by induction on the characters that are left. -/
theorem parse_run (hp : CString p name) (hlen : name.length < 4294967296) :
    ∀ (left fuel : Nat) (st : Parser) (ids : List Nat) (done : List (List UInt8)) (cur : List UInt8),
      name.length - st.i ≤ left → left < fuel → Parsing name m₀ target st ids done cur →
      (∃ r, Loops.run (parseRound p) fuel st = some r ∧ OutOfMemory name r) ∨
      ∃ st' ids' done' cur', Loops.run (parseRound p) fuel st = some (.ok st') ∧ st'.i = name.length ∧
        Parsing name m₀ target st' ids' done' cur' := by
  intro left
  induction left with
  | zero =>
    intro fuel st ids done cur hleft hfuel h
    obtain ⟨fuel, rfl⟩ : ∃ f, fuel = f + 1 := ⟨fuel - 1, by omega⟩
    rcases parseRound_cases hp hlen h with ⟨r, hround, hmem⟩ | ⟨hround, hend⟩ | ⟨st', _, _, _, _, hlt, h'⟩
    · exact Or.inl ⟨r, Loops.run_leaves hround, hmem⟩
    · exact Or.inr ⟨st, ids, done, cur, Loops.run_leaves hround, hend, h⟩
    · have := h'.index
      omega
  | succ left ih =>
    intro fuel st ids done cur hleft hfuel h
    obtain ⟨fuel, rfl⟩ : ∃ f, fuel = f + 1 := ⟨fuel - 1, by omega⟩
    rcases parseRound_cases hp hlen h with ⟨r, hround, hmem⟩ | ⟨hround, hend⟩ |
      ⟨st', ids', done', cur', hround, hlt, h'⟩
    · exact Or.inl ⟨r, Loops.run_leaves hround, hmem⟩
    · exact Or.inr ⟨st, ids, done, cur, Loops.run_leaves hround, hend, h⟩
    · rw [Loops.run_goes hround]
      exact ih fuel st' ids' done' cur' (by omega) (by omega) h'

/-! ## The constructor -/

theorem holds_empty (m : Strings) (old : Nat) : Holds m old ⟨none, none⟩ [] [] :=
  ⟨OnQueue.empty, List.nodup_nil, fun _ hs => (List.not_mem_nil hs).elim, rfl⟩

/-- What the root adds. -/
theorem addRoot_eq (p : Nat → UInt8) (m : Strings) : ∃ m' path ids, addRoot p m = .ok (m', path) ∧
    Holds m' m.made path ids (if p 0 = slash then [[slash]] else []) ∧ Kept m.made m m' ∧ m.made ≤ m'.made := by
  rw [addRoot]
  by_cases hc : p 0 = slash
  · rw [if_pos hc, if_pos hc]
    obtain ⟨hin, hholds, hkept⟩ := make_inHand (holds_empty m m.made) (Nat.le_refl _)
    rcases addCharTo_cases hholds hin slash with ⟨_, hlong⟩ | ⟨m₁, hchar, hin₁, hholds₁, hkept₁, hmade₁⟩
    · simp at hlong
    obtain ⟨m₂, path, hadd, hholds₂, hkept₂, hmade₂⟩ := add_holds hholds₁ hin₁
    simp only
    rw [hchar]
    refine ⟨m₂, path, _, hadd, hholds₂, (hkept.trans hkept₁).trans hkept₂, ?_⟩
    rw [hmade₂, hmade₁]
    exact Nat.le_succ _
  · rw [if_neg hc, if_neg hc]
    exact ⟨m, ⟨none, none⟩, [], rfl, holds_empty m m.made, Kept.refl _ m, Nat.le_refl _⟩

/-- The last string, if there is something in it. -/
theorem finish_eq (h : Parsing name m₀ target st ids done cur) (hend : st.i = name.length) :
    ∃ m' path' ids', finish st = .ok (m', path') ∧ Holds m' m₀.made path' ids' target ∧ Kept m₀.made m₀ m' := by
  have hrest := h.rest
  rw [List.drop_of_length_le (by omega), parseRest] at hrest
  rw [finish]
  by_cases hcur : cur = []
  · rw [if_pos hcur, List.append_nil] at hrest
    rw [if_pos (by rw [PathString.isEmpty_iff, h.inHand.chars, hcur])]
    exact ⟨_, _, ids, rfl, hrest ▸ h.holds, h.kept⟩
  · rw [if_neg hcur] at hrest
    rw [if_neg (by rw [PathString.isEmpty_iff, h.inHand.chars]; exact hcur)]
    obtain ⟨m', path', hadd, hholds, hkept, _⟩ := add_holds h.holds h.inHand
    exact ⟨m', path', _, hadd, hrest ▸ hholds, h.kept.trans hkept⟩

/-- **The constructor** puts the components of the string on the path, and leaves other strings as they are.
    -/
theorem construct_refines (hp : CString p name) (hlen : name.length < 4294967296) (m : Strings) :
    OutOfMemory name (construct p m) ∨ ∃ m' path ids, construct p m = .ok (m', path) ∧
      Holds m' m.made path ids (components name) ∧ Kept m.made m m' := by
  rw [components, ← parse_eq]
  cases hname : name with
  | nil =>
    have hnul : p 0 = 0 := by
      have := hp.nul
      rwa [hname] at this
    rw [construct, if_pos hnul]
    exact Or.inr ⟨m, _, [], rfl, holds_empty m m.made, Kept.refl _ m⟩
  | cons c rest =>
    rw [← hname]
    have hpos : 0 < name.length := by rw [hname]; exact Nat.succ_pos _
    have hfirst : p 0 = c := by
      rw [hp.chars 0 hpos]
      simp only [hname, List.getElem_cons_zero]
    rw [construct, if_neg (char_ne_zero hp hpos)]
    obtain ⟨m₁, path₁, ids₁, hroot, hholds₁, hkept₁, hmade₁⟩ := addRoot_eq p m
    obtain ⟨hin₂, hholds₂, hkept₂⟩ := make_inHand hholds₁ hmade₁
    obtain ⟨j, hskip, _, hj, hdrop⟩ :=
      skip_eq hp hlen name.length rounds 0 (Nat.zero_add _) (by rw [rounds]; omega)
    have htarget : parse name = (if p 0 = slash then [[slash]] else []) ++ parseRest name [] true := by
      rw [hfirst, hname, parse]
    have hparsing : Parsing name m (parse name) ⟨j, m₁.make.2, path₁, m₁.make.1⟩ ids₁
        (if p 0 = slash then [[slash]] else []) [] := by
      refine ⟨hholds₂, hin₂, hkept₁.trans hkept₂, hj, Nat.zero_le _, fun _ => ?_, ?_⟩
      · rw [hdrop]
        exact dropWhile_head _
      · rw [htarget, parseRest_skip]
        show _ ++ parseRest (name.drop j) [] false = _
        rw [hdrop, List.drop_zero]
    rw [hroot]
    simp only
    rw [hskip]
    simp only
    rcases parse_run hp hlen name.length rounds _ _ _ _ (Nat.sub_le _ _) (by rw [rounds]; omega) hparsing with
      ⟨r, hrun, hr, hlong⟩ | ⟨st, ids, done, cur, hrun, hend, h⟩
    · rw [hrun, hr]
      exact Or.inl ⟨rfl, hlong⟩
    · rw [hrun]
      simp only
      exact Or.inr (finish_eq h hend)

/-! ## Joining and merging -/

theorem isAbsolute_iff : isAbsolute name = true ↔ name.head? = some slash := by
  rw [isAbsolute, decide_eq_true_iff]

theorem namesOf_head (name : List UInt8) : (namesOf name).head? ≠ some [slash] := by
  intro h
  exact (name_of_mem (List.mem_of_head? h)).2 (by simp)

/-- The first component is the root exactly if the path is absolute. -/
theorem components_head (name : List UInt8) :
    (components name).head? = some [slash] ↔ name.head? = some slash := by
  rw [components, rootOf, ← isAbsolute_iff]
  by_cases h : isAbsolute name = true
  · rw [if_pos h]
    exact ⟨fun _ => h, fun _ => rfl⟩
  · rw [if_neg h, List.nil_append]
    exact ⟨fun hhead => absurd hhead (namesOf_head name), fun habs => absurd habs h⟩

/-- The components of a path, joined by slashes. -/
def rejoin (name : List UInt8) : List UInt8 := [slash].intercalate (components name)

theorem namesOf_intercalate {names : List (List UInt8)} (h : ∀ n ∈ names, n ≠ [] ∧ slash ∉ n) :
    namesOf ([slash].intercalate names) = names := by
  by_cases hnil : names = []
  · rw [hnil]
    rfl
  · rw [namesOf, List.splitOn_intercalate slash (fun n hn => (h n hn).2) hnil, List.filter_eq_self]
    intro n hn
    exact decide_eq_true (h n hn).1

theorem intercalate_head {names : List (List UInt8)} (h : ∀ n ∈ names, n ≠ [] ∧ slash ∉ n) :
    ([slash].intercalate names).head? ≠ some slash := by
  cases names with
  | nil => simp
  | cons n names =>
    obtain ⟨hne, hslash⟩ := h n (by simp)
    obtain ⟨c, n', rfl⟩ := List.exists_cons_of_ne_nil hne
    rw [List.intercalate_cons_cons_left, List.head?_cons]
    intro hc
    exact hslash (by rw [Option.some.inj hc]; simp)

/-- **The components joined again** are the same components. -/
theorem components_rejoin (name : List UInt8) : components (rejoin name) = components name := by
  have hnames : ∀ n ∈ namesOf name, n ≠ [] ∧ slash ∉ n := fun n hn => name_of_mem hn
  rw [rejoin, components, components, rootOf, rootOf]
  by_cases habs : isAbsolute name = true
  · rw [if_pos habs, List.singleton_append]
    by_cases hnil : namesOf name = []
    · rw [hnil]
      rfl
    · -- the root and the slash behind it
      have hslash : [slash].intercalate ([slash] :: namesOf name) =
          [] ++ slash :: ([] ++ slash :: [slash].intercalate (namesOf name)) := by
        rw [List.intercalate_cons_of_ne_nil hnil]
        rfl
      rw [hslash, if_pos (show isAbsolute ([] ++ slash :: _) = true from rfl), namesOf_slash, namesOf_slash,
        namesOf_intercalate hnames]
      rfl
  · rw [if_neg habs, List.nil_append, if_neg, namesOf_intercalate hnames]
    · rfl
    · rw [isAbsolute_iff]
      exact intercalate_head hnames

/-- **`merge_symbolic_link`** puts the strings of the link before those that are left. -/
theorem merge_holds {link : Queue} {lids : List Nat} {lcomps : List (List UInt8)} {old' : Nat}
    (h : Holds m old path ids comps) (hne : comps ≠ []) (hlink : Holds m old' link lids lcomps)
    (hle : old ≤ old')
    (hapart : ∀ s ∈ lids, s ∉ ids) :
    Holds (merge m path link).1 old (merge m path link).2 (lids ++ ids) (lcomps ++ comps) := by
  have hmade : ∀ s ∈ lids ++ ids, old ≤ s ∧ s < m.made := by
    intro s hs
    rcases List.mem_append.1 hs with hs | hs
    · have := hlink.made s hs
      omega
    · exact h.made s hs
  have hnames : (lids ++ ids).map (fun s => (m.string s).get) = lcomps ++ comps := by
    rw [List.map_append, hlink.names, h.names]
  have hnodup : (lids ++ ids).Nodup := by
    rw [List.nodup_append]
    refine ⟨hlink.nodup, h.nodup, ?_⟩
    rintro a ha b hb rfl
    exact hapart a ha hb
  rcases List.eq_nil_or_concat lids with rfl | ⟨front, last, rfl⟩
  · have hfirst : link.first = none := hlink.queue.reads
    rw [merge, hfirst]
    exact ⟨h.queue, h.nodup, hmade, hnames⟩
  · rw [List.concat_eq_append] at *
    have hfirst : link.first = (front ++ [last]).head? := hlink.queue.reads.first_eq
    have hlast : link.last = some last := by rw [hlink.queue.last, List.getLast?_concat]
    obtain ⟨first, hhead⟩ : ∃ first, (front ++ [last]).head? = some first := by
      cases front with
      | nil => exact ⟨_, rfl⟩
      | cons x front => exact ⟨_, rfl⟩
    have hids : ids ≠ [] := by
      rintro rfl
      exact hne h.names.symm
    have hreads := hlink.queue.reads.append h.queue.reads hlink.nodup (hapart last (by simp))
    rw [merge, hfirst, hhead, hlast]
    rw [hfirst, hhead] at hreads
    refine ⟨⟨?_, ?_⟩, hnodup, hmade, hnames⟩
    · rw [List.append_assoc, List.singleton_append]
      exact hreads
    · show path.last = _
      rw [h.queue.last, List.getLast?_append_of_ne_nil _ hids]

/-- **A string that is made character by character** is never written past its buffer. -/
theorem addChars_fits : ∀ (l : List UInt8) (s : PathString), s.Fits →
    l.foldlM PathString.addChar s = .error .outOfMemory ∨
    ∃ s', l.foldlM PathString.addChar s = .ok s' ∧ s'.Fits ∧ s'.get = s.get ++ l := by
  intro l
  induction l with
  | nil =>
    intro s h
    exact Or.inr ⟨s, rfl, h, (List.append_nil _).symm⟩
  | cons c l ih =>
    intro s h
    rw [List.foldlM_cons]
    rcases PathString.addChar_cases h c with ⟨hmem, _⟩ | ⟨s₁, hadd, hfits, hget⟩
    · rw [hmem]
      exact Or.inl rfl
    · rw [hadd]
      rcases ih s₁ hfits with hmem | ⟨s', hrun, hfits', hget'⟩
      · exact Or.inl hmem
      · refine Or.inr ⟨s', hrun, hfits', ?_⟩
        rw [hget', hget, List.append_assoc, List.singleton_append]

/-- **Paths**: no string that is made character by character is written at or past `max_size`.  And a path
    made from a C string runs out of memory, which takes more than three million characters, or yields the
    root, if the string starts with a slash, and then the names in it; a path made from these joined by
    slashes yields the same; and if some components are left on another path, it yields them after those of
    the new one when the new one is merged into it. -/
theorem path_spec (p : Nat → UInt8) (name : List UInt8) (hp : CString p name) (hlen : name.length < 4294967296)
    (m : Strings) :
    (∀ l : List UInt8, l.foldlM PathString.addChar PathString.make = .error .outOfMemory ∨
      ∃ s, l.foldlM PathString.addChar PathString.make = .ok s ∧ s.get = l ∧ s.size < s.maxSize) ∧
    (OutOfMemory name (construct p m) ∨ ∃ m' path, construct p m = .ok (m', path) ∧
      Yields m' path (rootOf name ++ namesOf name) ∧
      ((rootOf name ++ namesOf name).head? = some [slash] ↔ name.head? = some slash) ∧
      (∀ q m₁, CString q (rejoin name) → (rejoin name).length < 4294967296 →
        OutOfMemory (rejoin name) (construct q m₁) ∨ ∃ m₂ path₂, construct q m₁ = .ok (m₂, path₂) ∧
          Yields m₂ path₂ (rootOf name ++ namesOf name)) ∧
      ∀ old rest ids comps, Holds m old rest ids comps → comps ≠ [] →
        Yields (merge m' rest path).1 (merge m' rest path).2 ((rootOf name ++ namesOf name) ++ comps)) := by
  constructor
  · intro l
    rcases addChars_fits l PathString.make PathString.fits_make with hmem | ⟨s, hrun, hfits, hget⟩
    · exact Or.inl hmem
    · exact Or.inr ⟨s, hrun, hget, hfits.size⟩
  rcases construct_refines hp hlen m with hmem | ⟨m', path, lids, hrun, hholds, hkept⟩
  · exact Or.inl hmem
  refine Or.inr ⟨m', path, hrun, hholds.yields, components_head name, ?_, ?_⟩
  · intro q m₁ hq hlen'
    rcases construct_refines hq hlen' m₁ with hmem | ⟨m₂, path₂, ids₂, hrun₂, hholds₂, _⟩
    · exact Or.inl hmem
    · rw [components_rejoin] at hholds₂
      exact Or.inr ⟨m₂, path₂, hrun₂, hholds₂.yields⟩
  · intro old rest ids comps hrest hne
    -- what is left was made before the strings of the new path
    have hbefore : ∀ s ∈ ids, old ≤ s ∧ s < m.made := hrest.made
    have hrest' : Holds m' old rest ids comps :=
      hrest.congr (fun s hs => (hkept.same s (hbefore s hs).2).1)
        (fun s hs => (hkept.same s (hbefore s hs).2).2)
        hkept.made
    obtain ⟨s, hs⟩ : ∃ s, s ∈ ids := by
      refine List.exists_mem_of_ne_nil ids ?_
      rintro rfl
      exact hne hrest.names.symm
    have hold := hbefore s hs
    refine (merge_holds hrest' hne hholds (by omega) ?_).yields
    intro t ht ht'
    have h₁ := hholds.made t ht
    have h₂ := hbefore t ht'
    omega

/-- The path `/a//b`. -/
def slashAB : Nat → UInt8 := fun i => [47, 97, 47, 47, 98].getD i 0

theorem path_spec_slashAB :
    ∃ m' path, construct slashAB ⟨fun _ => none, fun _ => PathString.make, 0⟩ = .ok (m', path) ∧
    Yields m' path [[47], [97], [98]] := by
  have hp : CString slashAB [47, 97, 47, 47, 98] := by
    refine ⟨?_, rfl, by decide⟩
    intro i hi
    rw [slashAB, List.getD_eq_getElem?_getD, List.getElem?_eq_getElem hi]
    rfl
  rcases (path_spec slashAB [47, 97, 47, 47, 98] hp (by decide)
    ⟨fun _ => none, fun _ => PathString.make, 0⟩).2 with
    ⟨_, hlong⟩ | ⟨m', path, hrun, hyields, _⟩
  · exact absurd hlong (by decide)
  · exact ⟨m', path, hrun, hyields⟩

end Path

end BadApple
