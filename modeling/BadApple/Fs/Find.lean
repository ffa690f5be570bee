/-
  `Ext2::find` — resolving paths (kernel/ext2.cc, kernel/ext2.h).

  1. **Data** — nodes are named by their i-numbers.  `findOne` says what `find_one` makes of any directory
     and name; it is a parameter, and so is what it finds.
  2. **The walk** — `find` takes the components of the path one by one.  A symbolic link with components
     after it is replaced by the components of what `get_symbol` leaves in a buffer on the stack, read as
     a C string.
  3. **Specification** — `resolve`: the names of a path one after the other, a link replaced by the
     components of its target.
  4. **The defect** — `get_symbol` does not end the target with a NUL, so that what was on the stack before
     is read as part of it.
  5. **The result** — `find_eq_resolve`: `find` replaces links by what `resolve` does, and gives the same
     result, exactly when the buffers read as the targets (`LinksRead`).
-/
import BadApple.Fs.BlockIo
import BadApple.Fs.Path

namespace BadApple

/-! ## Nodes -/

/-- `Node`: the mode and the bytes at `data.direct0` of the i-node, and the node as a `BlockIO`. -/
structure Node where
  mode : Nat
  direct0 : Nat → UInt8
  io : BlockIo
  blockSize_pos : 0 < io.blockSize

namespace Node

/-- `get_type`. -/
def getType (n : Node) : Nat := n.mode / 4096

def isDir (n : Node) : Bool := n.getType = 4

def isFile (n : Node) : Bool := n.getType = 8

def isSymlink (n : Node) : Bool := n.getType = 0xa

/-- `size_in_bytes`. -/
def sizeInBytes (n : Node) : Nat := n.io.sizeInBytes

/-- `get_symbol(buffer)` on a link: what the buffer holds then; `none` is the failed assertion. -/
def getSymbol (n : Node) (buffer : Nat → UInt8) : Option (Nat → UInt8) :=
  let sz := n.sizeInBytes
  if sz < 60 then some fun i => if i < sz then n.direct0 i else buffer i
  else if n.io.readAllCount 0 sz 0 = some sz then
    some fun i => (n.io.readAll 0 sz).getD i (buffer i)
  else none

/-- The bytes of a link's target, of which there are `size_in_bytes()`. -/
def target (n : Node) : List UInt8 :=
  if n.sizeInBytes < 60 then (List.range n.sizeInBytes).map n.direct0 else n.io.bytesFrom 0 n.sizeInBytes

end Node

/-- What a lookup comes to: a node, null, or a failed assertion or endless loop. -/
inductive Lookup where
  | node (n : Nat)
  | null
  | stops
deriving DecidableEq, Repr

/-- A mounted `Ext2`: its root, its nodes, and what `find_one` finds. -/
structure FileSystem where
  root : Nat
  node : Nat → Node
  findOne : Nat → List UInt8 → Lookup

namespace FileSystem

/-! ## The walk -/

/-- The loop of `find`: what replaced each link, and the result.  `stack i` is what the buffer for the
    `i`-th link holds before `get_symbol`. -/
def findLoop (fs : FileSystem) (stack : Nat → Nat → UInt8) (count node : Nat) :
    List (List UInt8) → List (List (List UInt8)) × Lookup
  | [] => ([], .node node)
  | str :: path =>
    if count ≥ 100 then ([], .null)
    else if str.head? = some slash then fs.findLoop stack count fs.root path
    else if ¬ (fs.node node).isDir then ([], .null)
    else
      match fs.findOne node str with
      | .stops => ([], .stops)
      | .null => ([], .null)
      | .node next =>
        if (fs.node next).isSymlink then
          if path ≠ [] then
            match (fs.node next).getSymbol (stack (count + 1)) with
            | none => ([], .stops)
            | some newPathStr =>
              let newPath := Path.parse (chars newPathStr)
              let (links, result) :=
                fs.findLoop stack (count + 1) node (Path.mergeSymbolicLink path newPath)
              (newPath :: links, result)
          else fs.findLoop stack (count + 1) next path
        else fs.findLoop stack count next path
termination_by path => (100 - count, path.length)

/-- `find(dir, name)`, with what replaced each link on the way. -/
def findLinks (fs : FileSystem) (stack : Nat → Nat → UInt8) (dir : Nat) (name : List UInt8) :
    List (List (List UInt8)) × Lookup :=
  fs.findLoop stack 0 dir (Path.parse name)

/-- `find(dir, name)`. -/
def find (fs : FileSystem) (stack : Nat → Nat → UInt8) (dir : Nat) (name : List UInt8) : Lookup :=
  (fs.findLinks stack dir name).2

/-! ## Specification -/

/-- A walk along names ends, or comes to a link in `dir` with names after it. -/
inductive Walk where
  | ends (result : Lookup)
  | link (dir next : Nat) (rest : List (List UInt8))

/-- Walk along names from a directory. -/
def walk (fs : FileSystem) (dir : Nat) : List (List UInt8) → Walk
  | [] => .ends (.node dir)
  | name :: rest =>
    if (fs.node dir).isDir then
      match fs.findOne dir name with
      | .stops => .ends .stops
      | .null => .ends .null
      | .node next =>
        if (fs.node next).isSymlink ∧ rest ≠ [] then .link dir next rest else fs.walk next rest
    else .ends .null

/-- Resolve names from a directory when `links` more links may be met. -/
def resolveNames (fs : FileSystem) : (links : Nat) → (dir : Nat) → List (List UInt8) →
    List (List (List UInt8)) × Lookup
  | 0, _, _ => ([], .null)
  | links + 1, dir, names =>
    match fs.walk dir names with
    | .ends result => ([], result)
    | .link dir next rest =>
      let target := (fs.node next).target
      let (replaced, result) := fs.resolveNames links (if isAbsolute target then fs.root else dir)
        (namesOf target ++ rest)
      ((rootOf target ++ namesOf target) :: replaced, result)

/-- **The reference resolution** of a path, with what replaces each link on the way. -/
def resolve (fs : FileSystem) (dir : Nat) (name : List UInt8) : List (List (List UInt8)) × Lookup :=
  fs.resolveNames 100 (if isAbsolute name then fs.root else dir) (namesOf name)

/-- What the buffer holds for a link after `get_symbol`, read as a path. -/
def linkPath (fs : FileSystem) (next : Nat) (buffer : Nat → UInt8) : List (List UInt8) :=
  Path.parse (chars fun i => (fs.node next).target.getD i (buffer i))

/-- The buffers of the links that `resolveNames` meets read as their targets. -/
def LinksReadNames (fs : FileSystem) (stack : Nat → Nat → UInt8) : (links : Nat) → (dir : Nat) →
    List (List UInt8) → Prop
  | 0, _, _ => True
  | links + 1, dir, names =>
    match fs.walk dir names with
    | .ends _ => True
    | .link dir next rest =>
      let target := (fs.node next).target
      fs.linkPath next (stack (100 - links)) = rootOf target ++ namesOf target ∧
        fs.LinksReadNames stack links (if isAbsolute target then fs.root else dir) (namesOf target ++ rest)

/-- **The condition**: the buffer of each link that is replaced on the way reads as the link's target. -/
def LinksRead (fs : FileSystem) (stack : Nat → Nat → UInt8) (dir : Nat) (name : List UInt8) : Prop :=
  fs.LinksReadNames stack 100 (if isAbsolute name then fs.root else dir) (namesOf name)

end FileSystem

/-! ## Links -/

/-- **`get_symbol`** fills the buffer with the target and leaves the rest as it was; its assertion holds. -/
theorem Node.getSymbol_eq (n : Node) (buffer : Nat → UInt8) :
    n.getSymbol buffer = some fun i => n.target.getD i (buffer i) := by
  rw [Node.getSymbol, Node.target]
  by_cases hsz : n.sizeInBytes < 60
  · simp only [if_pos hsz]
    congr 1
    funext i
    by_cases hi : i < n.sizeInBytes
    · rw [if_pos hi, List.getD_eq_getElem?_getD, List.getElem?_map, List.getElem?_range hi]
      rfl
    · rw [if_neg hi, List.getD_eq_getElem?_getD, List.getElem?_eq_none (by simp; omega)]
      rfl
  · simp only [if_neg hsz]
    have hcount := BlockIo.readAllCount_eq n.blockSize_pos n.sizeInBytes 0 0 (Nat.zero_le _)
    have hall := BlockIo.readAll_eq n.blockSize_pos n.sizeInBytes 0 (Nat.zero_le _)
    have hmin : min n.sizeInBytes (n.io.sizeInBytes - 0) = n.sizeInBytes := Nat.min_self _
    rw [hmin] at hcount hall
    rw [Nat.zero_add] at hcount
    rw [if_pos hcount, hall]

/-- A buffer whose target has no NUL, and is followed by one, reads as the target. -/
theorem FileSystem.linkPath_of_nul {fs : FileSystem} {next : Nat} {buffer : Nat → UInt8}
    (hlen : (fs.node next).target.length < 4294967296) (hno : 0 ∉ (fs.node next).target)
    (hnul : buffer (fs.node next).target.length = 0) :
    fs.linkPath next buffer = rootOf (fs.node next).target ++ namesOf (fs.node next).target := by
  rw [FileSystem.linkPath, ← Path.parse_eq]
  congr 1
  refine cString_eq_of_nul hlen ?_ ?_
  · intro k hk
    rw [Nat.zero_add, List.getD_eq_getElem?_getD, List.getElem?_eq_getElem hk]
    exact ⟨rfl, fun h => hno (h ▸ List.getElem_mem hk)⟩
  · rw [Nat.zero_add, List.getD_eq_getElem?_getD, List.getElem?_eq_none (Nat.le_refl _)]
    exact hnul

namespace FileSystem

variable {fs : FileSystem} {stack : Nat → Nat → UInt8} {dir next : Nat} {names rest : List (List UInt8)}

/-- Components that stand for names. -/
def Names (names : List (List UInt8)) : Prop := ∀ n ∈ names, n ≠ [] ∧ slash ∉ n

theorem Names.tail {name : List UInt8} (h : Names (name :: rest)) : Names rest :=
  fun n hn => h n (List.mem_cons_of_mem name hn)

theorem head_ne_slash {n : List UInt8} (h : slash ∉ n) : n.head? ≠ some slash := by
  intro hhead
  exact h (List.mem_of_mem_head? hhead)

theorem walk_link : ∀ {names : List (List UInt8)} {dir d next : Nat} {rest : List (List UInt8)}, Names names →
    fs.walk dir names = .link d next rest → rest ≠ [] ∧ Names rest := by
  intro names
  induction names with
  | nil =>
    intro dir d next rest _ h
    cases h
  | cons name names ih =>
    intro dir d next rest hnames h
    rw [walk] at h
    by_cases hdir : (fs.node dir).isDir = true
    · rw [if_pos hdir] at h
      cases hone : fs.findOne dir name with
      | stops =>
        rw [hone] at h
        cases h
      | null =>
        rw [hone] at h
        cases h
      | node m =>
        rw [hone] at h
        by_cases hlink : (fs.node m).isSymlink = true ∧ names ≠ []
        · simp only [if_pos hlink] at h
          obtain ⟨rfl, rfl, rfl⟩ := Walk.link.inj h
          exact ⟨hlink.2, hnames.tail⟩
        · simp only [if_neg hlink] at h
          exact ih hnames.tail h
    · rw [if_neg hdir] at h
      cases h

theorem mergeSymbolicLink_eq (path link : List (List UInt8)) :
    Path.mergeSymbolicLink path link = link ++ path := by
  rw [Path.mergeSymbolicLink]
  by_cases h : link = []
  · rw [if_pos h, h, List.nil_append]
  · rw [if_neg h]

/-- The loop stops at once when it has met too many links. -/
theorem findLoop_many {comps : List (List UInt8)} (hne : comps ≠ []) :
    fs.findLoop stack 100 dir comps = ([], .null) := by
  cases comps with
  | nil => exact absurd rfl hne
  | cons str path => rw [findLoop, if_pos (Nat.le_refl _)]

/-- The component for the root goes to the root. -/
theorem findLoop_root {count : Nat} (hcount : count < 100) (p : List UInt8) :
    fs.findLoop stack count dir (rootOf p ++ names) =
      fs.findLoop stack count (if isAbsolute p then fs.root else dir) names := by
  by_cases hp : isAbsolute p = true
  · rw [rootOf, if_pos hp, if_pos hp, List.singleton_append, findLoop, if_neg (by omega),
      if_pos (show [slash].head? = some slash from rfl)]
  · rw [rootOf, if_neg hp, if_neg hp, List.nil_append]

/-- **The loop up to the next link** is a walk along names. -/
theorem findLoop_walk {count : Nat} (hcount : count < 100) : ∀ (names : List (List UInt8)) (dir : Nat),
    Names names → fs.findLoop stack count dir names =
      match fs.walk dir names with
      | .ends result => ([], result)
      | .link d next rest =>
        let newPath := fs.linkPath next (stack (count + 1))
        (newPath :: (fs.findLoop stack (count + 1) d (newPath ++ rest)).1,
          (fs.findLoop stack (count + 1) d (newPath ++ rest)).2) := by
  intro names
  induction names with
  | nil =>
    intro dir _
    rw [findLoop, walk]
  | cons name names ih =>
    intro dir hnames
    have hslash := head_ne_slash (hnames name (by simp)).2
    rw [findLoop, if_neg (by omega), if_neg hslash, walk]
    by_cases hdir : (fs.node dir).isDir = true
    · rw [if_neg (by simpa using hdir), if_pos hdir]
      cases hone : fs.findOne dir name with
      | stops => rfl
      | null => rfl
      | node next =>
        simp only
        by_cases hlink : (fs.node next).isSymlink = true
        · by_cases hrest : names = []
          · rw [if_pos hlink, if_neg (by simpa using hrest), if_neg (by simp [hrest]), hrest, findLoop, walk]
          · rw [if_pos hlink, if_pos hrest, if_pos ⟨hlink, hrest⟩]
            simp only [Node.getSymbol_eq, mergeSymbolicLink_eq]
            rfl
        · rw [if_neg hlink, if_neg (fun h => hlink h.1)]
          exact ih next hnames.tail
    · rw [if_pos (by simpa using hdir), if_neg hdir]

/-- **The loop and the reference**, with the same number of links still to be met. -/
theorem findLoop_eq_iff : ∀ (links : Nat) (dir : Nat) (names : List (List UInt8)), links ≤ 100 → Names names →
    (links = 0 → names ≠ []) →
    (fs.findLoop stack (100 - links) dir names = fs.resolveNames links dir names ↔
      fs.LinksReadNames stack links dir names) := by
  intro links
  induction links with
  | zero =>
    intro dir names _ _ hne
    rw [findLoop_many (hne rfl), resolveNames, LinksReadNames]
    simp
  | succ links ih =>
    intro dir names hle hnames _
    rw [findLoop_walk (by omega) names dir hnames, resolveNames, LinksReadNames]
    cases hwalk : fs.walk dir names with
    | ends result => simp
    | link d next rest =>
      obtain ⟨hrest, hvalid⟩ := walk_link hnames hwalk
      simp only [show 100 - (links + 1) + 1 = 100 - links by omega]
      generalize hnew : fs.linkPath next (stack (100 - links)) = newPath
      generalize htarget : (fs.node next).target = target
      have hall : Names (namesOf target ++ rest) := by
        intro n hn
        rcases List.mem_append.1 hn with hn | hn
        · exact name_of_mem hn
        · exact hvalid n hn
      have hne : namesOf target ++ rest ≠ [] := by simp [hrest]
      -- with the same components, the loop goes on where the reference does
      have hgo : newPath = rootOf target ++ namesOf target →
          fs.findLoop stack (100 - links) d (newPath ++ rest) = fs.findLoop stack (100 - links)
            (if isAbsolute target then fs.root else d) (namesOf target ++ rest) := by
        rintro rfl
        rw [List.append_assoc]
        by_cases hlinks : links = 0
        · rw [hlinks, findLoop_many hne, findLoop_many (by simp [hrest])]
        · exact findLoop_root (by omega) target
      have hih := ih (if isAbsolute target then fs.root else d) (namesOf target ++ rest) (by omega) hall
        fun _ => hne
      constructor
      · intro heq
        obtain ⟨hlist, hres⟩ := Prod.mk.inj heq
        obtain ⟨hpath, hlist⟩ := List.cons.inj hlist
        rw [hgo hpath] at hlist hres
        exact ⟨hpath, hih.1 (Prod.ext hlist hres)⟩
      · rintro ⟨hpath, hread⟩
        rw [hgo hpath, hih.2 hread, hpath]

/-- **`find` is the reference resolution** exactly when the buffers of the links it replaces read as their
    targets: then, and only then, it replaces each link by the components of its target, and comes to the
    result of the reference. -/
theorem find_eq_resolve (fs : FileSystem) (stack : Nat → Nat → UInt8) (dir : Nat) (name : List UInt8) :
    (fs.findLinks stack dir name = fs.resolve dir name ↔ fs.LinksRead stack dir name) ∧
    (fs.LinksRead stack dir name → fs.find stack dir name = (fs.resolve dir name).2) := by
  have hiff : fs.findLinks stack dir name = fs.resolve dir name ↔ fs.LinksRead stack dir name := by
    rw [findLinks, Path.parse_eq, findLoop_root (by omega)]
    exact findLoop_eq_iff 100 _ _ (Nat.le_refl _) (fun n hn => name_of_mem hn) (by omega)
  refine ⟨hiff, ?_⟩
  intro hread
  rw [find, hiff.2 hread]

/-- A file of the given size whose block size is 1024, with nothing in it. -/
def emptyNode (mode size : Nat) (direct0 : Nat → UInt8) : Node :=
  ⟨mode, direct0, ⟨1024, size, fun _ _ => 0⟩, Nat.zero_lt_succ _⟩

/-- The root has a link `l` to its directory `a`, in which there is a file `x`. -/
def oneLink : FileSystem where
  root := 2
  node := fun n => if n = 3 then emptyNode 0xa000 1 fun _ => 97 else emptyNode 0x4000 0 fun _ => 0
  findOne := fun dir name =>
    if dir = 2 ∧ name = [108] then .node 3
    else if dir = 2 ∧ name = [97] then .node 4
    else if dir = 4 ∧ name = [120] then .node 5
    else .null

/-- On the stack, the byte after the target is `b`. -/
def oneLinkStack : Nat → Nat → UInt8 := fun _ i => if i = 1 then 98 else 0

/-- `find` looks for `ab` instead of `a` and does not find `l/x`, which is there. -/
theorem find_readsPastTarget :
    ¬ ∀ (fs : FileSystem) (stack : Nat → Nat → UInt8) (dir : Nat) (name : List UInt8),
      fs.find stack dir name = (fs.resolve dir name).2 := by
  intro hall
  have hbuffer : oneLink.linkPath 3 (oneLinkStack 1) = [[97, 98]] := by
    have hchars : chars (fun i => (oneLink.node 3).target.getD i (oneLinkStack 1 i)) = [97, 98] := by
      refine cString_eq_of_nul (by decide) ?_ rfl
      intro k hk
      match k, hk with
      | 0, _ => exact ⟨rfl, by simp⟩
      | 1, _ => exact ⟨rfl, by simp⟩
    rw [linkPath, hchars]
    rfl
  have hfind : oneLink.find oneLinkStack 2 [108, 47, 120] = .null := by
    rw [find, findLinks, show Path.parse [108, 47, 120] = [[108], [120]] from rfl,
      findLoop_walk (by omega) _ 2 (by simp [Names, slash]),
      show oneLink.walk 2 [[108], [120]] = .link 2 3 [[120]] from rfl]
    simp only [hbuffer]
    rw [findLoop_walk (by omega) _ 2 (by simp [Names, slash])]
    rfl
  have hres : (oneLink.resolve 2 [108, 47, 120]).2 = .node 5 := by decide +kernel
  have hsame := hall oneLink oneLinkStack 2 [108, 47, 120]
  rw [hfind, hres] at hsame
  cases hsame

end FileSystem

end BadApple
