/-
  The arguments of a program on its stack (kernel/kernel.cc, `load_args`).

  1. **Model** — an argument is a C string.  `loadArgs` reads nothing but the arguments, which are the
     kernel's, so what it does to memory is a list of writes.  Pointers and lengths are 32-bit words, and
     `memcpy` reads its count as a signed number.  The kernel's stack is taken to have room for `length`.
  2. **What should happen** — `Loads`: the pointer returned is a multiple of 16 and lies below the one given;
     decoding the stack from there gives the arguments back; the words and strings met on the way lie apart;
     and all writes lie between the two pointers.
  3. **The result** — `loadArgs_iff`: the number of bytes is subtracted from a pointer to words, so four times
     as many bytes are.  It is as it should be exactly if that leaves the stack pointer above zero and is
     enough for the image, having been cut to a word; and no argument is as long as 2³¹ bytes.
-/
import Mathlib.Algebra.GroupWithZero.Nat
import BadApple.Lib.Writes
import BadApple.Machine
import BadApple.Sys.Model

namespace BadApple

open Memory
open Machine

namespace Sys

/-! ## Model -/

/-- A C string, without its NUL. -/
structure CString where
  bytes : List UInt8
  noNul : 0 ∉ bytes

/-- `K::strlen(arg) + 1`. -/
def CString.len (s : CString) : Nat := u32 (s.bytes.length + 1)

/-- The last loop of `load_args`. -/
def loadArgsLoop (userEsp : Nat) : (argv : List CString) → (i next : Nat) → List Write
  | [], _, _ => []
  | arg :: argv, i, next =>
    ⟨u32 (userEsp + 4 * (1 + 1 + i)), wordBytes (u32 (userEsp + next))⟩ ::
      ⟨u32 (userEsp + next), (arg.bytes ++ [0]).take (rounds arg.len)⟩ ::
      loadArgsLoop userEsp argv (i + 1) (u32 (next + arg.len))

/-- `load_args`: what it returns, and what it writes. -/
def loadArgs (userEsp : Nat) (argv : List CString) : Nat × List Write :=
  let argc := argv.length
  let sum := argv.foldl (fun sum arg => u32 (sum + arg.len)) 0
  let next := u32 (4 * (argc + 1 + 1))
  let userEsp := sub userEsp (u32 (4 * (u32 (u32 (sum + next) + 15) / 16 * 16)))
  (userEsp, ⟨userEsp, wordBytes argc⟩ :: ⟨u32 (userEsp + 4), wordBytes (u32 (userEsp + 8))⟩ ::
    loadArgsLoop userEsp argv 0 next)

/-- The addresses that a write goes to. -/
def written (w : Write) : List Nat := w.places.map u32

/-- Its bytes with their addresses. -/
def cells (w : Write) : List (Nat × UInt8) := (written w).zip w.bytes

/-- Memory after some writes. -/
def perform (m : Mem) (ws : List Write) : Mem := storeCells m (ws.flatMap cells)

/-! ## What should happen -/

/-- `argv[i]`, as a program finds it. -/
def pointer (m : Mem) (esp i : Nat) : Nat := word m (word m (esp + 4) + 4 * i)

/-- The string that `argv[i]` points to. -/
def argument (m : Mem) (esp i : Nat) : List UInt8 := readString m 4294967296 (pointer m esp i)

/-- **The arguments that a program finds.** -/
def decode (m : Mem) (esp : Nat) : List (List UInt8) := (List.range (word m esp)).map (argument m esp)

/-- The words and strings that it finds them with. -/
inductive Place where
  | argc
  | argv
  | pointer (i : Nat)
  | string (i : Nat)
deriving DecidableEq, Repr

/-- A place that `argc` arguments have. -/
def Place.Among (argc : Nat) : Place → Prop
  | .argc => True
  | .argv => True
  | .pointer i => i < argc
  | .string i => i < argc

/-- The first address of a place. -/
def Place.start (m : Mem) (esp : Nat) : Place → Nat
  | .argc => esp
  | .argv => esp + 4
  | .pointer i => word m (esp + 4) + 4 * i
  | .string i => Sys.pointer m esp i

/-- One past its last address. -/
def Place.stop (m : Mem) (esp : Nat) : Place → Nat
  | .argc => esp + 4
  | .argv => esp + 8
  | .pointer i => word m (esp + 4) + 4 * i + 4
  | .string i => Sys.pointer m esp i + (argument m esp i).length + 1

/-- **The arguments are there** from `esp` on, below `userEsp`, after the writes `ws`. -/
structure Loaded (m : Mem) (esp userEsp : Nat) (ws : List Write) (argv : List CString) : Prop where
  aligned : esp % 16 = 0
  below : esp < userEsp
  decoded : decode m esp = argv.map CString.bytes
  apart : ∀ p q : Place, p.Among argv.length → q.Among argv.length → p ≠ q →
    p.stop m esp ≤ q.start m esp ∨ q.stop m esp ≤ p.start m esp
  inside : ∀ w ∈ ws, ∀ a ∈ written w, esp ≤ a ∧ a < userEsp

/-- **What `load_args` should do**, whatever was in memory. -/
def Loads (userEsp : Nat) (argv : List CString) : Prop :=
  ∀ m, Loaded (perform m (loadArgs userEsp argv).2) (loadArgs userEsp argv).1 userEsp
    (loadArgs userEsp argv).2 argv

/-- The bytes of some strings, with their NULs. -/
def total (argv : List CString) : Nat := (argv.map fun s => s.bytes.length + 1).sum

/-- The bytes of the image: `argc`, `argv`, the pointers and the strings. -/
def image (argv : List CString) : Nat := 4 * (argv.length + 2) + total argv

/-- How many bytes are made room for. -/
def taken (argv : List CString) : Nat := u32 (4 * ((image argv + 15) / 16 * 16))

/-- What is made room for lies below `userEsp`, and is enough; and `memcpy` copies every string. -/
def Fits (userEsp : Nat) (argv : List CString) : Prop :=
  image argv ≤ taken argv ∧ taken argv ≤ userEsp ∧ ∀ s ∈ argv, s.bytes.length + 1 < 2147483648

variable {userEsp esp i j k next sum a p : Nat} {arg s : CString} {argv : List CString} {m : Mem} {w : Write}
  {ws : List Write}

/-! ## The writes -/

theorem total_cons (s : CString) (argv : List CString) :
    total (s :: argv) = s.bytes.length + 1 + total argv := by
  unfold total
  rw [List.map_cons, List.sum_cons]

theorem total_append (argv argv' : List CString) : total (argv ++ argv') = total argv + total argv' := by
  unfold total
  rw [List.map_append, List.sum_append]

theorem CString.len_of_lt (h : s.bytes.length + 1 < 4294967296) : s.len = s.bytes.length + 1 := u32_of_lt h

/-- A sum that does not wrap. -/
theorem foldl_len : ∀ {argv : List CString} {sum : Nat}, sum + total argv < 4294967296 →
    argv.foldl (fun sum arg => u32 (sum + arg.len)) sum = sum + total argv := by
  intro argv
  induction argv with
  | nil => exact fun _ => rfl
  | cons s argv ih =>
    intro sum h
    rw [total_cons] at h
    rw [List.foldl_cons, CString.len_of_lt (by omega), u32_of_lt (by omega), ih (by omega), total_cons]
    omega

/-- Argument `j`. -/
def argAt (argv : List CString) (j : Nat) : CString := argv.getD j ⟨[], List.not_mem_nil⟩

/-- How far above the stack pointer the string `j` is. -/
def offset (argv : List CString) (j : Nat) : Nat := 4 * (argv.length + 2) + total (argv.take j)

/-- The two writes for argument `j`, relative to the stack pointer: its pointer and its string. -/
def piecesFor (esp : Nat) (argv : List CString) (j : Nat) : List Write :=
  [⟨4 * (2 + j), wordBytes (u32 (esp + offset argv j))⟩,
    ⟨offset argv j, ((argAt argv j).bytes ++ [0]).take (rounds (argAt argv j).len)⟩]

/-- All writes, relative to the stack pointer. -/
def pieces (esp : Nat) (argv : List CString) : List Write :=
  ⟨0, wordBytes argv.length⟩ :: ⟨4, wordBytes (u32 (esp + 8))⟩ ::
    (List.range argv.length).flatMap (piecesFor esp argv)

/-- A write from the stack pointer on. -/
def shift (esp : Nat) (w : Write) : Write := ⟨u32 (esp + w.addr), w.bytes⟩

/-- The loop writes a pointer and a string for each argument. -/
theorem loadArgsLoop_eq : ∀ {argv : List CString} {i next : Nat}, next + total argv < 4294967296 →
    loadArgsLoop esp argv i next = (List.range argv.length).flatMap fun j =>
      [⟨u32 (esp + 4 * (2 + (i + j))), wordBytes (u32 (esp + (next + total (argv.take j))))⟩,
        ⟨u32 (esp + (next + total (argv.take j))),
          ((argAt argv j).bytes ++ [0]).take (rounds (argAt argv j).len)⟩] := by
  intro argv
  induction argv with
  | nil => exact fun _ => rfl
  | cons s argv ih =>
    intro i next h
    rw [total_cons] at h
    have hlen : s.len = s.bytes.length + 1 := CString.len_of_lt (by omega)
    have hrest : ∀ j, next + total ((s :: argv).take (j + 1)) = next + s.len + total (argv.take j) := by
      intro j
      rw [List.take_succ_cons, total_cons, hlen]
      omega
    rw [loadArgsLoop, u32_of_lt (show next + s.len < 4294967296 by omega), ih (by omega), List.length_cons,
      List.range_succ_eq_map, List.flatMap_cons, List.flatMap_map]
    show _ :: _ :: _ = _ :: _ :: _
    congr 2
    refine congrArg (List.flatMap · (List.range argv.length)) (funext fun j => ?_)
    show _ = [_, _]
    rw [hrest, show i + 1 + j = i + (j + 1) by omega]
    rfl

theorem sub_lt (x y : Nat) : sub x y < 4294967296 := u32_lt _

/-- **The pointer returned and the writes**, as long as the size of the image does not wrap. -/
theorem loadArgs_eq (h : image argv + 15 < 4294967296) :
    loadArgs userEsp argv = (sub userEsp (taken argv),
      (pieces (sub userEsp (taken argv)) argv).map (shift (sub userEsp (taken argv)))) := by
  unfold image at h
  have hnext : u32 (4 * (argv.length + 1 + 1)) = 4 * (argv.length + 2) := u32_of_lt (by omega)
  have hsum : argv.foldl (fun sum arg => u32 (sum + arg.len)) 0 = total argv := by
    rw [foldl_len (by omega), Nat.zero_add]
  unfold loadArgs
  simp only
  rw [hnext, hsum, u32_of_lt (show total argv + 4 * (argv.length + 2) < 4294967296 by omega),
    u32_of_lt (show total argv + 4 * (argv.length + 2) + 15 < 4294967296 by omega),
    show total argv + 4 * (argv.length + 2) = image argv from Nat.add_comm _ _,
    show sub userEsp (u32 (4 * ((image argv + 15) / 16 * 16))) = sub userEsp (taken argv) from rfl,
    loadArgsLoop_eq (by omega)]
  have hlt := sub_lt userEsp (taken argv)
  generalize sub userEsp (taken argv) = esp at hlt ⊢
  have hfirst : shift esp ⟨0, wordBytes argv.length⟩ = ⟨esp, wordBytes argv.length⟩ := by
    unfold shift
    rw [Nat.add_zero, u32_of_lt hlt]
  have hrest : ∀ j, (piecesFor esp argv j).map (shift esp) =
      [⟨u32 (esp + 4 * (2 + j)), wordBytes (u32 (esp + offset argv j))⟩,
        ⟨u32 (esp + offset argv j), ((argAt argv j).bytes ++ [0]).take (rounds (argAt argv j).len)⟩] :=
    fun _ => rfl
  unfold pieces
  rw [List.map_cons, List.map_cons, List.map_flatMap, hfirst, funext hrest]
  simp only [Nat.zero_add]
  rfl

/-! ## Where the strings are -/

theorem offset_succ (hj : j < argv.length) :
    offset argv (j + 1) = offset argv j + ((argAt argv j).bytes.length + 1) := by
  have harg : argAt argv j = argv[j] := by
    unfold argAt
    rw [List.getD_eq_getElem?_getD, List.getElem?_eq_getElem hj, Option.getD_some]
  unfold offset
  rw [harg, ← List.take_append_getElem hj, total_append, total_cons]
  show _ + (_ + (_ + 1 + 0)) = _
  omega

theorem offset_length (argv : List CString) : offset argv argv.length = image argv := by
  unfold offset image
  rw [List.take_length]

theorem offset_mono (h : i ≤ j) : offset argv i ≤ offset argv j := by
  have hsplit : total (argv.take i) ≤ total (argv.take j) := by
    have hcut : argv.take j = argv.take i ++ (argv.take j).drop i := by
      have hfront := List.take_append_drop i (argv.take j)
      rw [List.take_take, Nat.min_eq_left h] at hfront
      exact hfront.symm
    rw [hcut, total_append]
    exact Nat.le_add_right _ _
  unfold offset
  omega

/-- Strings lie behind the pointers, one behind the other, and inside of the image. -/
theorem offset_bounds (hj : j < argv.length) :
    4 * (argv.length + 2) ≤ offset argv j ∧ offset argv (j + 1) ≤ image argv := by
  rw [← offset_length]
  exact ⟨Nat.le_add_right _ _, offset_mono hj⟩

/-- What is written for argument `j`. -/
theorem piecesFor_bounds (hj : j < argv.length) (hw : w ∈ piecesFor esp argv j) :
    (w.addr = 4 * (2 + j) ∧ w.stop = 4 * (2 + j) + 4) ∨
      (w.addr = offset argv j ∧ w.stop ≤ offset argv (j + 1)) := by
  unfold piecesFor at hw
  rcases List.mem_cons.1 hw with rfl | hw
  · exact Or.inl ⟨rfl, rfl⟩
  · obtain rfl := List.mem_singleton.1 hw
    refine Or.inr ⟨rfl, ?_⟩
    rw [offset_succ hj]
    show offset argv j + (((argAt argv j).bytes ++ [0]).take _).length ≤ _
    rw [List.length_take, List.length_append]
    show _ + min _ ((argAt argv j).bytes.length + 1) ≤ _
    omega

/-- A write is one of the first two, or for an argument. -/
theorem mem_pieces (hw : w ∈ pieces esp argv) : w = ⟨0, wordBytes argv.length⟩ ∨
    w = ⟨4, wordBytes (u32 (esp + 8))⟩ ∨ ∃ j < argv.length, w ∈ piecesFor esp argv j := by
  unfold pieces at hw
  rcases List.mem_cons.1 hw with hw | hw
  · exact Or.inl hw
  · rcases List.mem_cons.1 hw with hw | hw
    · exact Or.inr (Or.inl hw)
    · obtain ⟨j, hj, hw⟩ := List.mem_flatMap.1 hw
      exact Or.inr (Or.inr ⟨j, List.mem_range.1 hj, hw⟩)

theorem piecesFor_mem (hj : j < argv.length) (hw : w ∈ piecesFor esp argv j) : w ∈ pieces esp argv :=
  List.mem_cons_of_mem _ (List.mem_cons_of_mem _ (List.mem_flatMap.2 ⟨j, List.mem_range.2 hj, hw⟩))

theorem pieces_stop_le (hw : w ∈ pieces esp argv) : w.stop ≤ image argv := by
  have himage : 4 * (argv.length + 2) ≤ image argv := Nat.le_add_right _ _
  rcases mem_pieces hw with rfl | rfl | ⟨j, hj, hw⟩
  · show 0 + 4 ≤ _
    omega
  · show 4 + 4 ≤ _
    omega
  · have hoffset := offset_bounds hj
    rcases piecesFor_bounds hj hw with ⟨-, hstop⟩ | ⟨-, hstop⟩
    · omega
    · omega

/-- **The writes lie apart.** -/
theorem pieces_apart (esp : Nat) (argv : List CString) : (pieces esp argv).Pairwise Write.Apart := by
  have hstart : ∀ j < argv.length, ∀ w ∈ piecesFor esp argv j, 8 ≤ w.addr := by
    intro j hj w hw
    have hoffset := offset_bounds hj
    rcases piecesFor_bounds hj hw with ⟨haddr, -⟩ | ⟨haddr, -⟩
    · omega
    · omega
  have hrest : ∀ w ∈ (List.range argv.length).flatMap (piecesFor esp argv), 8 ≤ w.addr := by
    intro w hw
    obtain ⟨j, hj, hw⟩ := List.mem_flatMap.1 hw
    exact hstart j (List.mem_range.1 hj) w hw
  refine List.pairwise_cons.2 ⟨fun w hw => ?_, List.pairwise_cons.2 ⟨fun w hw => Or.inl (hrest w hw), ?_⟩⟩
  · rcases List.mem_cons.1 hw with rfl | hw
    · exact Or.inl (Nat.le_refl 4)
    · have := hrest w hw
      exact Or.inl (show 0 + 4 ≤ w.addr by omega)
  · refine List.pairwise_flatMap.2 ⟨fun j hj => ?_, ?_⟩
    · -- a pointer and its string
      have hj := List.mem_range.1 hj
      have hoffset := offset_bounds hj
      refine List.pairwise_cons.2 ⟨fun w hw => ?_, List.pairwise_singleton _ _⟩
      obtain rfl := List.mem_singleton.1 hw
      exact Or.inl (show 4 * (2 + j) + 4 ≤ offset argv j by omega)
    · refine List.pairwise_lt_range.imp_of_mem fun {i j} hi hj hij v hv w hw => ?_
      have hi := List.mem_range.1 hi
      have hj := List.mem_range.1 hj
      have hoffseti := offset_bounds hi
      have hoffsetj := offset_bounds hj
      have hmono : offset argv (i + 1) ≤ offset argv j := offset_mono hij
      unfold Write.Apart
      rcases piecesFor_bounds hi hv with ⟨hv1, hv2⟩ | ⟨hv1, hv2⟩
      · rcases piecesFor_bounds hj hw with ⟨hw1, hw2⟩ | ⟨hw1, hw2⟩
        · omega
        · omega
      · rcases piecesFor_bounds hj hw with ⟨hw1, hw2⟩ | ⟨hw1, hw2⟩
        · omega
        · omega

/-! ## What is read -/

theorem written_shift (esp : Nat) (w : Write) :
    written (shift esp w) = w.places.map fun x => u32 (esp + x) := by
  unfold written Write.places shift
  rw [List.range'_eq_map_range, List.range'_eq_map_range, List.map_map, List.map_map]
  refine List.map_congr_left fun k _ => ?_
  show u32 (u32 (esp + w.addr) + k) = u32 (esp + (w.addr + k))
  rw [u32_add, Nat.add_assoc]

theorem cells_fst (w : Write) : (cells w).map Prod.fst = written w := by
  unfold cells
  refine List.map_fst_zip (Nat.le_of_eq ?_)
  unfold written Write.places
  rw [List.length_map, List.length_range']

theorem map_fst_cells (esp : Nat) (ws : List Write) :
    ((ws.map (shift esp)).flatMap cells).map Prod.fst =
      (ws.flatMap Write.places).map fun x => u32 (esp + x) := by
  rw [List.map_flatMap, List.flatMap_map, List.map_flatMap]
  refine congrArg (List.flatMap · ws) (funext fun w => ?_)
  rw [cells_fst, written_shift]

/-- Places less than a word apart stay apart when addresses wrap around. -/
theorem u32_inj {x y : Nat} (hx : x < 4294967296) (hy : y < 4294967296) (h : u32 (esp + x) = u32 (esp + y)) :
    x = y := by
  rw [u32_eq, u32_eq] at h
  omega

/-- No address is written to twice. -/
theorem nodup_cells (h : image argv ≤ 4294967296) :
    ((((pieces esp argv).map (shift esp)).flatMap cells).map Prod.fst).Nodup := by
  rw [map_fst_cells]
  refine (nodup_places (pieces_apart esp argv)).map_on fun x hx y hy heq => ?_
  obtain ⟨v, hv, hx⟩ := List.mem_flatMap.1 hx
  obtain ⟨w, hw, hy⟩ := List.mem_flatMap.1 hy
  have hvstop := pieces_stop_le hv
  have hwstop := pieces_stop_le hw
  have hx := (Write.mem_places.1 hx).2
  have hy := (Write.mem_places.1 hy).2
  exact u32_inj (by omega) (by omega) heq

/-- Memory after all writes. -/
def stackOf (m : Mem) (esp : Nat) (argv : List CString) : Mem := perform m ((pieces esp argv).map (shift esp))

/-- **Each byte written is there in the end.** -/
theorem perform_at (h : image argv ≤ 4294967296) (hw : w ∈ pieces esp argv) (hk : k < w.bytes.length) :
    stackOf m esp argv (u32 (esp + (w.addr + k))) = w.bytes.getD k 0 := by
  have hcell : (u32 (esp + (w.addr + k)), w.bytes.getD k 0) ∈ cells (shift esp w) := by
    unfold cells
    rw [written_shift, List.mem_iff_getElem]
    have hlength : w.places.length = w.bytes.length := List.length_range'
    refine ⟨k, ?_, ?_⟩
    · rw [List.length_zip, List.length_map, hlength]
      show k < min w.bytes.length w.bytes.length
      omega
    · rw [List.getElem_zip, List.getElem_map]
      unfold Write.places
      rw [List.getElem_range', Nat.one_mul, List.getD_eq_getElem?_getD, List.getElem?_eq_getElem hk]
      rfl
  exact storeCells_at (nodup_cells h)
    (List.mem_flatMap.2 ⟨shift esp w, List.mem_map.2 ⟨w, hw, rfl⟩, hcell⟩)

/-- What lies in no write stays. -/
theorem perform_outside {x : Nat} (h : image argv ≤ 4294967296) (hx : x < 4294967296)
    (hout : ∀ w ∈ pieces esp argv, x < w.addr ∨ w.stop ≤ x) :
    stackOf m esp argv (u32 (esp + x)) = m (u32 (esp + x)) := by
  refine storeCells_outside ?_
  rw [map_fst_cells]
  intro hmem
  obtain ⟨y, hy, heq⟩ := List.mem_map.1 hmem
  obtain ⟨w, hw, hy⟩ := List.mem_flatMap.1 hy
  obtain ⟨h1, h2⟩ := Write.mem_places.1 hy
  have hstop := pieces_stop_le hw
  have := u32_inj (by omega) hx heq
  have := hout w hw
  omega

/-- A word that is written is read. -/
theorem word_perform {x v : Nat} (h : image argv ≤ 4294967296) (hw : ⟨x, wordBytes v⟩ ∈ pieces esp argv)
    (hv : v < 4294967296) (hfit : esp + x + 4 ≤ 4294967296) :
    word (stackOf m esp argv) (esp + x) = v := by
  refine word_of_bytes hv fun k hk => ?_
  have hbyte := perform_at (m := m) h hw hk
  rw [u32_of_lt (show esp + (x + k) < 4294967296 by omega), ← Nat.add_assoc] at hbyte
  exact hbyte

/-- `argc` and `argv`, as a program finds them. -/
theorem header_perform (h : image argv ≤ 4294967296) (hfit : esp + 8 < 4294967296) :
    word (stackOf m esp argv) esp = argv.length ∧
      word (stackOf m esp argv) (esp + 4) = esp + 8 := by
  have himage : 4 * (argv.length + 2) ≤ image argv := Nat.le_add_right _ _
  have hargc : (⟨0, wordBytes argv.length⟩ : Write) ∈ pieces esp argv := List.mem_cons_self
  have hargv : (⟨4, wordBytes (esp + 8)⟩ : Write) ∈ pieces esp argv := by
    refine List.mem_cons_of_mem _ ?_
    rw [u32_of_lt hfit]
    exact List.mem_cons_self
  have hfirst := word_perform (m := m) h hargc (by omega) (by omega)
  rw [Nat.add_zero] at hfirst
  exact ⟨hfirst, word_perform h hargv (by omega) (by omega)⟩

/-- **A pointer**, as a program finds it. -/
theorem pointer_perform (h : image argv ≤ 4294967296) (hj : j < argv.length)
    (hfit : esp + offset argv j < 4294967296) :
    pointer (stackOf m esp argv) esp j = esp + offset argv j := by
  have hoffset := offset_bounds hj
  have hpiece : (⟨4 * (2 + j), wordBytes (esp + offset argv j)⟩ : Write) ∈ pieces esp argv := by
    refine piecesFor_mem hj ?_
    unfold piecesFor
    rw [u32_of_lt hfit]
    exact List.mem_cons_self
  unfold pointer
  rw [(header_perform h (by omega)).2, show esp + 8 + 4 * j = esp + 4 * (2 + j) by omega]
  exact word_perform h hpiece hfit (by omega)

/-- What is copied of an argument that is short. -/
theorem take_short (hshort : s.bytes.length + 1 < 2147483648) :
    (s.bytes ++ [0]).take (rounds s.len) = s.bytes ++ [0] := by
  rw [CString.len_of_lt (by omega), rounds_of_lt hshort]
  refine List.take_of_length_le ?_
  rw [List.length_append]
  exact Nat.le_refl _

/-- A string that `memcpy` copies is read. -/
theorem argument_perform (h : image argv ≤ 4294967296) (hj : j < argv.length)
    (hfit : esp + image argv ≤ 4294967296)
    (hshort : (argAt argv j).bytes.length + 1 < 2147483648) :
    argument (stackOf m esp argv) esp j = (argAt argv j).bytes := by
  have hoffset := offset_bounds hj
  have hnext := offset_succ hj
  have hpointer : pointer (stackOf m esp argv) esp j = esp + offset argv j :=
    pointer_perform h hj (by omega)
  have hpiece : (⟨offset argv j, (argAt argv j).bytes ++ [0]⟩ : Write) ∈ pieces esp argv := by
    refine piecesFor_mem hj (List.mem_cons_of_mem _ ?_)
    rw [take_short hshort]
    exact List.mem_cons_self
  have hread : ∀ fuel, (argAt argv j).bytes.length < fuel →
      readString (stackOf m esp argv) fuel (esp + offset argv j) =
        (argAt argv j).bytes := by
    intro fuel hfuel
    refine readString_eq (argAt argv j).noNul hfuel fun k hk => ?_
    have hbyte := perform_at (m := m) h hpiece (k := k) (by rw [List.length_append]; exact hk)
    rw [u32_of_lt (show esp + (offset argv j + k) < 4294967296 by omega), ← Nat.add_assoc] at hbyte
    exact hbyte
  unfold argument
  rw [hpointer]
  exact hread _ (by omega)

theorem argAt_eq (hj : j < argv.length) : argAt argv j = argv[j] := by
  unfold argAt
  rw [List.getD_eq_getElem?_getD, List.getElem?_eq_getElem hj, Option.getD_some]

/-! ## When all is well -/

/-- Where a place is to be. -/
def Place.span (esp : Nat) (argv : List CString) : Place → Nat × Nat
  | .argc => (esp, esp + 4)
  | .argv => (esp + 4, esp + 8)
  | .pointer i => (esp + 4 * (2 + i), esp + 4 * (2 + i) + 4)
  | .string i => (esp + offset argv i, esp + offset argv (i + 1))

/-- Two pointers, or two strings. -/
theorem span_apart_same (argv : List CString) (hne : i ≠ j) :
    (4 * (2 + i) + 4 ≤ 4 * (2 + j) ∨ 4 * (2 + j) + 4 ≤ 4 * (2 + i)) ∧
      (offset argv (i + 1) ≤ offset argv j ∨ offset argv (j + 1) ≤ offset argv i) := by
  refine ⟨by omega, ?_⟩
  rcases Nat.lt_or_gt_of_ne hne with hij | hji
  · exact Or.inl (offset_mono hij)
  · exact Or.inr (offset_mono hji)

/-- **The places lie apart.** -/
theorem span_apart {p q : Place} (hp : p.Among argv.length) (hq : q.Among argv.length) (hne : p ≠ q) :
    (p.span esp argv).2 ≤ (q.span esp argv).1 ∨ (q.span esp argv).2 ≤ (p.span esp argv).1 := by
  have hpointer : ∀ i, i < argv.length → 4 * (2 + i) + 4 ≤ 4 * (argv.length + 2) := fun i hi => by omega
  have hstring : ∀ i, i < argv.length → 4 * (argv.length + 2) ≤ offset argv i :=
    fun i hi => (offset_bounds hi).1
  cases p with
  | argc =>
    cases q with
    | argc => exact absurd rfl hne
    | argv => exact Or.inl (Nat.le_refl _)
    | pointer j => exact Or.inl (show esp + 4 ≤ esp + 4 * (2 + j) by omega)
    | string j =>
      have := hstring j hq
      exact Or.inl (show esp + 4 ≤ esp + offset argv j by omega)
  | argv =>
    cases q with
    | argc => exact Or.inr (Nat.le_refl _)
    | argv => exact absurd rfl hne
    | pointer j => exact Or.inl (show esp + 8 ≤ esp + 4 * (2 + j) by omega)
    | string j =>
      have := hstring j hq
      exact Or.inl (show esp + 8 ≤ esp + offset argv j by omega)
  | pointer i =>
    have hi := hpointer i hp
    cases q with
    | argc => exact Or.inr (show esp + 4 ≤ esp + 4 * (2 + i) by omega)
    | argv => exact Or.inr (show esp + 8 ≤ esp + 4 * (2 + i) by omega)
    | pointer j =>
      have hij := (span_apart_same argv fun h => hne (congrArg Place.pointer h)).1
      show esp + 4 * (2 + i) + 4 ≤ esp + 4 * (2 + j) ∨ esp + 4 * (2 + j) + 4 ≤ esp + 4 * (2 + i)
      omega
    | string j =>
      have := hstring j hq
      exact Or.inl (show esp + 4 * (2 + i) + 4 ≤ esp + offset argv j by omega)
  | string i =>
    have hi := hstring i hp
    cases q with
    | argc => exact Or.inr (show esp + 4 ≤ esp + offset argv i by omega)
    | argv => exact Or.inr (show esp + 8 ≤ esp + offset argv i by omega)
    | pointer j =>
      have := hpointer j hq
      exact Or.inr (show esp + 4 * (2 + j) + 4 ≤ esp + offset argv i by omega)
    | string j =>
      have hij := (span_apart_same argv fun h => hne (congrArg Place.string h)).2
      show esp + offset argv (i + 1) ≤ esp + offset argv j ∨ esp + offset argv (j + 1) ≤ esp + offset argv i
      omega

/-- **The image is in place** when there is room for it. -/
theorem loaded_of_fits (hesp : esp % 16 = 0) (hbelow : esp < userEsp) (huser : userEsp < 4294967296)
    (hroom : esp + image argv ≤ userEsp) (hshort : ∀ s ∈ argv, s.bytes.length + 1 < 2147483648) :
    Loaded (stackOf m esp argv) esp userEsp ((pieces esp argv).map (shift esp)) argv := by
  have h : image argv ≤ 4294967296 := by omega
  have himage : 4 * (argv.length + 2) ≤ image argv := Nat.le_add_right _ _
  have hargc : word (stackOf m esp argv) esp = argv.length :=
    (header_perform h (by omega)).1
  have hargv : word (stackOf m esp argv) (esp + 4) = esp + 8 :=
    (header_perform h (by omega)).2
  have hpointer : ∀ j < argv.length,
      pointer (stackOf m esp argv) esp j = esp + offset argv j := by
    intro j hj
    have hoffset := offset_bounds hj
    have hnext := offset_succ hj
    exact pointer_perform h hj (by omega)
  have hargument : ∀ j < argv.length,
      argument (stackOf m esp argv) esp j = (argAt argv j).bytes := by
    intro j hj
    refine argument_perform h hj (by omega) (hshort _ ?_)
    rw [argAt_eq hj]
    exact List.getElem_mem hj
  have hspan : ∀ p : Place, p.Among argv.length →
      p.start (stackOf m esp argv) esp = (p.span esp argv).1 ∧
        p.stop (stackOf m esp argv) esp = (p.span esp argv).2 := by
    intro p hp
    cases p with
    | argc => exact ⟨rfl, rfl⟩
    | argv => exact ⟨rfl, rfl⟩
    | pointer i =>
      unfold Place.start Place.stop Place.span
      simp only
      rw [hargv]
      omega
    | string i =>
      unfold Place.start Place.stop Place.span
      simp only
      rw [hpointer i hp, hargument i hp, offset_succ hp]
      omega
  refine ⟨hesp, hbelow, ?_, fun p q hp hq hne => ?_, fun w hw a ha => ?_⟩
  · unfold decode
    rw [hargc]
    refine List.ext_getElem (by rw [List.length_map, List.length_map, List.length_range]) fun j h1 h2 => ?_
    have hj : j < argv.length := by
      rw [List.length_map] at h2
      exact h2
    rw [List.getElem_map, List.getElem_map, List.getElem_range, hargument j hj, argAt_eq hj]
  · rw [(hspan p hp).1, (hspan p hp).2, (hspan q hq).1, (hspan q hq).2]
    exact span_apart hp hq hne
  · obtain ⟨v, hv, rfl⟩ := List.mem_map.1 hw
    rw [written_shift] at ha
    obtain ⟨x, hx, rfl⟩ := List.mem_map.1 ha
    have hstop := pieces_stop_le hv
    have hx := (Write.mem_places.1 hx).2
    rw [u32_of_lt (by omega)]
    omega

/-! ## When it is not -/

/-- A write that is no empty one ends below `userEsp`, if it lies between the two pointers. -/
theorem stop_le_of_inside (himage : image argv ≤ userEsp) (huser : userEsp < 4294967296)
    (hinside : ∀ w ∈ (pieces esp argv).map (shift esp), ∀ a ∈ written w, esp ≤ a ∧ a < userEsp)
    (hw : w ∈ pieces esp argv) (hne : w.bytes ≠ []) : esp + w.stop ≤ userEsp := by
  have hstop := pieces_stop_le hw
  have hlength : 0 < w.bytes.length := List.length_pos_of_ne_nil hne
  have hend : w.stop = w.addr + w.bytes.length := rfl
  -- its last byte; should its address wrap around, it lies below the pointer returned
  have hlast : u32 (esp + (w.stop - 1)) ∈ written (shift esp w) := by
    rw [written_shift]
    exact List.mem_map.2 ⟨_, Write.mem_places.2 ⟨by omega, by omega⟩, rfl⟩
  have hin := hinside _ (List.mem_map.2 ⟨w, hw, rfl⟩) _ hlast
  rw [u32_eq] at hin
  omega

/-- Of one that is not, nothing is copied. -/
theorem take_long (hlong : 2147483648 ≤ s.bytes.length + 1) (hword : s.bytes.length + 1 < 4294967296) :
    (s.bytes ++ [0]).take (rounds s.len) = [] := by
  rw [CString.len_of_lt hword, rounds_of_ge hlong hword, List.take_zero]

/-- Up to an argument before which all are short, the stack does not wrap around. -/
theorem offset_le_of_inside (himage : image argv ≤ userEsp) (huser : userEsp < 4294967296)
    (hinside : ∀ w ∈ (pieces esp argv).map (shift esp), ∀ a ∈ written w, esp ≤ a ∧ a < userEsp)
    (hj : j ≤ argv.length) (hshort : ∀ i < j, (argAt argv i).bytes.length + 1 < 2147483648) :
    esp + offset argv j ≤ userEsp := by
  cases j with
  | zero =>
    have hzero : offset argv 0 = 4 * (argv.length + 2) := rfl
    rw [hzero]
    cases hn : argv.length with
    | zero =>
      have hargv := stop_le_of_inside himage huser hinside
        (List.mem_cons_of_mem _ List.mem_cons_self) (List.cons_ne_nil _ _)
      have hstop : esp + (4 + 4) ≤ userEsp := hargv
      omega
    | succ n =>
      have hlast := stop_le_of_inside himage huser hinside
        (piecesFor_mem (show n < argv.length by omega) List.mem_cons_self) (List.cons_ne_nil _ _)
      have hstop : esp + (4 * (2 + n) + 4) ≤ userEsp := hlast
      omega
  | succ j =>
    have hcopied := take_short (hshort j (Nat.lt_succ_self j))
    have hpiece : (⟨offset argv j, (argAt argv j).bytes ++ [0]⟩ : Write) ∈ pieces esp argv := by
      refine piecesFor_mem hj (List.mem_cons_of_mem _ ?_)
      rw [hcopied]
      exact List.mem_cons_self
    have hstop := stop_le_of_inside himage huser hinside hpiece (by simp)
    have hend : (⟨offset argv j, (argAt argv j).bytes ++ [0]⟩ : Write).stop = offset argv (j + 1) := by
      rw [offset_succ hj]
      show _ + ((argAt argv j).bytes ++ [0]).length = _
      rw [List.length_append]
      rfl
    rw [← hend]
    exact hstop

/-- The bytes of two arguments are bytes of the image. -/
theorem two_le_image (hij : i < j) (hj : j < argv.length) :
    (argAt argv i).bytes.length + 1 + ((argAt argv j).bytes.length + 1) ≤ image argv := by
  have hi : offset argv (i + 1) = offset argv i + ((argAt argv i).bytes.length + 1) := offset_succ (by omega)
  have hj' := offset_succ hj
  have hmono : offset argv (i + 1) ≤ offset argv j := offset_mono hij
  have hend := (offset_bounds hj).2
  omega

/-- **An argument that is not copied** is not found, if memory was zero. -/
theorem not_decoded_of_long (himage : image argv ≤ userEsp) (huser : userEsp < 4294967296)
    (hj : j < argv.length)
    (hlong : 2147483648 ≤ (argAt argv j).bytes.length + 1) (hfit : esp + offset argv j ≤ userEsp) :
    decode (stackOf (fun _ => 0) esp argv) esp ≠ argv.map CString.bytes := by
  have h : image argv ≤ 4294967296 := by omega
  have hoffset := offset_bounds hj
  have hnext := offset_succ hj
  have hcopied := take_long hlong (by omega)
  -- the place of the string is that of no write
  have hout : ∀ w ∈ pieces esp argv, offset argv j < w.addr ∨ w.stop ≤ offset argv j := by
    intro w hw
    rcases mem_pieces hw with rfl | rfl | ⟨i, hi, hw⟩
    · exact Or.inr (show 0 + 4 ≤ offset argv j by omega)
    · exact Or.inr (show 4 + 4 ≤ offset argv j by omega)
    · have hbounds := piecesFor_bounds hi hw
      unfold piecesFor at hw
      rcases List.mem_cons.1 hw with rfl | hw
      · exact Or.inr (show 4 * (2 + i) + 4 ≤ offset argv j by omega)
      · rcases Nat.lt_trichotomy i j with hij | rfl | hji
        · have hmono : offset argv (i + 1) ≤ offset argv j := offset_mono hij
          rcases hbounds with ⟨-, hstop⟩ | ⟨-, hstop⟩
          · omega
          · omega
        · obtain rfl := List.mem_singleton.1 hw
          rw [hcopied]
          exact Or.inr (Nat.le_refl _)
        · have hmono : offset argv (j + 1) ≤ offset argv i := offset_mono hji
          obtain rfl := List.mem_singleton.1 hw
          exact Or.inl (show offset argv j < offset argv i by omega)
  have hzero := perform_outside (m := fun _ => 0) h (by omega) hout
  rw [u32_of_lt (show esp + offset argv j < 4294967296 by omega)] at hzero
  intro hdecoded
  have hargument : argument (stackOf (fun _ => 0) esp argv) esp j =
      (argAt argv j).bytes := by
    have hat := congrArg (·[j]?) hdecoded
    unfold decode at hat
    simp only [List.getElem?_map] at hat
    rw [(header_perform h (by omega)).1, List.getElem?_range hj, List.getElem?_eq_getElem hj,
      ← argAt_eq hj] at hat
    exact Option.some.inj hat
  unfold argument at hargument
  rw [pointer_perform h hj (by omega), readString_nul hzero] at hargument
  rw [← hargument] at hlong
  exact absurd hlong (by decide)

/-! ## The result -/

theorem taken_lt (argv : List CString) : taken argv < 4294967296 := u32_lt _

theorem sub_of_le {x y : Nat} (h : y ≤ x) (hx : x < 4294967296) : sub x y = x - y := by
  unfold sub
  rw [u32_eq]
  omega

/-- **`load_args` does what it should if and only if `Fits`**: for every stack pointer that is a multiple of 16
    and all arguments whose image fits below it. -/
theorem loadArgs_iff (userEsp : Nat) (argv : List CString) (h16 : userEsp % 16 = 0)
    (huser : userEsp < 4294967296) (himage : image argv ≤ userEsp) :
    Loads userEsp argv ↔ Fits userEsp argv := by
  have hlt := taken_lt argv
  unfold Loads
  rw [loadArgs_eq (by omega)]
  simp only
  constructor
  · intro hloads
    have hbelow := (hloads fun _ => 0).below
    have hinside := (hloads fun _ => 0).inside
    have htaken : taken argv ≤ userEsp := by
      unfold sub at hbelow
      rw [u32_eq] at hbelow
      omega
    rw [sub_of_le htaken huser] at hbelow hinside hloads
    -- were an argument long, it would be the only one
    have hshort : ∀ j < argv.length, (argAt argv j).bytes.length + 1 < 2147483648 := by
      intro j hj
      by_contra hlong
      have hbefore : ∀ i < j, (argAt argv i).bytes.length + 1 < 2147483648 := by
        intro i hi
        have := two_le_image hi hj
        omega
      have hfit := offset_le_of_inside himage huser hinside (Nat.le_of_lt hj) hbefore
      exact not_decoded_of_long himage huser hj (by omega) hfit (hloads fun _ => 0).decoded
    have hall := offset_le_of_inside himage huser hinside (Nat.le_refl _) hshort
    rw [offset_length] at hall
    refine ⟨by omega, htaken, fun s hs => ?_⟩
    obtain ⟨j, hj, rfl⟩ := List.mem_iff_getElem.1 hs
    rw [← argAt_eq hj]
    exact hshort j hj
  · rintro ⟨henough, htaken, hshort⟩ m
    rw [sub_of_le htaken huser]
    have himage8 : 8 ≤ image argv := by
      unfold image
      omega
    refine loaded_of_fits ?_ (by omega) huser (by omega) hshort
    have htaken16 : taken argv % 16 = 0 := by
      unfold taken
      rw [u32_eq]
      omega
    omega

/-- The argument of the first program. -/
def initArg : CString := ⟨[105, 110, 105, 116], by decide⟩

/-- An empty argument. -/
def emptyArg : CString := ⟨[], by decide⟩

/-- Two arguments, one of them empty, on the first program's stack. -/
theorem loadArgs_iff_init : Loads 2281701360 [initArg, emptyArg] :=
  (loadArgs_iff 2281701360 [initArg, emptyArg] (by decide) (by decide) (by decide)).2
    ⟨by decide +kernel, by decide +kernel, by decide⟩

/-- The image of `init` is 17 bytes long, and 128 are subtracted. -/
theorem loadArgs_wraps : ¬ ∀ userEsp argv, userEsp % 16 = 0 → userEsp < 4294967296 → image argv ≤ userEsp →
    Loads userEsp argv := by
  intro hall
  have hloads := hall 48 [initArg] (by decide) (by decide) (by decide) fun _ => 0
  have hwraps : (loadArgs 48 [initArg]).1 = 4294967216 := by decide +kernel
  have hbelow := hloads.below
  rw [hwraps] at hbelow
  exact absurd hbelow (by decide)

end Sys

end BadApple
