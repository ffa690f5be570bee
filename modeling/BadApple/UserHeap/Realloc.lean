/-
  `realloc` of a user program's heap: what it keeps when there is room, and what it does when there is none.

  1. **What should happen** — `Reallocates`: a result that is not null has the bytes of the old block, as many
     as fit, and every other live block has its own; null means that the heap is as it was, so that the old
     block is still live.
  2. **Invariant** — `UserInv`: the array is laid out, and what the program holds points to taken blocks.
     `malloc`, `free` and a write of a byte keep it, and keep the bytes of the other live blocks (`SameBytes`);
     `realloc` is a sequence of these.
  3. **The result** — `realloc_laws`: in every run in which `realloc` is called only where there is room, it
     does what it should wherever there is room again.  Where there is none it returns null, but has freed the
     block.  A size whose sum with 3 wraps is no request that there is room for: the block returned is one of
     four `int`s, and the copy goes on behind it.
-/
import BadApple.UserHeap.Bytes

namespace BadApple

open Gheith
open Machine
open Rows

namespace UserHeap

variable {h h' h'' : Heap} {u u' : Use} {bs bs' : List Gheith.Block} {l l' : List Int} {i mx : Int}
  {b c : Gheith.Block} {bytes newSize p q k n : Nat} {live : List Nat}

/-! ## What should happen -/

/-- The bytes that the program may use at `p` are as they were. -/
def SameBytes (h h' : Heap) (p : Nat) : Prop :=
  room h' p = room h p ∧ ∀ k < room h p, byte h' (p + k) = byte h (p + k)

/-- **The right outcome** of `realloc(p, newSize)`. -/
def Reallocates (u : Use) (p newSize : Nat) : Prop :=
  ∃ q h', realloc u.heap p newSize = some (q, h') ∧
    (q ≠ 0 → min (room u.heap p) newSize ≤ room h' q ∧
      (∀ k < min (room u.heap p) newSize, byte h' (q + k) = byte u.heap (p + k)) ∧
      ∀ p' ∈ u.live, p' ≠ p → SameBytes u.heap h' p') ∧
    (q = 0 → h' = u.heap)

/-- The avail list. -/
def availList (h : Heap) : List Int := Chains.walk h.nextOf h.len.toNat (link h.avail)

/-- Some block of the avail list has `bytes` bytes between header and footer. -/
def HasRoom (h : Heap) (bytes : Nat) : Prop := ∃ i ∈ availList h, bytes ≤ h.payload i

instance (h : Heap) (bytes : Nat) : Decidable (HasRoom h bytes) :=
  inferInstanceAs (Decidable (∃ i ∈ availList h, bytes ≤ h.payload i))

/-- There is room for what `realloc` is called for, and its size can be rounded up. -/
def Granted (u : Use) : Op → Prop
  | .realloc p newSize =>
    p ≠ 0 → newSize ≤ 0xFFFFFFFC ∧ (p ≠ u.heap.base → newSize ≠ 0 → HasRoom u.heap newSize)
  | _ => True

instance (u : Use) : (a : Op) → Decidable (Granted u a)
  | .realloc p newSize => inferInstanceAs (Decidable (p ≠ 0 →
      newSize ≤ 0xFFFFFFFC ∧ (p ≠ u.heap.base → newSize ≠ 0 → HasRoom u.heap newSize)))
  | .malloc _ => inferInstanceAs (Decidable True)
  | .free _ => inferInstanceAs (Decidable True)
  | .write _ _ _ => inferInstanceAs (Decidable True)

/-- A program starts with the heap that `heap_init` makes of an array that lies somewhere in memory. -/
def Start (u : Use) : Prop :=
  u.live = [] ∧ ∃ base mem, 0 < base ∧ base + 4194304 ≤ 4294967296 ∧ u.heap = heapInit base mem

/-- The states of all runs of a program. -/
def UserHeapRuns : Use → Prop := Runs.Reached Start fun u a u' => step u a = some u'

/-- The states of all runs of a program in which `realloc` is called where there is room. -/
def GrantedRuns : Use → Prop :=
  Runs.Guarded Start (fun u a u' => step u a = some u') Granted

/-! ## Where blocks are -/

theorem SameBytes.refl (h : Heap) (p : Nat) : SameBytes h h p := ⟨rfl, fun _ _ => rfl⟩

theorem SameBytes.trans (h₁ : SameBytes h h' p) (h₂ : SameBytes h' h'' p) : SameBytes h h'' p := by
  refine ⟨h₂.1.trans h₁.1, fun k hk => ?_⟩
  rw [h₂.2 k (by rw [h₁.1]; exact hk), h₁.2 k hk]

theorem intOf_addr (h : Heap) (hi : 0 ≤ i) (k : Nat) :
    intOf h (h.addr (i + 1) + k) = i + 1 + (k / 4 : Nat) := by
  unfold intOf Heap.addr
  omega

/-- What the program may use of a taken block. -/
theorem room_addr (hL : LaidOut h bs l) (hb : b ∈ bs) :
    room h (h.addr (b.start + 1)) = (4 * (Heap.abs b.tag - 2)).toNat := by
  have hlt := base_lt_addr h (hL.start_nonneg hb)
  unfold room Heap.payload
  rw [if_neg (by omega), idx_addr h (hL.start_nonneg hb), hL.shape.size_eq hb]

/-- A byte that the program may use lies between header and footer. -/
theorem intOf_inside (hL : LaidOut h bs l) (hb : b ∈ bs) (hk : k < room h (h.addr (b.start + 1))) :
    b.start < intOf h (h.addr (b.start + 1) + k) ∧ intOf h (h.addr (b.start + 1) + k) < b.stop - 1 := by
  rw [room_addr hL hb] at hk
  rw [intOf_addr h (hL.start_nonneg hb)]
  show _ ∧ _ < b.start + Heap.abs b.tag - 1
  omega

/-- Payloads that are kept, byte by byte. -/
theorem sameBytes_of_keeps (hL : LaidOut h bs l) (hL' : LaidOut h' bs' l') (hf : h'.SameFrame h)
    (hb : b ∈ bs) (hb' : b ∈ bs') (hkeeps : ∀ k, b.start < k → k < b.stop - 1 → h'.array k = h.array k) :
    SameBytes h h' (h.addr (b.start + 1)) := by
  have haddr : h'.addr (b.start + 1) = h.addr (b.start + 1) := addr_congr hf _
  refine ⟨?_, fun k hk => ?_⟩
  · rw [room_addr hL hb, ← haddr, room_addr hL' hb']
  · obtain ⟨h1, h2⟩ := intOf_inside hL hb hk
    exact byte_congr hf.1 (hkeeps _ h1 h2)

/-! ## `malloc` -/

theorem availList_eq (hL : LaidOut h bs l) : availList h = l :=
  hL.shape.chain.walk_eq (Nat.le_of_lt hL.length_lt)

/-- The loop takes a listed block that is large enough, if there is one. -/
theorem mallocLoop_cases (hS : Shape h bs l) (ints : Int) : ∀ {fuel : Nat} {a rest : List Int} {p : Int},
    l = a ++ rest → link p = rest.head? → rest.length < fuel →
    (mallocLoop h ints fuel p = some (0, h) ∧ ∀ i ∈ rest, ¬ ints ≤ h.size i) ∨
      ∃ i ∈ l, ints ≤ h.size i ∧ mallocLoop h ints fuel p =
        some ((if 4 ≤ h.size i - ints then
            ((h.remove i).makeTaken i ints).makeAvail (i + ints) (h.size i - ints)
          else (h.remove i).makeTaken i (h.size i) : Heap).addr (i + 1),
          if 4 ≤ h.size i - ints then
            ((h.remove i).makeTaken i ints).makeAvail (i + ints) (h.size i - ints)
          else (h.remove i).makeTaken i (h.size i)) := by
  intro fuel
  induction fuel with
  | zero =>
    intro a rest p _ _ hlen
    omega
  | succ fuel ih =>
    intro a rest p hl hp hlen
    cases rest with
    | nil =>
      rw [mallocLoop, if_pos (link_eq_none.1 hp)]
      exact Or.inl ⟨rfl, by simp⟩
    | cons x rest =>
      obtain ⟨rfl, hne⟩ := link_eq_some.1 hp
      have hmem : p ∈ l := by simp [hl]
      have hnext : link (h.next p) = rest.head? := by
        have hlinked := hS.chain.linked
        rw [hl] at hlinked
        exact hlinked.next_eq
      rw [mallocLoop, if_neg hne]
      simp only
      by_cases hfit : ints ≤ h.size p
      · rw [if_pos hfit]
        exact Or.inr ⟨p, hmem, hfit, rfl⟩
      · rw [if_neg hfit]
        have hrest : l = (a ++ [p]) ++ rest := by simp [hl]
        rcases ih hrest hnext (by simpa using hlen) with ⟨hnull, hnone⟩ | hfound
        · refine Or.inl ⟨hnull, fun i hi => ?_⟩
          rcases List.mem_cons.1 hi with rfl | hi
          · exact hfit
          · exact hnone i hi
        · exact Or.inr hfound

/-- **What `malloc` does** when it is asked for something: it takes a block that is large enough, or there is
    none. -/
theorem malloc_cases (hL : LaidOut h bs l) (hz : bytes ≠ 0) :
    (malloc h bytes = some (0, h) ∧ ∀ i ∈ l, ¬ Heap.intsFor bytes ≤ h.size i) ∨
      ∃ i mx h' bs' l', malloc h bytes = some (h.addr (i + 1), h') ∧ 0 < i ∧ ⟨i, mx⟩ ∈ bs ∧
        Heap.intsFor bytes ≤ mx ∧ h'.SameFrame h ∧ KeepsPayloads bs h h' ∧ LaidOut h' bs' l' ∧
        Takes bs bs' ⟨i, -takenSize (Heap.intsFor bytes) mx⟩ := by
  unfold malloc
  rw [if_neg hz]
  rcases mallocLoop_cases hL.shape (Heap.intsFor bytes) (List.nil_append l).symm hL.shape.chain.first_eq
    hL.length_lt with hnull | ⟨i, hi, hfit, hfound⟩
  · exact Or.inl hnull
  · obtain ⟨hpos, -, -, hblock⟩ := hL.shape.listed_block hi
    obtain ⟨h', bs', l', heq, hf, hkeeps, hL', htakes⟩ := hL.takeBlock hi hblock (four_le_intsFor bytes) hfit
    refine Or.inr ⟨i, h.size i, h', bs', l', ?_, hpos, hblock, hfit, hf, hkeeps, hL', htakes⟩
    rw [hfound, ← heq, addr_congr hf]

/-! ## `free` -/

/-- `free` is that of the kernel, but for what is not taken. -/
theorem free_eq (h : Heap) (p : Nat) : free h p = (h.free p).getD h := by
  unfold free Heap.free
  by_cases hz : p = 0
  · rw [if_pos hz, if_pos hz]
    rfl
  · rw [if_neg hz, if_neg hz]
    by_cases hbase : p = h.base
    · rw [if_pos hbase, if_pos hbase]
      rfl
    · rw [if_neg hbase, if_neg hbase]
      simp only
      by_cases htaken : h.isTaken (h.idx p)
      · rw [if_neg (not_not.2 htaken), if_pos htaken]
        rfl
      · rw [if_pos htaken, if_neg htaken]
        rfl

theorem free_base (h : Heap) : free h h.base = h := by
  rw [free_eq, free_none h (Or.inr rfl)]
  rfl

/-- The tags determine the blocks. -/
theorem row_unique : ∀ {bs bs' : List Gheith.Block} {lo hi : Int},
    Row Gheith.Block.start Gheith.Block.stop lo bs hi →
    Row Gheith.Block.start Gheith.Block.stop lo bs' hi →
    (∀ b ∈ bs, h.array b.start = b.tag ∧ b.start + 2 ≤ b.stop) →
    (∀ b ∈ bs', h.array b.start = b.tag ∧ b.start + 2 ≤ b.stop) → bs = bs' := by
  intro bs
  induction bs with
  | nil =>
    intro bs' lo hi hrow hrow' _ htags'
    obtain rfl : lo = hi := hrow
    cases bs' with
    | nil => rfl
    | cons c bs' =>
      have hbounds := (Row.bounds (fun x hx => by have := (htags' x hx).2; omega) hrow').2 c (by simp)
      have := (htags' c (by simp)).2
      omega
  | cons b bs ih =>
    intro bs' lo hi hrow hrow' htags htags'
    cases bs' with
    | nil =>
      obtain rfl : lo = hi := hrow'
      have hbounds := (Row.bounds (fun x hx => by have := (htags x hx).2; omega) hrow).2 b (by simp)
      have := (htags b (by simp)).2
      omega
    | cons c bs' =>
      obtain ⟨hb, hrest⟩ := hrow
      obtain ⟨hc, hrest'⟩ := hrow'
      have hbtag := (htags b (by simp)).1
      have hctag := (htags' c (by simp)).1
      obtain rfl : b = c := by
        rw [hb] at hbtag
        rw [hc] at hctag
        exact (Gheith.Block.mk.injEq ..).mpr ⟨hb.trans hc.symm, hbtag.symm.trans hctag⟩
      rw [ih hrest hrest' (fun x hx => htags x (by simp [hx])) fun x hx => htags' x (by simp [hx])]

theorem blocks_unique (hL : LaidOut h bs l) (hL' : LaidOut h bs' l') : bs = bs' :=
  row_unique hL.row hL'.row (fun b hb => ⟨(hL.shape.tagged b hb).1, hL.shape.big b hb⟩)
    fun b hb => ⟨(hL'.shape.tagged b hb).1, hL'.shape.big b hb⟩

/-! ## Invariant -/

/-- What holds between steps, `bs` being the blocks and `l` the avail list. -/
structure UserInv (u : Use) (bs : List Gheith.Block) (l : List Int) : Prop where
  laidOut : LaidOut u.heap bs l
  len : u.heap.len = heapLen
  base : 0 < u.heap.base ∧ u.heap.base + 4194304 ≤ 4294967296
  nodup : u.live.Nodup
  live_block : ∀ p ∈ u.live, ∃ b ∈ bs, b.tag ≤ -4 ∧ b.start ≠ 0 ∧ b.start ≠ u.heap.len - 2 ∧
    p = u.heap.addr (b.start + 1)

/-- What is held is neither null nor the array. -/
theorem UserInv.ne (hI : UserInv u bs l) (hp : p ∈ u.live) : p ≠ 0 ∧ p ≠ u.heap.base := by
  obtain ⟨b, hb, -, -, -, rfl⟩ := hI.live_block p hp
  have := base_lt_addr u.heap (hI.laidOut.start_nonneg hb)
  omega

/-- A block that is held ends before the last sentinel. -/
theorem UserInv.stop_le (hI : UserInv u bs l) (hb : b ∈ bs) (hlast : b.start ≠ u.heap.len - 2) :
    b.stop ≤ u.heap.len - 2 := by
  have hne : b ≠ ⟨u.heap.len - 2, -2⟩ := by
    rintro rfl
    exact hlast rfl
  have hbounds := ((hI.laidOut.row.bounds hI.laidOut.shape.pos).2 b hb).2
  have hpos := hI.laidOut.shape.pos b hb
  have happ := hI.laidOut.shape.apart b hb _ hI.laidOut.last hne
  rw [last_stop] at happ
  simp only at happ
  omega

/-- What is held has room, and room for a word more than its footer lies in the array. -/
theorem UserInv.room_bounds (hI : UserInv u bs l) (hp : p ∈ u.live) :
    u.heap.isTaken (u.heap.idx p) ∧ 0 < u.heap.size (u.heap.idx p) ∧
      room u.heap p + 8 = 4 * (u.heap.size (u.heap.idx p)).toNat ∧
      p + 4 * (u.heap.size (u.heap.idx p)).toNat ≤ u.heap.base + 4194304 := by
  obtain ⟨b, hb, hneg, -, hlast, rfl⟩ := hI.live_block p hp
  have hnonneg := hI.laidOut.start_nonneg hb
  have hstop : b.start + Heap.abs b.tag ≤ u.heap.len - 2 := hI.stop_le hb hlast
  have habs : Heap.abs b.tag = -b.tag := if_pos (by omega)
  have hlen := hI.len
  rw [room_addr hI.laidOut hb, idx_addr _ hnonneg, hI.laidOut.shape.size_eq hb]
  refine ⟨(hI.laidOut.shape.isTaken_iff hb).2 (by omega), by omega, by omega, ?_⟩
  unfold Heap.addr
  unfold heapLen at hlen
  omega

/-- Bytes of different blocks are different. -/
theorem UserInv.bytes_apart (hI : UserInv u bs l) (hp : p ∈ u.live) (hq : q ∈ u.live) (hne : p ≠ q) {j : Nat}
    (hk : k < room u.heap p) (hj : j < room u.heap q) : p + k < q ∨ q + room u.heap q ≤ p + k := by
  obtain ⟨b, hb, hbneg, -, -, rfl⟩ := hI.live_block p hp
  obtain ⟨c, hc, hcneg, -, -, rfl⟩ := hI.live_block q hq
  have hbc : b ≠ c := by
    rintro rfl
    exact hne rfl
  have hb0 := hI.laidOut.start_nonneg hb
  have hc0 := hI.laidOut.start_nonneg hc
  have happ := hI.laidOut.shape.apart b hb c hc hbc
  have hbstop : b.stop = b.start + Heap.abs b.tag := rfl
  have hcstop : c.stop = c.start + Heap.abs c.tag := rfl
  rw [room_addr hI.laidOut hb] at hk
  rw [room_addr hI.laidOut hc] at hj ⊢
  unfold Heap.addr
  omega

/-- The invariant is about what is held. -/
theorem UserInv.subset (hI : UserInv u bs l) (hsub : ∀ p ∈ live, p ∈ u.live) (hnodup : live.Nodup) :
    UserInv ⟨u.heap, live⟩ bs l :=
  ⟨hI.laidOut, hI.len, hI.base, hnodup, fun p hp => hI.live_block p (hsub p hp)⟩

/-- The heap that `heap_init` makes. -/
theorem userInv_heapInit {base : Nat} {mem : Int → Int} (hbase : 0 < base)
    (hfit : base + 4194304 ≤ 4294967296) : ∃ bs l, UserInv ⟨heapInit base mem, []⟩ bs l :=
  ⟨_, _, initBlocks_laidOut base (by decide) mem, (initBlocks_frame _).2.1, ⟨by
    show 0 < (heapInit base mem).base
    rw [show (heapInit base mem).base = base from (initBlocks_frame _).1]
    exact hbase, by
    show (heapInit base mem).base + 4194304 ≤ 4294967296
    rw [show (heapInit base mem).base = base from (initBlocks_frame _).1]
    exact hfit⟩, List.nodup_nil, by simp⟩

/-- **A block is taken.** -/
theorem UserInv.take (hI : UserInv u bs l) (hi : 0 < i) (hblock : ⟨i, mx⟩ ∈ bs) (hmx : 4 ≤ n ∧ (n : Int) ≤ mx)
    (hf : h'.SameFrame u.heap) (hkeeps : KeepsPayloads bs u.heap h') (hL' : LaidOut h' bs' l')
    (htakes : Takes bs bs' ⟨i, -(n : Int)⟩) :
    UserInv ⟨h', u.heap.addr (i + 1) :: u.live⟩ bs' l' ∧ u.heap.addr (i + 1) ∉ u.live ∧
      room h' (u.heap.addr (i + 1)) = 4 * (n - 2) ∧ ∀ p ∈ u.live, SameBytes u.heap h' p := by
  have hL := hI.laidOut
  have hstays : ∀ b ∈ bs, b.tag < 0 → b ∈ bs' := by
    intro b hb hneg
    refine (htakes.other b hneg ?_).2 hb
    rintro rfl
    exact htakes.fresh hb
  -- what is taken is not available, so nothing taken starts where the new block does
  have hother : ∀ b ∈ bs, b.tag < 0 → b.start ≠ i := by
    intro b hb hneg heq
    have hbi := hL.shape.eq_of_start hb hblock heq
    rw [hbi] at hneg
    simp only at hneg
    omega
  have hnew : u.heap.addr (i + 1) ∉ u.live := by
    intro hin
    obtain ⟨b, hb, hneg, -, -, heq⟩ := hI.live_block _ hin
    exact hother b hb (by omega) (addr_inj (hL.start_nonneg hb) (Int.le_of_lt hi) heq.symm)
  have habs : Heap.abs (-(n : Int)) = n := abs_neg_of_pos (by omega)
  refine ⟨⟨hL', hf.2.1.trans hI.len, by rw [hf.1]; exact hI.base, List.nodup_cons.2 ⟨hnew, hI.nodup⟩, ?_⟩, hnew,
    ?_, ?_⟩
  · intro p hp
    have hlen : h'.len = u.heap.len := hf.2.1
    rcases List.mem_cons.1 hp with rfl | hp
    · refine ⟨_, htakes.mem, by simp only; omega, by simp only; omega, ?_, (addr_congr hf _).symm⟩
      rw [hlen]
      exact fun heq => hother _ hL.last (by simp) heq.symm
    · obtain ⟨b, hb, hneg, hfirst, hlast, heq⟩ := hI.live_block p hp
      rw [← hlen] at hlast
      exact ⟨b, hstays b hb (by omega), hneg, hfirst, hlast, heq.trans (addr_congr hf _).symm⟩
  · have hroom := room_addr hL' htakes.mem
    rw [addr_congr hf, habs] at hroom
    rw [hroom]
    omega
  · intro p hp
    obtain ⟨b, hb, hneg, -, -, rfl⟩ := hI.live_block p hp
    exact sameBytes_of_keeps hL hL' hf hb (hstays b hb (by omega)) (hkeeps b hb (by omega))

/-- **`malloc`** takes a block, or there is none that is large enough. -/
theorem UserInv.malloc (hI : UserInv u bs l) (hz : bytes ≠ 0) :
    (malloc u.heap bytes = some (0, u.heap) ∧ ∀ i ∈ l, ¬ Heap.intsFor bytes ≤ u.heap.size i) ∨
      ∃ q h' bs' l', malloc u.heap bytes = some (q, h') ∧ UserInv ⟨h', q :: u.live⟩ bs' l' ∧ q ∉ u.live ∧
        h'.base = u.heap.base ∧ (bytes ≤ 0xFFFFFFFC → bytes ≤ room h' q) ∧
        ∀ p ∈ u.live, SameBytes u.heap h' p := by
  rcases malloc_cases hI.laidOut hz with hnull |
    ⟨i, mx, h', bs', l', hres, hi, hblock, hfit, hf, hkeeps, hL', htakes⟩
  · exact Or.inl hnull
  have hints := four_le_intsFor bytes
  obtain ⟨n, hn⟩ : ∃ n : Nat, takenSize (Heap.intsFor bytes) mx = n :=
    ⟨_, (Int.toNat_of_nonneg (Int.le_of_lt (takenSize_pos hints (by omega)))).symm⟩
  have hle : Heap.intsFor bytes ≤ takenSize (Heap.intsFor bytes) mx := by
    unfold takenSize
    split <;> omega
  have hge := takenSize_le hfit
  rw [hn] at htakes hle hge
  obtain ⟨hI', hnew, hroom, hsame⟩ := hI.take hi hblock ⟨by omega, hge⟩ hf hkeeps hL' htakes
  refine Or.inr ⟨_, h', bs', l', hres, hI', hnew, hf.1, fun hword => ?_, hsame⟩
  have hbytes := (intsFor_le_iff (n := n) hword (by omega)).1 hle
  rw [hroom]
  omega

/-- **`free`** of what is held. -/
theorem UserInv.free (hI : UserInv u bs l) (hp : p ∈ u.live) :
    (∃ bs' l', UserInv ⟨free u.heap p, u.live.erase p⟩ bs' l') ∧ (free u.heap p).base = u.heap.base ∧
      free u.heap p ≠ u.heap ∧ ∀ q ∈ u.live, q ≠ p → SameBytes u.heap (free u.heap p) q := by
  obtain ⟨b, hb, hneg, hfirst, hlast, rfl⟩ := hI.live_block p hp
  have hL := hI.laidOut
  have hnonneg := hL.start_nonneg hb
  obtain ⟨h', bs', l', -, hfree, hf, hL', htakes, hkeeps, -⟩ := hL.free hb hneg (by omega) hlast
  have heq : UserHeap.free u.heap (u.heap.addr (b.start + 1)) = h' := by
    rw [free_eq, hfree]
    rfl
  have hlen : h'.len = u.heap.len := hf.2.1
  -- another block that is held is another block
  have hother : ∀ q ∈ u.live, q ≠ u.heap.addr (b.start + 1) → ∃ c ∈ bs, c ∈ bs' ∧ c.tag ≤ -4 ∧ c.start ≠ 0 ∧
      c.start ≠ u.heap.len - 2 ∧ q = u.heap.addr (c.start + 1) := by
    intro q hq hne
    obtain ⟨c, hc, hcneg, hcfirst, hclast, rfl⟩ := hI.live_block q hq
    have hcb : c ≠ b := by
      rintro rfl
      exact hne rfl
    exact ⟨c, hc, (htakes.other c (by omega) hcb).1 hc, hcneg, hcfirst, hclast, rfl⟩
  rw [heq]
  have hbase := hI.base
  rw [← hf.1] at hbase
  refine ⟨⟨bs', l', hL', hlen.trans hI.len, hbase, hI.nodup.erase _, fun q hq => ?_⟩, hf.1, fun hsame => ?_,
    fun q hq hne => ?_⟩
  · obtain ⟨hne, hin⟩ := (hI.nodup.mem_erase_iff).1 hq
    obtain ⟨c, -, hc', hcneg, hcfirst, hclast, rfl⟩ := hother q hin hne
    rw [← hlen] at hclast
    exact ⟨c, hc', hcneg, hcfirst, hclast, (addr_congr hf _).symm⟩
  · rw [hsame] at hL'
    exact htakes.fresh (blocks_unique hL hL' ▸ hb)
  · obtain ⟨c, hc, hc', hcneg, -, -, rfl⟩ := hother q hq hne
    exact sameBytes_of_keeps hL hL' hf hc hc' (hkeeps c hc' (by omega))

/-- **A byte written** into a block that is held. -/
theorem UserInv.setByte (hI : UserInv u bs l) (hq : q ∈ u.live) (hk : k < room u.heap q) (v : UInt8) :
    UserInv ⟨setByte u.heap (q + k) v, u.live⟩ bs l ∧ room (setByte u.heap (q + k) v) q = room u.heap q ∧
      ∀ p ∈ u.live, p ≠ q → SameBytes u.heap (setByte u.heap (q + k) v) p := by
  obtain ⟨b, hb, hneg, hfirst, hlast, rfl⟩ := hI.live_block q hq
  obtain ⟨h1, h2⟩ := intOf_inside hI.laidOut hb hk
  have hstop : b.stop = b.start + Heap.abs b.tag := rfl
  have hL : LaidOut (UserHeap.setByte u.heap (u.heap.addr (b.start + 1) + k) v) bs l := by
    obtain ⟨hS, hrow, hf, hl, hlisted, hapart⟩ := hI.laidOut
    have hwrite := hS.write hb (by omega)
      (k := intOf u.heap (u.heap.addr (b.start + 1) + k) - b.start) (by omega) (by omega)
      (withByte (u.heap.array (intOf u.heap (u.heap.addr (b.start + 1) + k)))
        (lane u.heap (u.heap.addr (b.start + 1) + k)) v)
    rw [Int.add_comm b.start, Int.sub_add_cancel] at hwrite
    exact ⟨hwrite, hrow, hf, hl, hlisted, hapart⟩
  have hframe := setByte_frame u.heap (u.heap.addr (b.start + 1) + k) v
  refine ⟨⟨hL, hI.len, hI.base, hI.nodup, hI.live_block⟩, ?_, fun p hp hne => ?_⟩
  · have hroom := room_addr hL hb
    rw [addr_congr hframe] at hroom
    rw [hroom, room_addr hI.laidOut hb]
  · obtain ⟨c, hc, hcneg, -, -, rfl⟩ := hI.live_block p hp
    refine sameBytes_of_keeps hI.laidOut hL hframe hc hc fun x hx1 hx2 => setByte_array ?_
    have hcb : c ≠ b := by
      rintro rfl
      exact hne rfl
    have happ := hI.laidOut.shape.apart c hc b hb hcb
    omega

/-! ## `memcpy` and `realloc` -/

/-- **A copy** into a block that is held. -/
theorem UserInv.memcpy (hI : UserInv u bs l) (hq : q ∈ u.live) (hn : n ≤ room u.heap q)
    (hsrc : p + n ≤ 4294967296) :
    UserInv ⟨memcpy u.heap q p n, u.live⟩ bs l ∧ (memcpy u.heap q p n).base = u.heap.base ∧
      room (memcpy u.heap q p n) q = room u.heap q ∧
      (∀ p' ∈ u.live, p' ≠ q → SameBytes u.heap (memcpy u.heap q p n) p') ∧
      ∀ k < n, (p + k < q ∨ q + n ≤ p + k) → byte (memcpy u.heap q p n) (q + k) = byte u.heap (p + k) := by
  obtain ⟨-, -, hroom, hend⟩ := hI.room_bounds hq
  have hbase := hI.base.2
  obtain ⟨c, hc, -, -, hlast, rfl⟩ := hI.live_block q hq
  have hnonneg := hI.laidOut.start_nonneg hc
  have hsmall : room u.heap (u.heap.addr (c.start + 1)) ≤ 4194304 := by
    have hlt := base_lt_addr u.heap hnonneg
    omega
  have hdest : u.heap.addr (c.start + 1) + n ≤ 4294967296 := by omega
  unfold UserHeap.memcpy
  rw [rounds_of_lt (by omega)]
  have hkept : (UserInv ⟨memcpyLoop n (u.heap.addr (c.start + 1)) p u.heap, u.live⟩ bs l ∧
      (memcpyLoop n (u.heap.addr (c.start + 1)) p u.heap).base = u.heap.base ∧
      room (memcpyLoop n (u.heap.addr (c.start + 1)) p u.heap) (u.heap.addr (c.start + 1)) =
        room u.heap (u.heap.addr (c.start + 1)) ∧
      ∀ p' ∈ u.live, p' ≠ u.heap.addr (c.start + 1) →
        SameBytes u.heap (memcpyLoop n (u.heap.addr (c.start + 1)) p u.heap) p') := by
    refine memcpyLoop_keeps (I := fun h => UserInv ⟨h, u.live⟩ bs l ∧ h.base = u.heap.base ∧
      room h (u.heap.addr (c.start + 1)) = room u.heap (u.heap.addr (c.start + 1)) ∧
      ∀ p' ∈ u.live, p' ≠ u.heap.addr (c.start + 1) → SameBytes u.heap h p') hdest ?_
      ⟨hI, rfl, rfl, fun p' _ _ => .refl _ _⟩
    rintro h a v h1 h2 ⟨hIh, hb, hr, hsame⟩
    obtain ⟨k, rfl⟩ : ∃ k, a = u.heap.addr (c.start + 1) + k := ⟨a - u.heap.addr (c.start + 1), by omega⟩
    obtain ⟨hI', hr', hsame'⟩ := hIh.setByte hq (k := k) (by
      show k < room h (u.heap.addr (c.start + 1))
      omega) v
    exact ⟨hI', hb, hr'.trans hr, fun p' hp hne => (hsame p' hp hne).trans (hsame' p' hp hne)⟩
  obtain ⟨hI', hb, hr, hsame⟩ := hkept
  exact ⟨hI', hb, hr, hsame, fun k hk hout => memcpyLoop_copies hdest hsrc hk hout⟩

/-- How much `realloc` copies: what it is asked for, or the whole block with its tags. -/
def copied (h : Heap) (p newSize : Nat) : Nat :=
  if unsigned (h.size (h.idx p) * 4) < newSize then unsigned (h.size (h.idx p) * 4) else newSize

theorem copied_le (h : Heap) (p newSize : Nat) : copied h p newSize ≤ newSize := by
  unfold copied
  split <;> omega

/-- Without room `malloc` returns null. -/
theorem UserInv.malloc_null (hI : UserInv u bs l) (hz : newSize ≠ 0) (hword : newSize ≤ 0xFFFFFFFC)
    (hno : ¬ HasRoom u.heap newSize) : UserHeap.malloc u.heap newSize = some (0, u.heap) := by
  have hL := hI.laidOut
  rcases malloc_cases hL hz with ⟨hnull, -⟩ | ⟨i, mx, h', bs', l', -, -, hblock, hfit, -⟩
  · exact hnull
  · have hints := four_le_intsFor newSize
    have hpos : 0 < mx := by omega
    have hlisted : i ∈ l := hL.listed _ hblock hpos
    have hsize : u.heap.size i = mx := (hL.shape.size_eq hblock).trans (Gheith.abs_of_pos hpos)
    refine absurd ⟨i, by rw [availList_eq hL]; exact hlisted, ?_⟩ hno
    unfold Heap.payload
    rw [hsize]
    exact (intsFor_le_iff hword (by omega)).1 hfit

/-- **`realloc` of what is held, when `malloc` returns null**, frees it. -/
theorem UserInv.realloc_null (hI : UserInv u bs l) (hp : p ∈ u.live) (hz : newSize ≠ 0)
    (hnull : UserHeap.malloc u.heap newSize = some (0, u.heap)) :
    realloc u.heap p newSize = some (0, UserHeap.free u.heap p) := by
  obtain ⟨htaken, -⟩ := hI.room_bounds hp
  unfold realloc
  rw [if_neg (hI.ne hp).1, if_neg hz]
  simp only [not_not.2 htaken, if_false, hnull, Option.bind_eq_bind, Option.bind_some]
  rfl

/-- **`realloc` of what is held, when there is room.** -/
theorem UserInv.realloc_fits (hI : UserInv u bs l) (hp : p ∈ u.live) (hz : newSize ≠ 0)
    (hword : newSize ≤ 0xFFFFFFFC) (hroom : HasRoom u.heap newSize) :
    ∃ q h' bs' l', realloc u.heap p newSize = some (q, h') ∧ q ≠ 0 ∧ UserInv ⟨h', q :: u.live.erase p⟩ bs' l' ∧
      h'.base = u.heap.base ∧ newSize ≤ room h' q ∧
      (∀ k < min (room u.heap p) newSize, byte h' (q + k) = byte u.heap (p + k)) ∧
      ∀ p' ∈ u.live, p' ≠ p → SameBytes u.heap h' p' := by
  obtain ⟨htaken, hpos, hsize, hend⟩ := hI.room_bounds hp
  have hbase := hI.base
  have hne := hI.ne hp
  rcases hI.malloc hz with ⟨-, hnone⟩ | ⟨q, h₁, bs₁, l₁, hmalloc, hI₁, hnew, hb₁, hbig, hsame₁⟩
  · obtain ⟨i, hi, hfit⟩ := hroom
    rw [availList_eq hI.laidOut] at hi
    obtain ⟨-, -, hfour, -⟩ := hI.laidOut.shape.listed_block hi
    exact absurd ((intsFor_le_iff hword hfour).2 hfit) (hnone i hi)
  have hbig := hbig hword
  have hqp : p ≠ q := by
    rintro rfl
    exact hnew hp
  have hm : copied u.heap p newSize = min (room u.heap p + 8) newSize := by
    have hsz : unsigned (u.heap.size (u.heap.idx p) * 4) = room u.heap p + 8 :=
      unsigned_of_lt (by omega) (by omega)
    unfold copied
    rw [hsz]
    split <;> omega
  have hsrc : p + copied u.heap p newSize ≤ 4294967296 := by
    rw [hm]
    omega
  obtain ⟨hI₂, hb₂, hr₂, hsame₂, hcopied⟩ :=
    hI₁.memcpy (q := q) (by simp) (Nat.le_trans (copied_le u.heap p newSize) hbig) hsrc
  obtain ⟨⟨bs₃, l₃, hI₃⟩, hb₃, -, hsame₃⟩ := hI₂.free (p := p) (by simp [hp])
  have hq₃ := hsame₃ q (by simp) hqp.symm
  refine ⟨q, _, bs₃, l₃, ?_, (hI₁.ne (by simp)).1, ?_, hb₃.trans (hb₂.trans hb₁), ?_, fun k hk => ?_,
    fun p' hp' hne' => ?_⟩
  · unfold realloc
    rw [if_neg hne.1, if_neg hz]
    simp only [not_not.2 htaken, if_false, hmalloc, Option.bind_eq_bind, Option.bind_some]
    rw [if_pos (hI₁.ne (p := q) (by simp)).1]
    rfl
  · show UserInv ⟨_, q :: u.live.erase p⟩ bs₃ l₃
    rw [List.erase_cons_tail (by simpa using hqp.symm)] at hI₃
    exact hI₃
  · rw [hq₃.1, hr₂]
    exact hbig
  · -- the source is another block
    have hpr := (hsame₁ p hp).1
    have hkp : k < room h₁ p := by omega
    have hout := hI₁.bytes_apart (p := p) (q := q) (by simp [hp]) (by simp) hqp hkp
      (show 0 < room h₁ q by omega)
    have hle := Nat.le_trans (copied_le u.heap p newSize) hbig
    simp only at hr₂ hout
    rw [hq₃.2 k (by rw [hr₂]; omega), hcopied k (by omega) (by omega), (hsame₁ p hp).2 k (by omega)]
  · have hqp' : p' ≠ q := by
      rintro rfl
      exact hnew hp'
    exact ((hsame₁ p' hp').trans (hsame₂ p' (by simp [hp']) hqp')).trans (hsame₃ p' (by simp [hp']) hne')

/-- **`realloc` of the array**, that is of what `malloc(0)` returned: whatever word stands before the array, a
    block is taken or nothing happens. -/
theorem UserInv.realloc_base (hI : UserInv u bs l) (hz : newSize ≠ 0) (hword : newSize ≤ 0xFFFFFFFC) :
    realloc u.heap u.heap.base newSize = some (0, u.heap) ∨
      ∃ q h' bs' l', realloc u.heap u.heap.base newSize = some (q, h') ∧ q ≠ 0 ∧
        UserInv ⟨h', q :: u.live⟩ bs' l' ∧ h'.base = u.heap.base ∧ ∀ p ∈ u.live, SameBytes u.heap h' p := by
  have hbase := hI.base
  unfold realloc
  rw [if_neg (by omega), if_neg hz]
  by_cases htaken : u.heap.isTaken (u.heap.idx u.heap.base)
  · simp only [not_not.2 htaken, if_false]
    rcases hI.malloc hz with ⟨hnull, -⟩ | ⟨q, h₁, bs₁, l₁, hmalloc, hI₁, hnew, hb₁, hbig, hsame₁⟩
    · simp only [hnull, Option.bind_eq_bind, Option.bind_some]
      rw [if_neg (not_not.2 rfl), free_base]
      exact Or.inl rfl
    · have hbig := hbig hword
      have hroom := hI₁.room_bounds (p := q) (by simp)
      have hsmall : newSize ≤ 4194304 := by
        have hq0 : u.heap.base < q := by
          obtain ⟨b, hb, -, -, -, heq⟩ := hI₁.live_block q (by simp)
          rw [heq, ← hb₁]
          exact base_lt_addr h₁ (hI₁.laidOut.start_nonneg hb)
        simp only at hroom
        omega
      obtain ⟨m, hm⟩ : ∃ m, copied u.heap u.heap.base newSize = m := ⟨_, rfl⟩
      have hle := copied_le u.heap u.heap.base newSize
      rw [hm] at hle
      obtain ⟨hI₂, hb₂, -, hsame₂, -⟩ :=
        hI₁.memcpy (q := q) (p := u.heap.base) (by simp) (Nat.le_trans hle hbig) (by omega)
      have hfree : UserHeap.free (UserHeap.memcpy h₁ q u.heap.base m) u.heap.base =
          UserHeap.memcpy h₁ q u.heap.base m := by
        have hsame := free_base (UserHeap.memcpy h₁ q u.heap.base m)
        rw [hb₂.trans hb₁] at hsame
        exact hsame
      simp only [hmalloc, Option.bind_eq_bind, Option.bind_some]
      rw [if_pos (hI₁.ne (p := q) (by simp)).1]
      refine Or.inr ⟨q, UserHeap.memcpy h₁ q u.heap.base m, bs₁, l₁, ?_, (hI₁.ne (p := q) (by simp)).1, hI₂,
        hb₂.trans hb₁, fun p hp => ?_⟩
      · subst hm
        exact congrArg (fun h => some (q, h)) hfree
      · refine (hsame₁ p hp).trans (hsame₂ p (by simp [hp]) ?_)
        rintro rfl
        exact hnew hp
  · simp only [htaken, not_false_eq_true, if_true]
    exact Or.inl trivial

/-! ## Runs -/

theorem given_of_ne (hp : p ≠ 0 ∧ p ≠ u.heap.base) : u.given p = [p] := if_neg (by tauto)

theorem given_none (hp : p = 0 ∨ p = u.heap.base) : u.given p = [] := if_pos hp

/-- `malloc` of any size, and what the program holds then. -/
theorem UserInv.malloc_held (hI : UserInv u bs l) (bytes : Nat) :
    ∃ q h' bs' l', UserHeap.malloc u.heap bytes = some (q, h') ∧ UserInv ⟨h', u.given q ++ u.live⟩ bs' l' ∧
      (q = 0 → h' = u.heap) := by
  by_cases hz : bytes = 0
  · refine ⟨u.heap.base, u.heap, bs, l, if_pos hz, ?_, fun _ => rfl⟩
    rw [given_none (Or.inr rfl)]
    exact hI
  · rcases hI.malloc hz with ⟨hnull, -⟩ | ⟨q, h', bs', l', hmalloc, hI', -, hb, -⟩
    · refine ⟨0, u.heap, bs, l, hnull, ?_, fun _ => rfl⟩
      rw [given_none (Or.inl rfl)]
      exact hI
    · have hne := hI'.ne (p := q) (by simp)
      simp only [hb] at hne
      refine ⟨q, h', bs', l', hmalloc, ?_, fun h0 => absurd h0 hne.1⟩
      rw [given_of_ne hne]
      exact hI'

/-- `free` of null and of the array. -/
theorem free_of_none (hp : p = 0 ∨ p = h.base) : free h p = h := by
  rw [free_eq, free_none h hp]
  rfl

/-- What is not held is not dropped. -/
theorem UserInv.erase_none (hI : UserInv u bs l) (hp : p = 0 ∨ p = u.heap.base) : u.live.erase p = u.live := by
  refine List.erase_of_not_mem fun hin => ?_
  have := hI.ne hin
  omega

/-- `free`, and what the program holds then. -/
theorem UserInv.free_held (hI : UserInv u bs l) (hp : Pointer u p) :
    ∃ bs' l', UserInv ⟨UserHeap.free u.heap p, u.live.erase p⟩ bs' l' := by
  by_cases hlive : p ∈ u.live
  · exact (hI.free hlive).1
  · have hnone : p = 0 ∨ p = u.heap.base := by
      rcases hp with hp | hp | hp
      · exact Or.inl hp
      · exact Or.inr hp
      · exact absurd hp hlive
    rw [free_of_none hnone, hI.erase_none hnone]
    exact ⟨bs, l, hI⟩

/-- `realloc`, and what the program holds then. -/
theorem UserInv.realloc_held (hI : UserInv u bs l) (hp : Pointer u p) (hok : Granted u (.realloc p newSize)) :
    ∃ q h' bs' l', realloc u.heap p newSize = some (q, h') ∧
      UserInv ⟨h', if q = 0 ∧ newSize ≠ 0 then u.live else u.given q ++ u.live.erase p⟩ bs' l' := by
  by_cases hp0 : p = 0
  · obtain ⟨q, h', bs', l', hmalloc, hI', hnull⟩ := hI.malloc_held newSize
    refine ⟨q, h', ?_⟩
    rw [hI.erase_none (Or.inl hp0)]
    by_cases hq : q = 0 ∧ newSize ≠ 0
    · rw [if_pos hq, hnull hq.1]
      refine ⟨bs, l, ?_, hI⟩
      unfold realloc
      rw [if_pos hp0, hmalloc, hnull hq.1]
    · rw [if_neg hq]
      refine ⟨bs', l', ?_, hI'⟩
      unfold realloc
      rw [if_pos hp0, hmalloc]
  obtain ⟨hword, hroom⟩ := hok hp0
  by_cases hz : newSize = 0
  · obtain ⟨bs', l', hI'⟩ := hI.free_held hp
    refine ⟨0, UserHeap.free u.heap p, bs', l', ?_, ?_⟩
    · unfold realloc
      rw [if_neg hp0, if_pos hz]
    · rw [if_neg fun hh => hh.2 hz, given_none (Or.inl rfl)]
      exact hI'
  by_cases hbase : p = u.heap.base
  · rw [hI.erase_none (Or.inr hbase), hbase]
    rcases hI.realloc_base hz hword with hnull | ⟨q, h', bs', l', hres, hq, hI', hb, -⟩
    · refine ⟨0, u.heap, bs, l, hnull, ?_⟩
      rw [if_pos ⟨rfl, hz⟩]
      exact hI
    · refine ⟨q, h', bs', l', hres, ?_⟩
      have hne := hI'.ne (p := q) (by simp)
      simp only [hb] at hne
      rw [if_neg fun hh => hq hh.1, given_of_ne hne]
      exact hI'
  · have hlive : p ∈ u.live := (hp.resolve_left hp0).resolve_left hbase
    obtain ⟨q, h', bs', l', hres, hq, hI', hb, -⟩ := hI.realloc_fits hlive hz hword (hroom hbase hz)
    refine ⟨q, h', bs', l', hres, ?_⟩
    have hne := hI'.ne (p := q) (by simp)
    simp only [hb] at hne
    rw [if_neg fun hh => hq hh.1, given_of_ne hne]
    exact hI'

/-- The step lemma. -/
theorem UserInv.step (hI : UserInv u bs l) {a : Op} (hok : Granted u a) (hs : step u a = some u') :
    ∃ bs' l', UserInv u' bs' l' := by
  cases a with
  | malloc bytes =>
    obtain ⟨q, h', bs', l', hmalloc, hI', -⟩ := hI.malloc_held bytes
    simp only [UserHeap.step, hmalloc, Option.bind_eq_bind, Option.bind_some, Option.some.injEq] at hs
    exact ⟨bs', l', hs ▸ hI'⟩
  | free p =>
    simp only [UserHeap.step] at hs
    split at hs
    · rename_i hp
      exact Option.some.inj hs ▸ hI.free_held hp
    · simp at hs
  | realloc p newSize =>
    simp only [UserHeap.step] at hs
    split at hs
    · rename_i hp
      obtain ⟨q, h', bs', l', hres, hI'⟩ := hI.realloc_held hp hok
      simp only [hres, Option.bind_eq_bind, Option.bind_some, Option.some.injEq] at hs
      exact ⟨bs', l', hs ▸ hI'⟩
    · simp at hs
  | write p k v =>
    simp only [UserHeap.step] at hs
    split at hs
    · rename_i hp
      exact ⟨bs, l, Option.some.inj hs ▸ (hI.setByte hp.1 hp.2 v).1⟩
    · simp at hs

/-- The run lemma. -/
theorem grantedRuns_inv (hr : GrantedRuns u) : ∃ bs l, UserInv u bs l := by
  refine Runs.Guarded.invariant (I := fun u => ∃ bs l, UserInv u bs l) ?_ ?_ hr
  · rintro ⟨h, live⟩ ⟨rfl, base, mem, hbase, hfit, rfl⟩
    exact userInv_heapInit hbase hfit
  · rintro u a u' - ⟨bs, l, hI⟩ hok hs
    exact hI.step hok hs

/-- **`realloc` does what it should, in every run in which it is called where there is room, if and only if
    there is room**: some block of the avail list has as many bytes as it is called for.  For what `malloc(0)`
    returned it always does. -/
theorem realloc_laws (u : Use) (hr : GrantedRuns u) (newSize : Nat) (hz : 0 < newSize)
    (hword : newSize ≤ 0xFFFFFFFC) :
    (∀ p ∈ u.live, (Reallocates u p newSize ↔ HasRoom u.heap newSize)) ∧ Reallocates u u.heap.base newSize := by
  obtain ⟨bs, l, hI⟩ := grantedRuns_inv hr
  have hz' : newSize ≠ 0 := by omega
  refine ⟨fun p hp => ⟨fun hres => ?_, fun hroom => ?_⟩, ?_⟩
  · -- without room the result is null, and the block has been freed
    by_contra hno
    obtain ⟨q, h', hcall, -, hsame⟩ := hres
    rw [hI.realloc_null hp hz' (hI.malloc_null hz' hword hno)] at hcall
    obtain ⟨rfl, rfl⟩ := Prod.mk.inj (Option.some.inj hcall)
    exact (hI.free hp).2.2.1 (hsame rfl)
  · obtain ⟨q, h', -, -, hcall, hq, -, -, hbig, hbytes, hsame⟩ := hI.realloc_fits hp hz' hword hroom
    exact ⟨q, h', hcall, fun _ => ⟨by omega, hbytes, hsame⟩, fun h0 => absurd h0 hq⟩
  · have hnone : room u.heap u.heap.base = 0 := if_pos rfl
    rcases hI.realloc_base hz' hword with hnull | ⟨q, h', -, -, hcall, hq, -, -, hsame⟩
    · exact ⟨0, u.heap, hnull, fun h0 => absurd rfl h0, fun _ => rfl⟩
    · refine ⟨q, h', hcall, fun _ => ⟨by omega, fun k hk => ?_, fun p hp _ => hsame p hp⟩,
        fun h0 => absurd h0 hq⟩
      rw [hnone] at hk
      omega

/-- The state after some calls, the array being at address 4096, if there is room for each of them. -/
def runOps (ops : List Op) : Option Use :=
  ops.foldlM (fun u a => if decide (Granted u a) = true then step u a else none) ⟨heapInit 4096 fun _ => 0, []⟩

theorem runOps_granted {ops : List Op} (hrun : runOps ops = some u) : GrantedRuns u := by
  have hstart : Runs.Guarded Start (fun u a u' => step u a = some u') (fun u a => decide (Granted u a) = true)
      ⟨heapInit 4096 fun _ => 0, []⟩ := .start ⟨rfl, 4096, _, by decide, by decide, rfl⟩
  exact (hstart.foldlM hrun).mono fun _ _ => of_decide_eq_true

/-- A block made larger, with another one behind it; the bytes come along. -/
theorem realloc_laws_larger : ∃ u : Use, u.live = [4140, 4124] ∧ byte u.heap 4140 = 7 ∧
    (∀ p ∈ u.live, (Reallocates u p 100 ↔ HasRoom u.heap 100)) ∧ Reallocates u u.heap.base 100 := by
  have hrun : (runOps [.malloc 4, .malloc 4, .write 4108 0 7, .realloc 4108 40]).map
      (fun u => decide (u.live = [4140, 4124] ∧ byte u.heap 4140 = 7)) = some true := by decide +kernel
  obtain ⟨u, hu, htest⟩ := Option.map_eq_some_iff.1 hrun
  obtain ⟨hlive, hbyte⟩ := of_decide_eq_true htest
  exact ⟨u, hlive, hbyte, realloc_laws u (runOps_granted hu) 100 (by decide) (by decide)⟩

/-- More than there is: null is returned, and the block is gone. -/
theorem realloc_null_frees : ¬ ∀ u, UserHeapRuns u → ∀ p ∈ u.live, ∀ newSize, 0 < newSize →
    newSize < 4294967296 → Reallocates u p newSize := by
  intro hall
  have hrun : (runOps [.malloc 4]).map (fun u => decide (u.live = [4108] ∧ u.heap.array 2 = -4 ∧
      (realloc u.heap 4108 4194304).map (fun r => (r.1, r.2.array 2)) = some (0, 1048572))) = some true := by
    decide +kernel
  obtain ⟨u, hu, htest⟩ := Option.map_eq_some_iff.1 hrun
  obtain ⟨hlive, htag, hcall⟩ := of_decide_eq_true htest
  have hreached : UserHeapRuns u := Runs.Guarded.mono (fun _ _ _ => trivial) (runOps_granted hu)
  obtain ⟨q, h', hres, -, hsame⟩ := hall u hreached 4108 (by simp [hlive]) 4194304 (by decide) (by decide)
  rw [hres] at hcall
  obtain ⟨rfl, hfreed⟩ := Prod.mk.inj (Option.some.inj hcall)
  rw [hsame rfl, htag] at hfreed
  exact absurd hfreed (by decide)

end UserHeap

end BadApple
