/-
  One call of `read_block`, seen from outside.

  1. **Lists** — a call finds the block in its list and moves it to the front; or it makes a new block
     and puts it in front, after dropping the last block of the oldest bucket once the count has reached
     `size`.  It fails in one place only: there is no oldest bucket to pop (`CanEvict`).
  2. **The global list** — what popping and touching assign to the four link fields, in closed form.
  3. **History** — which buckets have been read, most recent first.  `Seen` are the facts about the global
     list that hold in every run, also when its links have gone wrong: its first bucket is the one read
     last, and the back pointer of a bucket is null exactly when it was never read, or was read last but
     not also the time before.
-/
import BadApple.Cache.Lists

namespace BadApple

open Function (update)

namespace BufferCache

variable {c c' : BufferCache} {refs : Nat → List Nat} {b g o p : Nat}

/-! ## The global list, field by field -/

/-- `g->next` and `g->prev`. -/
def gNext (c : BufferCache) (g : Nat) : Option Nat := (c.globalIndex g).next
def gPrev (c : BufferCache) (g : Nat) : Option Nat := (c.globalIndex g).prev

/-- Two caches with the same global list. -/
structure SameGlobal (c c' : BufferCache) : Prop where
  next : c'.gNext = c.gNext
  prev : c'.gPrev = c.gPrev
  first : c'.globalIndexFirst = c.globalIndexFirst
  last : c'.globalIndexLast = c.globalIndexLast

theorem SameGlobal.trans {c'' : BufferCache} (h : SameGlobal c c') (h' : SameGlobal c' c'') :
    SameGlobal c c'' :=
  ⟨h'.next.trans h.next, h'.prev.trans h.prev, h'.first.trans h.first, h'.last.trans h.last⟩

theorem ListEdit.sameGlobal {touched : List Nat} (h : ListEdit c c' touched) : SameGlobal c c' := by
  rw [h.rest]
  exact ⟨rfl, rfl, rfl, rfl⟩

theorem ListEdit.count_eq {touched : List Nat} (h : ListEdit c c' touched) : c'.count = c.count := by
  rw [h.rest]

theorem setNext_gNext (c : BufferCache) (g : Nat) (v : Option Nat) :
    (c.setNext g v).gNext = update c.gNext g v := by
  funext x
  unfold gNext setNext
  by_cases hx : x = g
  · subst hx
    simp only [Function.update_self]
  · simp only [Function.update_of_ne hx]

theorem setNext_gPrev (c : BufferCache) (g : Nat) (v : Option Nat) :
    (c.setNext g v).gPrev = c.gPrev := by
  funext x
  unfold gPrev setNext
  by_cases hx : x = g
  · subst hx
    simp only [Function.update_self]
  · simp only [Function.update_of_ne hx]

theorem setPrev_gNext (c : BufferCache) (g : Nat) (v : Option Nat) :
    (c.setPrev g v).gNext = c.gNext := by
  funext x
  unfold gNext setPrev
  by_cases hx : x = g
  · subst hx
    simp only [Function.update_self]
  · simp only [Function.update_of_ne hx]

theorem setPrev_gPrev (c : BufferCache) (g : Nat) (v : Option Nat) :
    (c.setPrev g v).gPrev = update c.gPrev g v := by
  funext x
  unfold gPrev setPrev
  by_cases hx : x = g
  · subst hx
    simp only [Function.update_self]
  · simp only [Function.update_of_ne hx]

/-- Popping succeeds: there is a last bucket `o` with a bucket `p` before it. -/
structure CanEvict (c : BufferCache) (o p : Nat) : Prop where
  last : c.globalIndexLast = some o
  before : c.gPrev o = some p
  first : c.globalIndexFirst ≠ none

/-- What popping does. -/
theorem CanEvict.popOldest (h : CanEvict c o p) :
    c.popOldest = some ({ c with globalIndexLast := some p }.setNext p none, o) := by
  obtain ⟨f, hf⟩ := Option.ne_none_iff_exists'.1 h.first
  have hp : (c.globalIndex o).prev = some p := h.before
  unfold BufferCache.popOldest
  simp only [h.last, hp, setNext, hf]

/-- Otherwise one of the assertions fails. -/
theorem popOldest_none (h : ∀ o p, ¬ CanEvict c o p) : c.popOldest = none := by
  unfold BufferCache.popOldest
  split
  · rfl
  · rename_i o ho
    split
    · rfl
    · rename_i p hp
      simp only [setNext]
      split
      · rfl
      · rename_i f hf
        exact absurd ⟨ho, hp, by rw [hf]; simp⟩ (h o p)

/-- Taking `g` out: the bucket before it skips it, and so does the one after it. -/
theorem unhook_gNext (c : BufferCache) (g : Nat) : (c.unhook g).gNext =
    match c.gPrev g with
    | none => c.gNext
    | some p => update c.gNext p (c.gNext g) := by
  unfold BufferCache.unhook
  show BufferCache.gNext (match c.gPrev g with
    | none => c
    | some p => match (c.setNext p (c.gNext g)).gNext g with
      | none => c.setNext p (c.gNext g)
      | some n => (c.setNext p (c.gNext g)).setPrev n ((c.setNext p (c.gNext g)).gPrev g)) = _
  cases c.gPrev g with
  | none => rfl
  | some p =>
    simp only
    split
    · exact setNext_gNext c p _
    · rw [setPrev_gNext, setNext_gNext]

theorem unhook_gPrev (c : BufferCache) (g : Nat) : (c.unhook g).gPrev =
    match c.gPrev g, c.gNext g with
    | some p, some n => update c.gPrev n (some p)
    | _, _ => c.gPrev := by
  unfold BufferCache.unhook
  show BufferCache.gPrev (match c.gPrev g with
    | none => c
    | some p => match (c.setNext p (c.gNext g)).gNext g with
      | none => c.setNext p (c.gNext g)
      | some n => (c.setNext p (c.gNext g)).setPrev n ((c.setNext p (c.gNext g)).gPrev g)) = _
  cases hp : c.gPrev g with
  | none => rfl
  | some p =>
    -- the link is read again after the assignment, and is still the same
    have hsame : (c.setNext p (c.gNext g)).gNext g = c.gNext g := by
      rw [setNext_gNext]
      by_cases hg : g = p
      · rw [hg, Function.update_self]
      · rw [Function.update_of_ne hg]
    simp only [hsame]
    cases c.gNext g with
    | none => exact setNext_gPrev c p _
    | some n =>
      simp only [setPrev_gPrev, setNext_gPrev, hp]

theorem unhook_ends (c : BufferCache) (g : Nat) :
    (c.unhook g).globalIndexFirst = c.globalIndexFirst ∧
      (c.unhook g).globalIndexLast = c.globalIndexLast := by
  unfold BufferCache.unhook
  simp only [setNext, setPrev]
  split
  · exact ⟨rfl, rfl⟩
  · split
    · exact ⟨rfl, rfl⟩
    · exact ⟨rfl, rfl⟩

/-- Putting `g` in front. -/
theorem pushFront_eq (c : BufferCache) (g : Nat) : c.pushFront g =
    { (match c.globalIndexFirst with
        | none => (c.setNext g c.globalIndexFirst).setPrev g none
        | some f => ((c.setNext g c.globalIndexFirst).setPrev g none).setPrev f (some g)) with
      globalIndexFirst := some g
      globalIndexLast := some (c.globalIndexLast.getD g) } := by
  unfold BufferCache.pushFront
  cases hf : c.globalIndexFirst with
  | none =>
    cases hl : c.globalIndexLast with
    | none => simp [setNext, setPrev, hf, hl]
    | some l => simp [setNext, setPrev, hf, hl]
  | some f =>
    cases hl : c.globalIndexLast with
    | none => simp [setNext, setPrev, hf, hl]
    | some l => simp [setNext, setPrev, hf, hl]

theorem touch_first (c : BufferCache) (g : Nat) : (c.touch g).globalIndexFirst = some g := by
  unfold touch
  rw [pushFront_eq]

theorem touch_last (c : BufferCache) (g : Nat) :
    (c.touch g).globalIndexLast = some (c.globalIndexLast.getD g) := by
  unfold touch
  rw [pushFront_eq, (unhook_ends c g).2]

/-- The links to `next` after a touch. -/
theorem touch_gNext (c : BufferCache) (g : Nat) :
    (c.touch g).gNext = update (c.unhook g).gNext g c.globalIndexFirst := by
  unfold touch
  rw [pushFront_eq, (unhook_ends c g).1]
  show BufferCache.gNext (match c.globalIndexFirst with
    | none => ((c.unhook g).setNext g c.globalIndexFirst).setPrev g none
    | some f => (((c.unhook g).setNext g c.globalIndexFirst).setPrev g none).setPrev f (some g)) = _
  cases c.globalIndexFirst with
  | none => rw [setPrev_gNext, setNext_gNext]
  | some f => rw [setPrev_gNext, setPrev_gNext, setNext_gNext]

/-- The links to `prev` after a touch. -/
theorem touch_gPrev (c : BufferCache) (g : Nat) : (c.touch g).gPrev =
    match c.globalIndexFirst with
    | none => update (c.unhook g).gPrev g none
    | some f => update (update (c.unhook g).gPrev g none) f (some g) := by
  unfold touch
  rw [pushFront_eq, (unhook_ends c g).1]
  show BufferCache.gPrev (match c.globalIndexFirst with
    | none => ((c.unhook g).setNext g c.globalIndexFirst).setPrev g none
    | some f => (((c.unhook g).setNext g c.globalIndexFirst).setPrev g none).setPrev f (some g)) = _
  cases c.globalIndexFirst with
  | none => rw [setPrev_gPrev, setNext_gPrev]
  | some f => simp only [setPrev_gPrev, setNext_gPrev]

theorem touch_gPrev_first {x : Nat} (hf : c.globalIndexFirst = some x) :
    (c.touch g).gPrev x = some g := by
  rw [touch_gPrev, hf]
  exact Function.update_self _ _ _

theorem touch_gPrev_self (hf : c.globalIndexFirst ≠ some g) : (c.touch g).gPrev g = none := by
  rw [touch_gPrev]
  cases hc : c.globalIndexFirst with
  | none => exact Function.update_self _ _ _
  | some f =>
    have hgf : g ≠ f := fun hgf => hf (hgf ▸ hc)
    simp only [Function.update_of_ne hgf, Function.update_self]

theorem touch_gPrev_of_ne {x : Nat} (hf : c.globalIndexFirst ≠ some x) (hx : x ≠ g) :
    (c.touch g).gPrev x = (c.unhook g).gPrev x := by
  rw [touch_gPrev]
  cases hc : c.globalIndexFirst with
  | none => exact Function.update_of_ne hx _ _
  | some f =>
    have hxf : x ≠ f := fun hxf => hf (hxf ▸ hc)
    simp only [Function.update_of_ne hxf, Function.update_of_ne hx]

/-- A touch leaves the lists alone. -/
theorem Lists.touch (hc : Lists c refs) (g : Nat) : Lists (c.touch g) refs := by
  obtain ⟨-, hb, hi, hn, -⟩ := touch_same c g
  exact hc.congr hb hi hn

/-- A touch depends on the global list only. -/
theorem SameGlobal.touch (h : SameGlobal c c') (g : Nat) : SameGlobal (c.touch g) (c'.touch g) := by
  have hnext : (c'.unhook g).gNext = (c.unhook g).gNext := by
    rw [unhook_gNext, unhook_gNext, h.prev, h.next]
  have hprev : (c'.unhook g).gPrev = (c.unhook g).gPrev := by
    rw [unhook_gPrev, unhook_gPrev, h.prev, h.next]
  refine ⟨?_, ?_, ?_, ?_⟩
  · rw [touch_gNext, touch_gNext, hnext, h.first]
  · rw [touch_gPrev, touch_gPrev, hprev, h.first]
  · rw [touch_first, touch_first]
  · rw [touch_last, touch_last, h.last]

/-! ## One call -/

/-- No block of its list has the number `b`. -/
def Uncached (c : BufferCache) (b : Nat) : Prop :=
  ∀ r ∈ c.refsOf (b % size), ∀ block, c.blocks r = some block → block.blockId ≠ b

/-- Every number in memory after a call is `b` or was in memory before. -/
def Known (c : BufferCache) (b : Nat) (c' : BufferCache) : Prop :=
  ∀ r' block', c'.blocks r' = some block' → block'.blockId = b ∨
    ∃ r block, c.blocks r = some block ∧ block.blockId = block'.blockId

theorem ListEdit.known {touched : List Nat} (h : ListEdit c c' touched) (b : Nat) : Known c b c' := by
  intro r block' hb'
  obtain ⟨block, hb, hd⟩ := h.data r block' hb'
  exact Or.inr ⟨r, block, hb, congrArg Prod.fst hd⟩

theorem Known.trans {c'' : BufferCache} (h : Known c b c') (h' : Known c' b c'') : Known c b c'' := by
  intro r block'' hb''
  rcases h' r block'' hb'' with hid | ⟨r', block', hb', hid'⟩
  · exact Or.inl hid
  · rcases h r' block' hb' with hid | ⟨r₀, block, hb, hid⟩
    · exact Or.inl (hid'.symm.trans hid)
    · exact Or.inr ⟨r₀, block, hb, hid.trans hid'⟩

/-- What every call that returns leaves behind: the lists `refs` with block `b` put in front of its own,
    and the global list of `d` with its bucket touched. -/
structure ReadTo (c : BufferCache) (refs : Nat → List Nat) (d : BufferCache) (b : Nat)
    (c' : BufferCache) : Prop where
  lists : ∃ r, Lists c' (update refs (b % size) (r :: refs (b % size)))
  global : SameGlobal (d.touch (b % size)) c'
  known : Known c b c'

/-- The common part of both branches, for a block that is in no list. -/
theorem Lists.deliver (hc : Lists c refs) {r : Nat} {block : Block} (hr : ∀ j, r ∉ refs j)
    (hb : c.blocks r = some block) (hid : block.blockId = b) (hprev : block.prev = none)
    (buffer : Buffer) :
    ∃ c' buffer', c.deliver b r buffer = some (c', buffer') ∧ ReadTo c refs c b c' ∧
      c'.count = c.count := by
  obtain ⟨c₁, hadd, hlists, hedit⟩ := hc.add hr hb hprev
  rw [hid] at hadd hlists hedit
  obtain ⟨-, hblocks, -, -, hcount⟩ := touch_same c₁ (b % size)
  refine ⟨c₁.touch (b % size), memcpy c.ide.blockSize block.buffer buffer, ?_,
    ⟨⟨r, hlists.touch _⟩, hedit.sameGlobal.touch _, ?_⟩, by rw [hcount, hedit.count_eq]⟩
  · unfold BufferCache.deliver
    simp only [hb, hadd]
  · unfold Known
    rw [hblocks]
    exact hedit.known b

/-- The cache after the oldest bucket has been popped. -/
def popped (c : BufferCache) (p : Nat) : BufferCache :=
  { c with globalIndexLast := some p }.setNext p none

theorem miss_eq (c : BufferCache) (b : Nat) : c.miss b =
    if size ≤ u32 (c.count + 1) then
      (c.load b).1.addFetch.evict.map fun c'' => (c'', c.nextBlock)
    else some ((c.load b).1.addFetch, c.nextBlock) := rfl

/-- A miss below capacity. -/
theorem Lists.miss_below (hc : Lists c refs) (b : Nat) (hlt : u32 (c.count + 1) < size)
    (buffer : Buffer) :
    ∃ c₁ r c' buffer', c.miss b = some (c₁, r) ∧ c₁.deliver b r buffer = some (c', buffer') ∧
      ReadTo c refs c b c' ∧ c'.count = u32 (c.count + 1) := by
  obtain ⟨hlists, hnew, hself, hother⟩ := hc.load b
  have hlists' : Lists (c.load b).1.addFetch refs := hlists.congr rfl rfl rfl
  obtain ⟨c', buffer', hdel, hread, hcount⟩ := hlists'.deliver (b := b) hnew hself rfl rfl buffer
  refine ⟨(c.load b).1.addFetch, c.nextBlock, c', buffer', ?_, hdel,
    ⟨hread.lists, ?_, ?_⟩, hcount⟩
  · rw [miss_eq, if_neg (Nat.not_le.2 hlt)]
  · have hload : SameGlobal c (c.load b).1.addFetch := ⟨rfl, rfl, rfl, rfl⟩
    exact (hload.touch _).trans hread.global
  · refine Known.trans (fun x block' hb' => ?_) hread.known
    by_cases hx : x = c.nextBlock
    · have hb'' : some _ = some block' := hself.symm.trans (hx ▸ hb')
      exact Or.inl (by rw [← Option.some.inj hb''])
    · exact Or.inr ⟨x, block', (hother x hx).symm.trans hb', rfl⟩

/-- A miss at capacity with an oldest bucket to pop. -/
theorem Lists.miss_evict (hc : Lists c refs) (b : Nat) (hge : size ≤ u32 (c.count + 1))
    (hcan : CanEvict c o p) (buffer : Buffer) :
    ∃ c₁ r c' buffer', c.miss b = some (c₁, r) ∧ c₁.deliver b r buffer = some (c', buffer') ∧
      ReadTo c (update refs o (refs o).dropLast) (c.popped p) b c' ∧ c'.count = size := by
  obtain ⟨hlists, hnew, hself, hother⟩ := hc.load b
  -- the cache while the eviction drops a block: the new block is made, the last bucket popped
  have hpop : (c.load b).1.addFetch.popOldest = some ((c.load b).1.addFetch.popped p, o) :=
    CanEvict.popOldest ⟨hcan.last, hcan.before, hcan.first⟩
  have hlists' : Lists ((c.load b).1.addFetch.popped p) refs := hlists.congr rfl rfl rfl
  obtain ⟨c₂, hrem, hlists₂, hedit⟩ := hlists'.remove o
  have hout : ∀ j, c.nextBlock ∉ update refs o (refs o).dropLast j := by
    intro j hj
    by_cases hjo : j = o
    · subst hjo
      rw [Function.update_self] at hj
      exact hnew j ((refs j).dropLast_subset hj)
    · rw [Function.update_of_ne hjo] at hj
      exact hnew j hj
  have hself₂ : c₂.blocks c.nextBlock = some ⟨b, c.ide.readBlock b fun _ => 0, none, none⟩ :=
    (hedit.outside _ (hnew o)).trans hself
  have hlists₃ : Lists { c₂ with count := size } (update refs o (refs o).dropLast) :=
    hlists₂.congr rfl rfl rfl
  obtain ⟨c', buffer', hdel, hread, hcount⟩ := hlists₃.deliver (b := b) hout hself₂ rfl rfl buffer
  refine ⟨{ c₂ with count := size }, c.nextBlock, c', buffer', ?_, hdel, ⟨hread.lists, ?_, ?_⟩, hcount⟩
  · have hevict : (c.load b).1.addFetch.evict = some { c₂ with count := size } := by
      unfold BufferCache.evict
      simp only [hpop, hrem]
    rw [miss_eq, if_pos hge, hevict]
    rfl
  · have hload : SameGlobal (c.popped p) ((c.load b).1.addFetch.popped p) := ⟨rfl, rfl, rfl, rfl⟩
    have hsame : SameGlobal (c.popped p) { c₂ with count := size } :=
      (hload.trans hedit.sameGlobal).trans ⟨rfl, rfl, rfl, rfl⟩
    exact (hsame.touch _).trans hread.global
  · refine Known.trans (fun x block' hb' => ?_) (Known.trans (hedit.known b) hread.known)
    by_cases hx : x = c.nextBlock
    · have hb'' : some _ = some block' := hself.symm.trans (hx ▸ hb')
      exact Or.inl (by rw [← Option.some.inj hb''])
    · exact Or.inr ⟨x, block', (hother x hx).symm.trans hb', rfl⟩

/-- A miss at capacity with nothing to pop fails. -/
theorem miss_stuck (b : Nat) (hge : size ≤ u32 (c.count + 1)) (hcan : ∀ o p, ¬ CanEvict c o p) :
    c.miss b = none := by
  have hpop : (c.load b).1.addFetch.popOldest = none :=
    popOldest_none fun o p h => hcan o p ⟨h.last, h.before, h.first⟩
  have hevict : (c.load b).1.addFetch.evict = none := by
    unfold BufferCache.evict
    rw [hpop]
  rw [miss_eq, if_pos hge, hevict]
  rfl

/-- **One call of `read_block`.**  It is a hit, a miss below capacity, a miss that evicts, or a miss at
    capacity that fails because there is nothing to pop. -/
theorem Lists.readBlock (hc : Lists c refs) (b : Nat) (buffer : Buffer) :
    (¬ Uncached c b ∧ ∃ pre r post c' buffer', refs (b % size) = pre ++ r :: post ∧
      c.readBlock b buffer = some (c', buffer') ∧
      ReadTo c (update refs (b % size) (pre ++ post)) c b c' ∧ c'.count = c.count) ∨
    (Uncached c b ∧ u32 (c.count + 1) < size ∧ ∃ c' buffer',
      c.readBlock b buffer = some (c', buffer') ∧ ReadTo c refs c b c' ∧
      c'.count = u32 (c.count + 1)) ∨
    (Uncached c b ∧ size ≤ u32 (c.count + 1) ∧ ∃ o p c' buffer', CanEvict c o p ∧
      c.readBlock b buffer = some (c', buffer') ∧
      ReadTo c (update refs o (refs o).dropLast) (c.popped p) b c' ∧ c'.count = size) ∨
    (Uncached c b ∧ size ≤ u32 (c.count + 1) ∧ (∀ o p, ¬ CanEvict c o p) ∧
      c.readBlock b buffer = none) := by
  unfold BufferCache.readBlock
  rcases hc.extract b with
    ⟨hnone, he⟩ | ⟨c₁, pre, r, post, block, hrefs, hb, hid, he, hlists, hr, hedit⟩
  · have hunc : Uncached c b := by
      unfold Uncached
      rw [hc.refsOf_eq]
      exact hnone
    simp only [he]
    by_cases hlt : u32 (c.count + 1) < size
    · obtain ⟨c₁, r, c', buffer', hmiss, hdel, hread, hcount⟩ := hc.miss_below b hlt buffer
      refine Or.inr (Or.inl ⟨hunc, hlt, c', buffer', ?_, hread, hcount⟩)
      simp only [hmiss, hdel]
    · have hge : size ≤ u32 (c.count + 1) := Nat.not_lt.1 hlt
      by_cases hcan : ∃ o p, CanEvict c o p
      · obtain ⟨o, p, hcan⟩ := hcan
        obtain ⟨c₁, r, c', buffer', hmiss, hdel, hread, hcount⟩ := hc.miss_evict b hge hcan buffer
        refine Or.inr (Or.inr (Or.inl ⟨hunc, hge, o, p, c', buffer', hcan, ?_, hread, hcount⟩))
        simp only [hmiss, hdel]
      · have hcan' : ∀ o p, ¬ CanEvict c o p := fun o p h => hcan ⟨o, p, h⟩
        refine Or.inr (Or.inr (Or.inr ⟨hunc, hge, hcan', ?_⟩))
        simp only [miss_stuck b hge hcan']
  · have hhit : ¬ Uncached c b := by
      unfold Uncached
      rw [hc.refsOf_eq]
      exact fun h => h r (by simp [hrefs]) block hb hid
    have hin : r ∈ refs (b % size) := by simp [hrefs]
    obtain ⟨hpre, hpost⟩ := Chains.not_mem_sides (hrefs ▸ (hc.holds _).chain.nodup)
    have hout : ∀ j, r ∉ update refs (b % size) (pre ++ post) j := by
      intro j hj
      by_cases hjb : j = b % size
      · subst hjb
        rw [Function.update_self] at hj
        rcases List.mem_append.1 hj with hj | hj
        · exact hpre hj
        · exact hpost hj
      · rw [Function.update_of_ne hjb] at hj
        exact hjb (hc.bucket_eq hj hin)
    obtain ⟨c', buffer', hdel, hread, hcount⟩ := hlists.deliver hout hr hid rfl buffer
    refine Or.inl ⟨hhit, pre, r, post, c', buffer', hrefs, ?_, ⟨hread.lists, ?_, ?_⟩, ?_⟩
    · simp only [he, hdel]
    · exact (hedit.sameGlobal.touch _).trans hread.global
    · exact (hedit.known b).trans hread.known
    · rw [hcount, hedit.count_eq]

/-! ## History -/

/-- What the global list knows of the buckets read so far, `h`, the last one first. -/
structure Seen (c : BufferCache) (h : List Nat) : Prop where
  first : c.globalIndexFirst = h.head?
  last : c.globalIndexLast = none → h = []
  last_mem : ∀ o, c.globalIndexLast = some o → o ∈ h
  next_mem : ∀ x n, c.gNext x = some n → n ∈ h
  prev_mem : ∀ x p, c.gPrev x = some p → p ∈ h
  prev_none : ∀ x, c.gPrev x = none ↔ x ∉ h ∨ (h.head? = some x ∧ h.tail.head? ≠ some x)

variable {h : List Nat}

theorem seen_make (ide : Ide) : Seen (BufferCache.make ide) [] := by
  refine ⟨rfl, fun _ => rfl, ?_, ?_, ?_, fun x => ?_⟩
  · intro o ho
    simp [BufferCache.make] at ho
  · intro x n hx
    simp [gNext, BufferCache.make] at hx
  · intro x p hx
    simp [gPrev, BufferCache.make] at hx
  · simp [gPrev, BufferCache.make]

theorem Seen.congr (hs : Seen c h) (hsame : SameGlobal c c') : Seen c' h := by
  obtain ⟨hn, hp, hf, hl⟩ := hsame
  refine ⟨?_, ?_, ?_, ?_, ?_, ?_⟩
  · rw [hf]; exact hs.first
  · rw [hl]; exact hs.last
  · rw [hl]; exact hs.last_mem
  · rw [hn]; exact hs.next_mem
  · rw [hp]; exact hs.prev_mem
  · rw [hp]; exact hs.prev_none

/-- Popping the last bucket keeps what is known. -/
theorem Seen.popped (hs : Seen c h) (hcan : CanEvict c o p) : Seen (c.popped p) h := by
  have hnext : (c.popped p).gNext = update c.gNext p none := setNext_gNext _ _ _
  have hprev : (c.popped p).gPrev = c.gPrev := setNext_gPrev _ _ _
  refine ⟨hs.first, fun hl => by simp [BufferCache.popped, setNext] at hl, ?_, ?_, ?_, ?_⟩
  · intro x hx
    obtain rfl : p = x := by simpa [BufferCache.popped, setNext] using hx
    exact hs.prev_mem o p hcan.before
  · intro x n hx
    rw [hnext] at hx
    by_cases hxp : x = p
    · rw [hxp, Function.update_self] at hx
      simp at hx
    · rw [Function.update_of_ne hxp] at hx
      exact hs.next_mem x n hx
  · rw [hprev]
    exact hs.prev_mem
  · rw [hprev]
    exact hs.prev_none

/-- **Touching a bucket adds it to what is known.** -/
theorem Seen.touch (hs : Seen c h) (g : Nat) : Seen (c.touch g) (g :: h) := by
  have hunhook : ∀ x, (c.unhook g).gPrev x = c.gPrev x ∨
      (x ∈ h ∧ ∃ p, p ∈ h ∧ (c.unhook g).gPrev x = some p) := by
    intro x
    rw [unhook_gPrev]
    split
    · rename_i p n hp hn
      by_cases hx : x = n
      · subst hx
        exact Or.inr ⟨hs.next_mem g x hn, p, hs.prev_mem g p hp, Function.update_self _ _ _⟩
      · exact Or.inl (Function.update_of_ne hx _ _)
    · exact Or.inl rfl
  refine ⟨touch_first c g, ?_, ?_, ?_, ?_, ?_⟩
  · intro hl
    rw [touch_last] at hl
    simp at hl
  · intro o ho
    rw [touch_last] at ho
    cases hl : c.globalIndexLast with
    | none =>
      obtain rfl : g = o := by simpa [hl] using ho
      simp
    | some l =>
      obtain rfl : l = o := by simpa [hl] using ho
      exact List.mem_cons_of_mem g (hs.last_mem l hl)
  · intro x n hx
    refine List.mem_cons_of_mem g ?_
    rw [touch_gNext] at hx
    by_cases hxg : x = g
    · rw [hxg, Function.update_self, hs.first] at hx
      exact List.mem_of_mem_head? hx
    · rw [Function.update_of_ne hxg, unhook_gNext] at hx
      split at hx
      · exact hs.next_mem x n hx
      · rename_i p hp
        by_cases hxp : x = p
        · rw [hxp, Function.update_self] at hx
          exact hs.next_mem g n hx
        · rw [Function.update_of_ne hxp] at hx
          exact hs.next_mem x n hx
  · intro x p hx
    by_cases hf : c.globalIndexFirst = some x
    · obtain rfl : g = p := Option.some.inj ((touch_gPrev_first hf).symm.trans hx)
      simp
    · refine List.mem_cons_of_mem g ?_
      by_cases hxg : x = g
      · subst hxg
        rw [touch_gPrev_self hf] at hx
        simp at hx
      · rw [touch_gPrev_of_ne hf hxg] at hx
        rcases hunhook x with hsame | ⟨-, q, hq, hnew⟩
        · exact hs.prev_mem x p (hsame ▸ hx)
        · obtain rfl : q = p := Option.some.inj (hnew.symm.trans hx)
          exact hq
  · intro x
    have hfirst := hs.first
    by_cases hf : c.globalIndexFirst = some x
    · -- the bucket read the time before now has `g` in front of it
      have hx : x ∈ h := List.mem_of_mem_head? (hfirst.symm.trans hf)
      rw [touch_gPrev_first hf]
      simp [hx, ← hfirst, hf]
    · rw [hfirst] at hf
      by_cases hxg : x = g
      · subst hxg
        rw [touch_gPrev_self (hfirst ▸ hf)]
        simp [hf]
      · have hold : (c.touch g).gPrev x = none ↔ c.gPrev x = none := by
          rw [touch_gPrev_of_ne (hfirst ▸ hf) hxg]
          rcases hunhook x with hsame | ⟨hmem, q, -, hnew⟩
          · rw [hsame]
          · rw [hnew, hs.prev_none x]
            simp [hmem, hf]
        rw [hold, hs.prev_none x]
        simp [hf, hxg, Ne.symm hxg]

end BufferCache

end BadApple
