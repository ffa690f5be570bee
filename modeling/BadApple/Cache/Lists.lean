/-
  The 997 lists together.

  `Lists c refs` says that the buckets of `c` hold `refs`, bucket by bucket, and every block is in the
  bucket its number belongs to; so no block is in two buckets, and an operation on one bucket leaves the
  others alone.  One lemma per list operation says what it does to `refs`; `ListEdit` is what it may
  have done to everything else.
-/
import BadApple.Cache.Model
import Mathlib.Data.List.Perm.Subperm

namespace BadApple

open Function (update)

namespace BufferCache

/-- The buckets of `c` hold `refs`. -/
structure Lists (c : BufferCache) (refs : Nat → List Nat) : Prop where
  holds : ∀ i, (c.indices i).Holds c.blocks (refs i)
  home : ∀ i r, r ∈ refs i → ∀ block, c.blocks r = some block → block.blockId % size = i
  made : ∀ r, (c.blocks r).isSome → r < c.nextBlock

/-- An edit of lists: nothing but `blocks` and `indices` changes, blocks that were not `touched` do not
    change at all, and no block changes its data. -/
structure ListEdit (c c' : BufferCache) (touched : List Nat) : Prop where
  rest : c' = { c with blocks := c'.blocks, indices := c'.indices }
  outside : ∀ r, r ∉ touched → c'.blocks r = c.blocks r
  data : ∀ r block', c'.blocks r = some block' →
    ∃ block, c.blocks r = some block ∧ block.data = block'.data

variable {c c' : BufferCache} {refs : Nat → List Nat}

theorem ListEdit.refl (c : BufferCache) (touched : List Nat) : ListEdit c c touched :=
  ⟨rfl, fun _ _ => rfl, fun _ block' h => ⟨block', h, rfl⟩⟩

theorem Lists.make (ide : Ide) : Lists (BufferCache.make ide) fun _ => [] :=
  ⟨fun _ => BlockList.Holds.empty _, fun i r hr => by simp at hr,
    fun r hr => by simp [BufferCache.make] at hr⟩

/-- Only the lists and the blocks matter. -/
theorem Lists.congr (hc : Lists c refs) (hb : c'.blocks = c.blocks) (hi : c'.indices = c.indices)
    (hn : c'.nextBlock = c.nextBlock) : Lists c' refs := by
  refine ⟨fun i => ?_, fun i r hr => ?_, fun r => ?_⟩
  · rw [hb, hi]
    exact hc.holds i
  · rw [hb]
    exact hc.home i r hr
  · rw [hb, hn]
    exact hc.made r

/-- No block is in two buckets. -/
theorem Lists.bucket_eq (hc : Lists c refs) {i j r : Nat} (hi : r ∈ refs i) (hj : r ∈ refs j) :
    i = j := by
  obtain ⟨block, hb⟩ := Option.isSome_iff_exists.1 ((hc.holds i).alive r hi)
  rw [← hc.home i r hi block hb, hc.home j r hj block hb]

/-- A bucket holds no more blocks than were ever made. -/
theorem Lists.length_le (hc : Lists c refs) (i : Nat) : (refs i).length ≤ c.nextBlock := by
  have hsub : refs i ⊆ List.range c.nextBlock := by
    intro r hr
    exact List.mem_range.2 (hc.made r ((hc.holds i).alive r hr))
  have hle := (List.subperm_of_subset (hc.holds i).chain.nodup hsub).length_le
  rwa [List.length_range] at hle

/-- What the walk along a bucket reads. -/
theorem Lists.refsOf_eq (hc : Lists c refs) (i : Nat) : c.refsOf i = refs i :=
  (hc.holds i).chain.walk_eq (hc.length_le i)

/-- **One bucket is edited.** -/
theorem Lists.edit (hc : Lists c refs) {i : Nat} {h' : Blocks} {l' : BlockList} {new : List Nat}
    (hnew : l'.Holds h' new) (hout : ∀ j, j ≠ i → ∀ r ∈ refs j, h' r = c.blocks r)
    (hdata : ∀ r block', h' r = some block' →
      ∃ block, c.blocks r = some block ∧ block.data = block'.data)
    (hhome : ∀ r ∈ new, ∀ block, c.blocks r = some block → block.blockId % size = i) :
    Lists { c with blocks := h', indices := update c.indices i l' } (update refs i new) := by
  refine ⟨fun j => ?_, fun j r hr block' hb' => ?_, fun r hr => ?_⟩
  · by_cases hj : j = i
    · subst hj
      simpa only [Function.update_self] using hnew
    · simp only [Function.update_of_ne hj]
      exact (hc.holds j).congr (hout j hj)
  · obtain ⟨block, hb, hd⟩ := hdata r block' hb'
    have hid : block.blockId = block'.blockId := congrArg Prod.fst hd
    rw [← hid]
    by_cases hj : j = i
    · subst hj
      rw [Function.update_self] at hr
      exact hhome r hr block hb
    · rw [Function.update_of_ne hj] at hr
      exact hc.home j r hr block hb
  · obtain ⟨block', hb'⟩ := Option.isSome_iff_exists.1 hr
    obtain ⟨block, hb, -⟩ := hdata r block' hb'
    exact hc.made r (by rw [hb]; rfl)

/-- Blocks that keep their data keep it read backwards. -/
theorem data_of_dataOf {h h' : Blocks} (hd : ∀ r, (h' r).isSome → h'.dataOf r = h.dataOf r) :
    ∀ r block', h' r = some block' → ∃ block, h r = some block ∧ block.data = block'.data := by
  intro r block' hb'
  have heq := hd r (by rw [hb']; rfl)
  unfold Blocks.dataOf at heq
  rw [hb', Option.map_some] at heq
  obtain ⟨block, hb, hdata⟩ := Option.map_eq_some_iff.1 heq.symm
  exact ⟨block, hb, hdata⟩

/-- **`extract`**: the block is in no list, or it is taken out of its list. -/
theorem Lists.extract (hc : Lists c refs) (b : Nat) :
    ((∀ r ∈ refs (b % size), ∀ block, c.blocks r = some block → block.blockId ≠ b) ∧
      c.extract b = some (c, none)) ∨
    ∃ c' pre r post block, refs (b % size) = pre ++ r :: post ∧ c.blocks r = some block ∧
      block.blockId = b ∧ c.extract b = some (c', some r) ∧
      Lists c' (update refs (b % size) (pre ++ post)) ∧
      c'.blocks r = some { block with next := none, prev := none } ∧
      ListEdit c c' (refs (b % size)) := by
  have hl := hc.holds (b % size)
  unfold BufferCache.extract
  rcases hl.extract b (hc.length_le (b % size)) with
    ⟨hnone, he⟩ | ⟨h', l', pre, r, post, block, hrefs, hb, hid, he, hnew, hr, hedit⟩
  · refine Or.inl ⟨hnone, ?_⟩
    simp only [he, Function.update_eq_self]
  · have hdata := data_of_dataOf fun x _ => hedit.data x
    refine Or.inr ⟨_, pre, r, post, block, hrefs, hb, hid, by rw [he], ?_, hr, rfl, hedit.outside, hdata⟩
    refine hc.edit hnew (fun j hj x hx => hedit.outside x ?_) hdata fun x hx => ?_
    · exact fun hx' => hj (hc.bucket_eq hx hx')
    · refine hc.home (b % size) x ?_
      rw [hrefs]
      simp only [List.mem_append, List.mem_cons] at hx ⊢
      tauto

/-- **`remove`** drops the last block of a list, if there is one. -/
theorem Lists.remove (hc : Lists c refs) (i : Nat) :
    ∃ c', c.remove i = some c' ∧ Lists c' (update refs i (refs i).dropLast) ∧
      ListEdit c c' (refs i) := by
  have hl := hc.holds i
  unfold BufferCache.remove
  rcases List.eq_nil_or_concat (refs i) with hrefs | ⟨a, r, hrefs⟩
  · rw [hrefs] at hl
    have hsame : update refs i (refs i).dropLast = refs := by
      rw [Function.update_eq_self_iff, hrefs]
      rfl
    refine ⟨c, ?_, by rwa [hsame], ListEdit.refl _ _⟩
    simp only [hl.remove_nil, Function.update_eq_self]
  · rw [List.concat_eq_append] at hrefs
    rw [hrefs] at hl
    obtain ⟨h', l', he, hnew, hgone, hout, hd⟩ := hl.remove
    have hdata : ∀ x block', h' x = some block' →
        ∃ block, c.blocks x = some block ∧ block.data = block'.data := by
      refine data_of_dataOf fun x hx => hd x ?_
      rintro rfl
      rw [hgone] at hx
      simp at hx
    rw [he, hrefs, List.dropLast_concat]
    refine ⟨_, rfl, ?_, rfl, hout, hdata⟩
    refine hc.edit hnew (fun j hj x hx => hout x ?_) hdata fun x hx => ?_
    · rw [← hrefs]
      exact fun hx' => hj (hc.bucket_eq hx hx')
    · exact hc.home i x (by rw [hrefs]; simp [hx])

/-- **`add`** puts a block that is in no list in front of its list. -/
theorem Lists.add (hc : Lists c refs) {r : Nat} {block : Block} (hr : ∀ j, r ∉ refs j)
    (hb : c.blocks r = some block) (hprev : block.prev = none) :
    ∃ c', c.add (block.blockId % size) r = some c' ∧
      Lists c' (update refs (block.blockId % size) (r :: refs (block.blockId % size))) ∧
      ListEdit c c' (r :: refs (block.blockId % size)) := by
  obtain ⟨h', l', he, hnew, hedit⟩ := (hc.holds (block.blockId % size)).add (hr _) hb hprev
  have hdata := data_of_dataOf fun x _ => hedit.data x
  unfold BufferCache.add
  rw [he]
  refine ⟨_, rfl, ?_, rfl, hedit.outside, hdata⟩
  refine hc.edit hnew (fun j hj x hx => hedit.outside x ?_) hdata fun x hx blk hblk => ?_
  · intro hx'
    rcases List.mem_cons.1 hx' with rfl | hx'
    · exact hr j hx
    · exact hj (hc.bucket_eq hx hx')
  · rcases List.mem_cons.1 hx with rfl | hx
    · rw [hb] at hblk
      rw [Option.some.inj hblk]
    · exact hc.home _ x hx blk hblk

/-- A new block is in no list and keeps every list as it is. -/
theorem Lists.load (hc : Lists c refs) (b : Nat) :
    Lists (c.load b).1 refs ∧ (∀ j, c.nextBlock ∉ refs j) ∧
      (c.load b).1.blocks c.nextBlock = some ⟨b, c.ide.readBlock b fun _ => 0, none, none⟩ ∧
      ∀ r, r ≠ c.nextBlock → (c.load b).1.blocks r = c.blocks r := by
  have hnew : ∀ j, c.nextBlock ∉ refs j := by
    intro j hr
    exact Nat.lt_irrefl _ (hc.made _ ((hc.holds j).alive _ hr))
  have hself : (c.load b).1.blocks c.nextBlock =
      some ⟨b, c.ide.readBlock b fun _ => 0, none, none⟩ := Function.update_self _ _ _
  have hother : ∀ r, r ≠ c.nextBlock → (c.load b).1.blocks r = c.blocks r :=
    fun r hr => Function.update_of_ne hr _ _
  have hkeep : ∀ j, ∀ r ∈ refs j, (c.load b).1.blocks r = c.blocks r := by
    intro j r hr
    exact hother r fun hrn => hnew j (hrn ▸ hr)
  refine ⟨⟨fun j => (hc.holds j).congr (hkeep j), fun j r hr block hb => ?_, fun r hr => ?_⟩, hnew,
    hself, hother⟩
  · rw [hkeep j r hr] at hb
    exact hc.home j r hr block hb
  · show r < c.nextBlock + 1
    by_cases hrn : r = c.nextBlock
    · omega
    · rw [hother r hrn] at hr
      exact Nat.lt_succ_of_lt (hc.made r hr)

/-- `popOldest` touches neither blocks nor lists. -/
theorem popOldest_same {c c' : BufferCache} {oldest : Nat} (h : c.popOldest = some (c', oldest)) :
    c'.ide = c.ide ∧ c'.blocks = c.blocks ∧ c'.indices = c.indices ∧ c'.nextBlock = c.nextBlock := by
  unfold popOldest at h
  split at h
  · simp at h
  · split at h
    · simp at h
    · simp only at h
      split at h
      · simp at h
      · obtain ⟨rfl, -⟩ := Prod.mk.inj (Option.some.inj h)
        exact ⟨rfl, rfl, rfl, rfl⟩

/-- Neither does `touch`. -/
theorem touch_same (c : BufferCache) (g : Nat) : (c.touch g).ide = c.ide ∧
    (c.touch g).blocks = c.blocks ∧ (c.touch g).indices = c.indices ∧
    (c.touch g).nextBlock = c.nextBlock ∧ (c.touch g).count = c.count := by
  unfold touch pushFront unhook
  simp only [setNext, setPrev]
  refine ⟨?_, ?_, ?_, ?_, ?_⟩
  all_goals
    repeat' split
    all_goals rfl

end BufferCache

end BadApple
