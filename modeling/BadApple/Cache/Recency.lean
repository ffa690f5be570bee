/-
  Recency: the global list of buckets, from the most to the least recently read one.

  1. **Specification** — `Ordered`: the chain from `global_index_first` along `next` is a list without
     repetitions, the chain from `global_index_last` along `prev` is its reverse, it contains exactly the
     buckets that hold a block, and it is ordered by when they were last read.
  2. **The defect** — `read_block` moves a bucket to the front by three rules that each forget a case: a
     bucket that is already first gets itself as `next`; a bucket that is last stays last; a bucket that
     was evicted earlier comes back with a stale `prev`, through which it cuts the list of others.  And an
     eviction drops the last bucket from the list even if only one of several blocks goes.
  3. **The condition** — `OrderFits`, of a read in the state before it: none of these cases arises.
  4. **The result** — `readBlock_ordered`: in every state of a run whose reads all fit the list is as
     specified, and the next read leaves it so exactly when it fits.
-/
import BadApple.Cache.Capacity

namespace BadApple

open Function (update)
open BufferCache Chains

/-! ## The condition and the specification -/

/-- The buckets met from the first one along `next`. -/
def BufferCache.globalList (c : BufferCache) : List Nat := walk c.gNext size c.globalIndexFirst

/-- Bucket `g` can be moved to the front of the list `l`: it is in the middle of it, or it is not in it
    and no inner bucket of `l` is where its `prev` still points. -/
def Moves (c : BufferCache) (l : List Nat) (g : Nat) : Prop :=
  (g ∈ l → l.head? ≠ some g ∧ l.getLast? ≠ some g) ∧
    (g ∉ l → ∀ p, c.gPrev g = some p → p ∈ l → l.getLast? = some p)

/-- The read of `b` has to evict. -/
def Evicts (c : BufferCache) (b : Nat) : Prop := Uncached c b ∧ size ≤ c.count + 1

/-- The condition on a read of `b`.  If it evicts, the list has another bucket before the last one, `o`,
    which holds one block only or is the bucket read; and the bucket read can be moved. -/
def OrderFits (st : Reading) (b : Nat) : Prop :=
  (Evicts st.1 b → ∃ l o, st.1.globalList = l ++ [o] ∧ l ≠ [] ∧
    (b % size = o ∨ (st.1.refsOf o).length = 1) ∧ Moves st.1 l (b % size)) ∧
  (¬ Evicts st.1 b → Moves st.1 st.1.globalList (b % size))

/-- The specification of the global list, given the buckets read, the last one first. -/
def Ordered (c : BufferCache) (h : List Nat) : Prop :=
  ∃ l, Chain c.gNext c.gPrev c.globalIndexFirst c.globalIndexLast l ∧
    (∀ g, g ∈ l ↔ g < size ∧ c.refsOf g ≠ []) ∧
    l.Pairwise fun x y => h.idxOf x < h.idxOf y

/-- The states of runs all of whose reads fit. -/
def OrderedReads (ide : Ide) : Reading → Prop :=
  Runs.Guarded (fun st => st = (BufferCache.make ide, [])) ReadStep OrderFits

/-! ## Moving a bucket to the front -/

variable {c d : BufferCache} {l : List Nat} {g o p : Nat}

/-- The chain `l`, and no `next` outside it. -/
structure GlobalChain (c : BufferCache) (l : List Nat) : Prop where
  chain : Chain c.gNext c.gPrev c.globalIndexFirst c.globalIndexLast l
  outside : ∀ x, x ∉ l → c.gNext x = none

theorem GlobalChain.congr (h : GlobalChain c l) (hs : SameGlobal c d) : GlobalChain d l := by
  obtain ⟨hn, hp, hf, hl⟩ := hs
  constructor
  · rw [hn, hp, hf, hl]
    exact h.chain
  · rw [hn]
    exact h.outside

/-- Putting `g` in front of a chain it is not in, once it is unhooked. -/
theorem GlobalChain.push {last : Option Nat} (hc : Chain (c.unhook g).gNext (c.unhook g).gPrev
      c.globalIndexFirst last l) (hlast : c.globalIndexLast.getD g = last.getD g) (hg : g ∉ l)
    (hout : ∀ x, x ∉ l → x ≠ g → (c.unhook g).gNext x = none) : GlobalChain (c.touch g) (g :: l) := by
  have hfirst : c.globalIndexFirst ≠ some g := by
    intro hf
    exact hg (List.mem_of_mem_head? (hc.first_eq.symm.trans hf))
  have hne : ∀ y ∈ l, y ≠ g := by
    rintro y hy rfl
    exact hg hy
  refine ⟨?_, fun x hx => ?_⟩
  · rw [touch_first, touch_last, hlast]
    refine hc.push hg ?_ (touch_gPrev_self hfirst) (fun y hy => ?_) (fun y hy => ?_) fun y hy hf => ?_
    · rw [touch_gNext, Function.update_self]
    · rw [touch_gNext, Function.update_of_ne (hne y hy)]
    · exact touch_gPrev_first hy
    · exact touch_gPrev_of_ne hf (hne y hy)
  · simp only [List.mem_cons, not_or] at hx
    rw [touch_gNext, Function.update_of_ne hx.1]
    exact hout x hx.2 hx.1

/-- **A bucket from the middle** of the list. -/
theorem GlobalChain.touch_inner {pre post : List Nat} (h : GlobalChain c (pre ++ g :: post))
    (hpre : pre ≠ []) (hpost : post ≠ []) : GlobalChain (c.touch g) (g :: (pre ++ post)) := by
  obtain ⟨hg1, hg2⟩ := not_mem_sides h.chain.nodup
  obtain ⟨p, hp⟩ : ∃ p, pre.getLast? = some p := ⟨_, List.getLast?_eq_some_getLast hpre⟩
  obtain ⟨n, hn⟩ : ∃ n, post.head? = some n := ⟨_, List.head?_eq_some_head hpost⟩
  have hgp : c.gPrev g = some p := h.chain.linked.prev_eq.trans hp
  have hgn : c.gNext g = some n := h.chain.linked.next_eq.trans hn
  have hunext : (c.unhook g).gNext = update c.gNext p (some n) := by
    rw [unhook_gNext, hgp, hgn]
  have huprev : (c.unhook g).gPrev = update c.gPrev n (some p) := by
    rw [unhook_gPrev, hgp, hgn]
  have hchain : Chain (c.unhook g).gNext (c.unhook g).gPrev (pre ++ post).head?
      (pre ++ post).getLast? (pre ++ post) := by
    refine h.chain.unlink ?_ ?_ ?_ ?_
    · intro y hy
      obtain rfl : p = y := Option.some.inj (hp.symm.trans hy)
      rw [hunext, Function.update_self, hn]
    · intro y hy
      obtain rfl : n = y := Option.some.inj (hn.symm.trans hy)
      rw [huprev, Function.update_self, hp]
    · intro y _ hy
      rw [hunext, Function.update_of_ne]
      exact fun hyp => hy (hyp ▸ hp)
    · intro y _ hy
      rw [huprev, Function.update_of_ne]
      exact fun hyn => hy (hyn ▸ hn)
  have hfirst : (pre ++ post).head? = c.globalIndexFirst := by
    rw [h.chain.first_eq, List.head?_append_of_ne_nil _ hpre, List.head?_append_of_ne_nil _ hpre]
  have hlast : c.globalIndexLast = (pre ++ post).getLast? := by
    rw [h.chain.last_eq, List.getLast?_append_of_ne_nil _ hpost,
      List.getLast?_append_of_ne_nil _ (by simp), List.getLast?_cons_of_ne_nil hpost]
  rw [hfirst] at hchain
  refine GlobalChain.push hchain (by rw [hlast]) ?_ fun x hx hxg => ?_
  · simp [hg1, hg2]
  · have hxp : x ≠ p := by
      rintro rfl
      exact hx (List.mem_append_left _ (List.mem_of_getLast? hp))
    rw [hunext, Function.update_of_ne hxp]
    refine h.outside x fun hmem => hx ?_
    simp only [List.mem_append, List.mem_cons] at hmem ⊢
    tauto

/-- **A bucket that is not in the list**, and whose `prev` names no inner bucket of it. -/
theorem GlobalChain.touch_new (h : GlobalChain c l) (hg : g ∉ l)
    (hstale : ∀ p, c.gPrev g = some p → p ∈ l → l.getLast? = some p) :
    GlobalChain (c.touch g) (g :: l) := by
  have hgn : c.gNext g = none := h.outside g hg
  have huprev : (c.unhook g).gPrev = c.gPrev := by
    rw [unhook_gPrev, hgn]
    split
    · rename_i hn
      simp at hn
    · rfl
  have hunext : ∀ y, (c.unhook g).gNext y = c.gNext y := by
    intro y
    rw [unhook_gNext]
    split
    · rfl
    · rename_i p hp
      by_cases hyp : y = p
      · -- the bucket that is made to skip `g` has nothing after it anyway
        subst hyp
        rw [Function.update_self, hgn]
        by_cases hy : y ∈ l
        · obtain ⟨a, rfl⟩ := List.getLast?_eq_some_iff.1 (hstale y hp hy)
          exact (h.chain.linked a y [] rfl).1.symm
        · exact (h.outside y hy).symm
      · rw [Function.update_of_ne hyp]
  refine GlobalChain.push (h.chain.congr (fun y _ => hunext y) fun y _ => by rw [huprev]) rfl hg ?_
  intro x hx _
  rw [hunext x]
  exact h.outside x hx

/-- Popping the last bucket of a list with another one before it. -/
theorem GlobalChain.popped (h : GlobalChain c (l ++ [o])) (hp : l.getLast? = some p) :
    GlobalChain (c.popped p) l := by
  have hnext : (c.popped p).gNext = update c.gNext p none := setNext_gNext _ _ _
  have hprev : (c.popped p).gPrev = c.gPrev := setNext_gPrev _ _ _
  have hne : l ≠ [] := by
    rintro rfl
    simp at hp
  refine ⟨?_, fun x hx => ?_⟩
  · have hfirst : (c.popped p).globalIndexFirst = (l ++ []).head? := by
      show c.globalIndexFirst = _
      rw [h.chain.first_eq, List.append_nil, List.head?_append_of_ne_nil _ hne]
    have hlast : (c.popped p).globalIndexLast = (l ++ []).getLast? := by
      rw [List.append_nil, hp]
      rfl
    rw [hfirst, hlast]
    nth_rewrite 3 [← List.append_nil l]
    refine h.chain.unlink ?_ (by simp) ?_ ?_
    · intro y hy
      obtain rfl : p = y := Option.some.inj (hp.symm.trans hy)
      rw [hnext, Function.update_self]
      rfl
    · intro y _ hy
      rw [hnext, Function.update_of_ne]
      exact fun hyp => hy (hyp ▸ hp)
    · intro y _ _
      rw [hprev]
  · rw [hnext]
    by_cases hxp : x = p
    · rw [hxp, Function.update_self]
    · rw [Function.update_of_ne hxp]
      by_cases hxo : x = o
      · subst hxo
        exact (h.chain.linked l x [] rfl).1
      · exact h.outside x (by simp [hx, hxo])

/-! ## One call -/

/-- After a call a bucket holds a block if it is the one read, or held one in what the call was handed. -/
theorem BufferCache.ReadTo.refsOf_ne {c d c' : BufferCache} {refs : Nat → List Nat} {b : Nat}
    (h : ReadTo c refs d b c') (x : Nat) : c'.refsOf x ≠ [] ↔ x = b % size ∨ refs x ≠ [] := by
  obtain ⟨r, hlists⟩ := h.lists
  rw [hlists.refsOf_eq]
  by_cases hx : x = b % size
  · rw [hx, Function.update_self]
    simp
  · rw [Function.update_of_ne hx]
    simp [hx]

/-- Reading a bucket makes it the most recent one and changes no other order. -/
theorem pairwise_recent {h l : List Nat} {g : Nat} (hl : l.Pairwise fun x y => h.idxOf x < h.idxOf y)
    (hg : g ∉ l) : (g :: l).Pairwise fun x y => (g :: h).idxOf x < (g :: h).idxOf y := by
  have hne : ∀ x ∈ l, g ≠ x := by
    rintro x hx rfl
    exact hg hx
  refine List.pairwise_cons.2 ⟨fun x hx => ?_, hl.imp_of_mem fun {x y} hx hy hxy => ?_⟩
  · rw [List.idxOf_cons_self, List.idxOf_cons_ne _ (hne x hx)]
    omega
  · rw [List.idxOf_cons_ne _ (hne x hx), List.idxOf_cons_ne _ (hne y hy)]
    omega

/-- What is known of the global list when its bucket is moved: `l`, of the buckets that hold a block in
    what the call was handed. -/
structure Before (d : BufferCache) (refs : Nat → List Nat) (h : List Nat) (g : Nat) (l : List Nat) :
    Prop where
  list : GlobalChain d l
  full : ∀ x, x ≠ g → (x ∈ l ↔ x < size ∧ refs x ≠ [])
  recent : l.Pairwise fun x y => h.idxOf x < h.idxOf y

/-- **A call whose bucket can be moved** leaves the list as specified. -/
theorem Before.moves {d c' : BufferCache} {refs : Nat → List Nat} {h : List Nat} {b : Nat}
    {l : List Nat} (hb : Before d refs h (b % size) l) (hm : Moves d l (b % size))
    (hread : ReadTo c refs d b c') :
    ∃ l', GlobalChain c' l' ∧ (∀ x, x ∈ l' ↔ x < size ∧ c'.refsOf x ≠ []) ∧
      l'.Pairwise fun x y => (b % size :: h).idxOf x < (b % size :: h).idxOf y := by
  -- the list without the bucket read, behind that bucket
  obtain ⟨rest, hout, hlist, hmem, hrecent⟩ : ∃ rest, b % size ∉ rest ∧
      GlobalChain (d.touch (b % size)) (b % size :: rest) ∧ (∀ x, x ≠ b % size → (x ∈ rest ↔ x ∈ l)) ∧
      rest.Pairwise fun x y => h.idxOf x < h.idxOf y := by
    by_cases hg : b % size ∈ l
    · obtain ⟨pre, post, rfl⟩ := List.append_of_mem hg
      obtain ⟨hg1, hg2⟩ := not_mem_sides hb.list.chain.nodup
      obtain ⟨hhead, hlast⟩ := hm.1 hg
      refine ⟨pre ++ post, by simp [hg1, hg2], hb.list.touch_inner ?_ ?_, fun x hx => ?_, ?_⟩
      · rintro rfl
        simp at hhead
      · rintro rfl
        simp at hlast
      · simp [hx]
      · exact hb.recent.sublist (by simp)
    · exact ⟨l, hg, hb.list.touch_new hg (hm.2 hg), fun x _ => Iff.rfl, hb.recent⟩
  refine ⟨b % size :: rest, hlist.congr hread.global, fun x => ?_, pairwise_recent hrecent hout⟩
  rw [hread.refsOf_ne x]
  by_cases hx : x = b % size
  · rw [hx]
    simp [bucket_lt b]
  · rw [List.mem_cons, hmem x hx, hb.full x hx]
    simp [hx]

/-- A bucket with nothing after it is the last one of its list. -/
theorem Ordered.last_of_next_none {h : List Nat} (hord : Ordered c h) {x : Nat} (hx : x < size)
    (hrefs : c.refsOf x ≠ []) (hnext : c.gNext x = none) : c.globalIndexLast = some x := by
  obtain ⟨l, hchain, hfull, -⟩ := hord
  obtain ⟨a, z, rfl⟩ := List.append_of_mem ((hfull x).2 ⟨hx, hrefs⟩)
  have hz : z = [] := by
    rw [← List.head?_eq_none_iff, ← hchain.linked.next_eq, hnext]
  rw [hchain.last_eq, hz, List.getLast?_concat]

/-- **A call whose bucket cannot be moved** spoils the list. -/
theorem Before.not_moves {d c' : BufferCache} {refs : Nat → List Nat} {h h' : List Nat} {b : Nat}
    {l : List Nat} (hb : Before d refs h (b % size) l) (hm : ¬ Moves d l (b % size))
    (hread : ReadTo c refs d b c') : ¬ Ordered c' h' := by
  intro hord
  have hfirst' : c'.globalIndexFirst = some (b % size) := by
    rw [hread.global.first, touch_first]
  have hlast' : c'.globalIndexLast = some (d.globalIndexLast.getD (b % size)) := by
    rw [hread.global.last, touch_last]
  have hnext' : c'.gNext (b % size) = l.head? := by
    rw [hread.global.next, touch_gNext, Function.update_self, hb.list.chain.first_eq]
  have hdlast := hb.list.chain.last_eq
  refine hm ⟨fun hg => ⟨fun hhead => ?_, fun hlast => ?_⟩, fun hg p hp hpl => ?_⟩
  · -- first already: the bucket would follow itself
    obtain ⟨l', hchain, -⟩ := hord
    have hne := hchain.first_eq.symm.trans hfirst'
    obtain ⟨rest, rfl⟩ : ∃ rest, l' = b % size :: rest := List.head?_eq_some_iff.1 hne
    have hrest : rest.head? = some (b % size) := by
      rw [← (hchain.linked [] _ rest rfl).1, hnext', hhead]
    exact (List.nodup_cons.1 hchain.nodup).1 (List.mem_of_mem_head? hrest)
  · -- last: the bucket would be first and last, with others in between
    obtain ⟨l', hchain, -⟩ := hord
    obtain ⟨rest, rfl⟩ : ∃ rest, l' = b % size :: rest :=
      List.head?_eq_some_iff.1 (hchain.first_eq.symm.trans hfirst')
    have hend := hchain.last_eq
    rw [hlast', hdlast, hlast, Option.getD_some] at hend
    have hrest : rest = [] := by
      by_contra hne
      rw [List.getLast?_cons_of_ne_nil hne] at hend
      exact (List.nodup_cons.1 hchain.nodup).1 (List.mem_of_getLast? hend.symm)
    have hnone : c'.gNext (b % size) = none := by
      rw [(hchain.linked [] _ rest rfl).1, hrest]
      rfl
    rw [hnext', List.head?_eq_none_iff] at hnone
    rw [hnone] at hg
    simp at hg
  · -- a stale `prev`: the list is cut after `p`
    have hpg : p ≠ b % size := fun hpg => hg (hpg ▸ hpl)
    have hcut : c'.gNext p = none := by
      rw [hread.global.next, touch_gNext, Function.update_of_ne hpg, unhook_gNext, hp]
      simp only [Function.update_self]
      exact hb.list.outside _ hg
    obtain ⟨hps, hrefs⟩ := (hb.full p hpg).1 hpl
    have hpend := hord.last_of_next_none hps ((hread.refsOf_ne p).2 (Or.inr hrefs)) hcut
    obtain ⟨q, hq⟩ : ∃ q, l.getLast? = some q :=
      ⟨_, List.getLast?_eq_some_getLast (List.ne_nil_of_mem hpl)⟩
    rw [hlast', hdlast, hq, Option.getD_some] at hpend
    rw [hq, hpend]

/-! ## Runs -/

/-- The invariant of fitting runs. -/
structure OrderInv (st : Reading) (l : List Nat) : Prop where
  cap : CapInv st
  list : GlobalChain st.1 l
  full : ∀ g, g ∈ l ↔ g < size ∧ st.1.refsOf g ≠ []
  recent : l.Pairwise fun x y => (buckets st.2).idxOf x < (buckets st.2).idxOf y

/-- The list is what following `next` reads. -/
theorem OrderInv.globalList_eq {st : Reading} (h : OrderInv st l) : st.1.globalList = l := by
  have hsub : l ⊆ List.range size := by
    intro g hg
    exact List.mem_range.2 ((h.full g).1 hg).1
  have hle := (List.subperm_of_subset h.list.chain.nodup hsub).length_le
  rw [List.length_range] at hle
  exact h.list.chain.walk_eq hle

theorem orderInv_make (ide : Ide) : OrderInv (BufferCache.make ide, []) [] := by
  refine ⟨capInv_make ide, ⟨Chain.nil, fun x _ => rfl⟩, fun g => ?_, List.Pairwise.nil⟩
  rw [(Lists.make ide).refsOf_eq]
  simp

/-- A read that fits here also fits the cache's capacity. -/
theorem OrderInv.evictFits {st : Reading} (h : OrderInv st l) {b : Nat} (hfit : OrderFits st b) :
    EvictFits st b := by
  intro hunc hge o ho
  obtain ⟨l', o', hl, hne, -⟩ := hfit.1 ⟨hunc, hge⟩
  rw [h.globalList_eq] at hl
  subst hl
  obtain rfl : o = o' := by
    rw [h.list.chain.last_eq, List.getLast?_concat] at ho
    exact (Option.some.inj ho).symm
  have hprev : st.1.gPrev o = l'.getLast? := (h.list.chain.linked l' o [] rfl).2
  refine ⟨fun hno => ?_, Or.inl ((h.full o).1 (by simp)).2⟩
  have hnone := (h.cap.seen.prev_none o).2 (Or.inr hno)
  rw [hprev, List.getLast?_eq_none_iff] at hnone
  exact hne hnone

/-- **An eviction that leaves blocks behind** in the bucket it drops from the list spoils it. -/
theorem GlobalChain.not_emptied {d c' : BufferCache} {refs : Nat → List Nat} {h' : List Nat} {b : Nat}
    {l : List Nat} (hb : GlobalChain d l) (hl : l ≠ []) (ho : o ∉ l) (hog : o ≠ b % size)
    (hos : o < size) (hrefs : refs o ≠ []) (hread : ReadTo c refs d b c') : ¬ Ordered c' h' := by
  intro hord
  obtain ⟨q, hq⟩ : ∃ q, l.getLast? = some q := ⟨_, List.getLast?_eq_some_getLast hl⟩
  have hnone : c'.gNext o = none := by
    rw [hread.global.next, touch_gNext, Function.update_of_ne hog, unhook_gNext]
    split
    · exact hb.outside o ho
    · rename_i p hp
      by_cases hop : o = p
      · -- a bucket that comes back through `o` is in no list either
        subst hop
        rw [Function.update_self]
        refine hb.outside _ fun hg => ho (hb.chain.linked.prev_mem hg hp)
      · rw [Function.update_of_ne hop]
        exact hb.outside o ho
  have hend := hord.last_of_next_none hos ((hread.refsOf_ne o).2 (Or.inr hrefs)) hnone
  rw [hread.global.last, touch_last, hb.chain.last_eq, hq, Option.getD_some] at hend
  obtain rfl : q = o := Option.some.inj hend
  exact ho (List.mem_of_getLast? hq)

/-- A call does what it is to do exactly if it fits: then it succeeds and keeps the invariant, and else it
    fails or leaves the list not as specified. -/
def FitsExactly (st : Reading) (b : Nat) (buffer : Buffer) : Prop :=
  (OrderFits st b → ∃ c' buffer' l', st.1.readBlock b buffer = some (c', buffer') ∧
    OrderInv (c', b :: st.2) l') ∧
  (¬ OrderFits st b → ∀ c' buffer' h', st.1.readBlock b buffer = some (c', buffer') → ¬ Ordered c' h')

/-- A call that fits leaves the invariant of the capacity. -/
theorem OrderInv.capInv {st : Reading} (h : OrderInv st l) {b : Nat} {buffer : Buffer} (hfit : OrderFits st b)
    {c' : BufferCache} {buffer' : Buffer} (he : st.1.readBlock b buffer = some (c', buffer')) :
    CapInv (c', b :: st.2) := by
  rcases h.cap.read b buffer with ⟨-, c'', buffer'', he', hnext⟩ | ⟨hnot, -⟩
  · obtain ⟨rfl, -⟩ := Prod.mk.inj (Option.some.inj (he'.symm.trans he))
    exact hnext
  · exact absurd (h.evictFits hfit) hnot

/-- When a call takes the list from `a` to one with the bucket read in front, it fits if that bucket can be
    moved, and only then is the list as specified. -/
theorem OrderInv.settle {st : Reading} (h : OrderInv st l) {d c' : BufferCache} {refs' : Nat → List Nat}
    {a : List Nat} {b : Nat} {buffer buffer' : Buffer}
    (he : st.1.readBlock b buffer = some (c', buffer'))
    (hbefore : Before d refs' (buckets st.2) (b % size) a) (hread : ReadTo st.1 refs' d b c')
    (hfits : OrderFits st b ↔ Moves d a (b % size)) : FitsExactly st b buffer := by
  constructor
  · intro hfit
    obtain ⟨l', h1, h2, h3⟩ := hbefore.moves (hfits.1 hfit) hread
    exact ⟨c', buffer', l', he, h.capInv hfit he, h1, h2, h3⟩
  · intro hnot c'' buffer'' h' he'
    obtain ⟨rfl, -⟩ := Prod.mk.inj (Option.some.inj (he.symm.trans he'))
    exact hbefore.not_moves (fun hm => hnot (hfits.2 hm)) hread

/-- A call that does not evict. -/
theorem OrderInv.readKept {st : Reading} (h : OrderInv st l) {c' : BufferCache} {refs refs' : Nat → List Nat}
    {b : Nat} {buffer buffer' : Buffer} (hfull : ∀ x, x ∈ l ↔ x < size ∧ refs x ≠ []) (hev : ¬ Evicts st.1 b)
    (he : st.1.readBlock b buffer = some (c', buffer')) (hread : ReadTo st.1 refs' st.1 b c')
    (hsame : ∀ x, x ≠ b % size → (refs' x ≠ [] ↔ refs x ≠ [])) : FitsExactly st b buffer := by
  have hbefore : Before st.1 refs' (buckets st.2) (b % size) l :=
    ⟨h.list, fun x hx => by rw [hfull x, hsame x hx], h.recent⟩
  refine h.settle he hbefore hread ?_
  rw [← h.globalList_eq]
  exact ⟨fun hfit => hfit.2 hev, fun hm => ⟨fun hev' => absurd hev' hev, fun _ => hm⟩⟩

/-- When a call that evicts fits: the list ends in the bucket `o` that is popped. -/
theorem OrderInv.fits_evict {st : Reading} {a : List Nat} (h : OrderInv st (a ++ [o])) {b : Nat}
    (hev : Evicts st.1 b) (hane : a ≠ []) :
    OrderFits st b ↔ (b % size = o ∨ (st.1.refsOf o).length = 1) ∧ Moves st.1 a (b % size) := by
  constructor
  · intro hfit
    obtain ⟨a', o', hl, -, hlen, hm⟩ := hfit.1 hev
    rw [h.globalList_eq] at hl
    obtain ⟨rfl, ho'⟩ := List.append_inj' hl rfl
    obtain rfl : o = o' := by simpa using ho'
    exact ⟨hlen, hm⟩
  · rintro ⟨hlen, hm⟩
    exact ⟨fun _ => ⟨a, o, h.globalList_eq, hane, hlen, hm⟩, fun hnev => absurd hev hnev⟩

/-- Popping `o` leaves the list of the others, if `o` is left empty or is the bucket read. -/
theorem OrderInv.before_evict {st : Reading} {a : List Nat} (h : OrderInv st (a ++ [o]))
    {refs : Nat → List Nat} {g : Nat} (hfull : ∀ x, x ∈ a ++ [o] ↔ x < size ∧ refs x ≠ [])
    (hp : a.getLast? = some p) (hlen : g = o ∨ (refs o).length = 1) :
    Before (st.1.popped p) (update refs o (refs o).dropLast) (buckets st.2) g a := by
  have hoa : o ∉ a := (not_mem_sides h.list.chain.nodup).1
  refine ⟨h.list.popped hp, fun x hx => ?_, h.recent.sublist (by simp)⟩
  have hold := hfull x
  rw [List.mem_append, List.mem_singleton] at hold
  by_cases hxo : x = o
  · subst hxo
    have hone := hlen.resolve_left (fun he => hx he.symm)
    have hnil : (refs x).dropLast = [] := by
      rw [← List.length_eq_zero_iff, List.length_dropLast]
      omega
    rw [Function.update_self, hnil]
    simp [hoa]
  · rw [Function.update_of_ne hxo, ← hold]
    simp [hxo]

/-- A call that evicts. -/
theorem OrderInv.readEvicting {st : Reading} (h : OrderInv st l) {c' : BufferCache} {refs : Nat → List Nat}
    {b : Nat} {buffer buffer' : Buffer} (hc : Lists st.1 refs) (hfull : ∀ x, x ∈ l ↔ x < size ∧ refs x ≠ [])
    (hev : Evicts st.1 b) (hcan : CanEvict st.1 o p) (he : st.1.readBlock b buffer = some (c', buffer'))
    (hread : ReadTo st.1 (update refs o (refs o).dropLast) (st.1.popped p) b c') :
    FitsExactly st b buffer := by
  -- the list ends in `o`, with `p` before it
  obtain ⟨a, rfl⟩ : ∃ a, l = a ++ [o] :=
    List.getLast?_eq_some_iff.1 (h.list.chain.last_eq.symm.trans hcan.last)
  have hp : a.getLast? = some p := by
    rw [← (h.list.chain.linked a o [] rfl).2]
    exact hcan.before
  have hane : a ≠ [] := by
    rintro rfl
    simp at hp
  have hfits := h.fits_evict hev hane
  rw [hc.refsOf_eq] at hfits
  by_cases hlen : b % size = o ∨ (refs o).length = 1
  · -- the bucket that leaves the list is empty, or comes back at once
    refine h.settle he (h.before_evict hfull hp hlen) hread ?_
    rw [hfits, and_iff_right hlen]
    have hprev : (st.1.popped p).gPrev = st.1.gPrev := setNext_gPrev _ _ _
    rw [Moves, Moves, hprev]
  · refine ⟨fun hfit => absurd (hfits.1 hfit).1 hlen, fun _ c'' buffer'' h' he' => ?_⟩
    obtain ⟨rfl, -⟩ := Prod.mk.inj (Option.some.inj (he.symm.trans he'))
    rw [not_or] at hlen
    obtain ⟨hos, horefs⟩ := (hfull o).1 (by simp)
    have hoa : o ∉ a := (not_mem_sides h.list.chain.nodup).1
    refine (h.list.popped hp).not_emptied hane hoa (Ne.symm hlen.1) hos ?_ hread
    have hlenpos := List.length_pos_iff.2 horefs
    rw [Function.update_self, ← List.length_pos_iff, List.length_dropLast]
    have hne1 := hlen.2
    omega

/-- A call that has to evict and cannot fails, and does not fit. -/
theorem OrderInv.readStuck {st : Reading} (h : OrderInv st l) {b : Nat} {buffer : Buffer} (hev : Evicts st.1 b)
    (hcan : ∀ o p, ¬ CanEvict st.1 o p) (he : st.1.readBlock b buffer = none) : FitsExactly st b buffer := by
  refine ⟨fun hfit => ?_, fun _ c' buffer' h' he' => by rw [he] at he'; simp at he'⟩
  obtain ⟨a, o, hl, hane, -⟩ := hfit.1 hev
  rw [h.globalList_eq] at hl
  subst hl
  obtain ⟨p, hp⟩ : ∃ p, a.getLast? = some p := ⟨_, List.getLast?_eq_some_getLast hane⟩
  refine absurd ⟨?_, ?_, ?_⟩ (hcan o p)
  · rw [h.list.chain.last_eq, List.getLast?_concat]
  · exact (h.list.chain.linked a o [] rfl).2.trans hp
  · rw [h.list.chain.first_eq]
    simp

/-- **Step.**  From a state with the invariant, a call that fits succeeds and keeps it; a call that does
    not fit fails or leaves the list not as specified. -/
theorem OrderInv.read {st : Reading} (h : OrderInv st l) (b : Nat) (buffer : Buffer) :
    FitsExactly st b buffer := by
  obtain ⟨refs, hc⟩ := h.cap.lists
  have hfull : ∀ x, x ∈ l ↔ x < size ∧ refs x ≠ [] := by
    intro x
    rw [← hc.refsOf_eq]
    exact h.full x
  have hsucc := h.cap.count_succ
  rcases hc.readBlock b buffer with
    ⟨hhit, pre, r, post, c', buffer', hrefs, he, hread, -⟩ | ⟨-, hlt, c', buffer', he, hread, -⟩ |
    ⟨hunc, hge, o, p, c', buffer', hcan, he, hread, -⟩ | ⟨hunc, hge, hcan, he⟩
  · refine h.readKept hfull (fun hev => hhit hev.1) he hread fun x hx => ?_
    rw [Function.update_of_ne hx]
  · rw [hsucc] at hlt
    exact h.readKept hfull (fun hev => Nat.not_le.2 hlt hev.2) he hread fun x _ => Iff.rfl
  · rw [hsucc] at hge
    exact h.readEvicting hc hfull ⟨hunc, hge⟩ hcan he hread
  · rw [hsucc] at hge
    exact h.readStuck ⟨hunc, hge⟩ hcan he

/-- **Run.** -/
theorem orderedReads_inv {ide : Ide} {st : Reading} (h : OrderedReads ide st) : ∃ l, OrderInv st l := by
  refine Runs.Guarded.invariant (I := fun st => ∃ l, OrderInv st l) ?_ ?_ h
  · rintro st rfl
    exact ⟨[], orderInv_make ide⟩
  · rintro st b ⟨c', hist⟩ - ⟨l, hI⟩ hfit ⟨buffer, buffer', he, hhist⟩
    obtain rfl : hist = b :: st.2 := hhist
    obtain ⟨c'', buffer'', l', he', hnext⟩ := (hI.read b buffer).1 hfit
    obtain ⟨rfl, -⟩ := Prod.mk.inj (Option.some.inj (he'.symm.trans he))
    exact ⟨l', hnext⟩

/-- **Recency.**  In every state of a run whose reads all fit, the global list is as specified; and the
    next call returns with it as specified exactly when it fits. -/
theorem readBlock_ordered {ide : Ide} {st : Reading} (h : OrderedReads ide st) :
    Ordered st.1 (buckets st.2) ∧ ∀ b buffer,
      (∃ c' buffer', st.1.readBlock b buffer = some (c', buffer') ∧
        Ordered c' (buckets (b :: st.2))) ↔ OrderFits st b := by
  obtain ⟨l, hI⟩ := orderedReads_inv h
  refine ⟨⟨l, hI.list.chain, hI.full, hI.recent⟩, fun b buffer => ⟨?_, fun hfit => ?_⟩⟩
  · rintro ⟨c', buffer', he, hord⟩
    by_contra hnot
    exact (hI.read b buffer).2 hnot c' buffer' _ he hord
  · obtain ⟨c', buffer', l', he, hnext⟩ := (hI.read b buffer).1 hfit
    exact ⟨c', buffer', he, l', hnext.list.chain, hnext.full, hnext.recent⟩

/-! ## Two runs -/

/-- The first read of a bucket fits, below capacity. -/
theorem OrderInv.fits_new {st : Reading} (h : OrderInv st l) {b : Nat}
    (hnew : b % size ∉ buckets st.2) (hlt : st.1.count + 1 < size) : OrderFits st b := by
  have hnone : st.1.gPrev (b % size) = none := (h.cap.seen.prev_none _).2 (Or.inl hnew)
  refine ⟨fun hev => absurd hev.2 (Nat.not_le.2 hlt), fun _ => ⟨fun hg => ?_, fun _ p hp => ?_⟩⟩
  · -- a bucket of the list with nothing before it is the first one, and was read
    rw [h.globalList_eq] at hg
    obtain ⟨pre, post, rfl⟩ := List.append_of_mem hg
    have hpre : pre = [] := by
      rw [← List.getLast?_eq_none_iff, ← h.list.chain.linked.prev_eq, hnone]
    have hfirst : st.1.globalIndexFirst = some (b % size) := by
      rw [h.list.chain.first_eq, hpre]
      rfl
    rw [h.cap.seen.first] at hfirst
    exact absurd (List.mem_of_mem_head? hfirst) hnew
  · rw [hnone] at hp
    simp at hp

/-- The law after the reads `0` and `1`. -/
theorem readBlock_ordered_two : ∃ st : Reading, st.2 = [1, 0] ∧ Ordered st.1 [1, 0] := by
  have h0 := orderInv_make Ide.bytes
  have hfit0 := h0.fits_new (b := 0) (by simp [buckets]) (by decide)
  obtain ⟨c₁, buffer₁, l₁, he₁, h1⟩ := (h0.read 0 fun _ => 0).1 hfit0
  have hcount : c₁.count ≤ 1 := h1.cap.count_reads
  have hbelow : c₁.count + 1 < size := by
    rw [size_eq]
    omega
  have hfit1 := h1.fits_new (b := 1) (by simp [buckets, size_eq]) hbelow
  obtain ⟨c₂, buffer₂, l₂, he₂, -⟩ := (h1.read 1 fun _ => 0).1 hfit1
  have hrun : OrderedReads Ide.bytes (c₂, [1, 0]) :=
    Runs.Guarded.next (Runs.Guarded.next (Runs.Guarded.start rfl) hfit0 ⟨_, _, he₁, rfl⟩) hfit1
      ⟨_, _, he₂, rfl⟩
  exact ⟨_, rfl, (readBlock_ordered hrun).1⟩

/-- A bucket that follows itself. -/
theorem not_ordered_of_loop {h : List Nat} (hfirst : c.globalIndexFirst = some g)
    (hnext : c.gNext g = some g) : ¬ Ordered c h := by
  rintro ⟨l, hchain, -⟩
  obtain ⟨rest, rfl⟩ : ∃ rest, l = g :: rest :=
    List.head?_eq_some_iff.1 (hchain.first_eq.symm.trans hfirst)
  rw [(hchain.linked [] g rest rfl).1] at hnext
  exact (List.nodup_cons.1 hchain.nodup).1 (List.mem_of_mem_head? hnext)

/-- Reading block `0` twice. -/
theorem readBlock_zero_zero : ∃ c₁ c₂ buffer₁ buffer₂,
    (BufferCache.make Ide.bytes).readBlock 0 (fun _ => 0) = some (c₁, buffer₁) ∧
      c₁.readBlock 0 (fun _ => 0) = some (c₂, buffer₂) ∧ ¬ Ordered c₂ (buckets [0, 0]) := by
  have hend : (((BufferCache.make Ide.bytes).readBlock 0 fun _ => 0).bind fun r =>
      (r.1.readBlock 0 fun _ => 0).map fun r => (r.1.globalIndexFirst, r.1.gNext 0)) =
      some (some 0, some 0) := by
    decide +kernel
  obtain ⟨⟨c₁, buffer₁⟩, he₁, hrest⟩ := Option.bind_eq_some_iff.1 hend
  obtain ⟨⟨c₂, buffer₂⟩, he₂, hlinks⟩ := Option.map_eq_some_iff.1 hrest
  obtain ⟨hfirst, hnext⟩ := Prod.mk.inj hlinks
  exact ⟨c₁, c₂, buffer₁, buffer₂, he₁, he₂, not_ordered_of_loop hfirst hnext⟩

end BadApple
