/-
  A block list and its callers (kernel/buffer_cache.h, `BlockList`).

  1. **Steps** — callers make blocks, add them, extract them, drop the last one from the list, and give up
     their own pointers.  A block lives as long as something points to it: the list, another block, or a
     caller; so one that was dropped from the list stays when a caller has it, and with it its `prev`,
     which only `extract` clears.
  2. **Back links** — `back` reads `prev` as `promote` does: null when the block is gone.
  3. **The result** — the list is the list of the blocks from the one that was added last to the one that was
     added first (`Laws`), in every run in which no block is added whose `prev` leads to a living block
     (`blockList_laws`); a block of the other kind spoils the list at once (`laws_add_iff`).
-/
import Mathlib.Data.List.Induction
import Mathlib.Data.List.Perm.Subperm
import Mathlib.Logic.Function.Iterate
import BadApple.Lib.Links
import BadApple.Lib.Runs
import BadApple.Cache.BlockList

namespace BadApple

open Function (update)
open Chains
open Links (Reads)

/-! ## Back links -/

namespace Blocks

/-- `r->prev.promote()`. -/
def back (h : Blocks) (r : Nat) : Option Nat := (h r).bind fun b => h.promote b.prev

variable {h h' : Blocks} {r x : Nat} {v : Option Nat}

/-- Promotion asks who is alive. -/
theorem promote_congr {h h' : Blocks} (hsame : ∀ z, (h' z).isSome = (h z).isSome) (w : Option Nat) :
    h'.promote w = h.promote w := by
  cases w with
  | none => rfl
  | some z =>
    have hz := hsame z
    unfold promote
    simp only [Option.bind_some]
    cases hh : h z with
    | none =>
      rw [hh] at hz
      have hnone : h' z = none := by simpa using hz
      rw [hnone]
    | some b =>
      rw [hh] at hz
      obtain ⟨b', hb'⟩ := Option.isSome_iff_exists.1 hz
      rw [hb']
      rfl

theorem promote_alive (hx : (h x).isSome) : h.promote (some x) = some x := by
  obtain ⟨b, hb⟩ := Option.isSome_iff_exists.1 hx
  simp [promote, hb]

theorem backLinks_back : BackLinks back where
  setNext h r v x := by
    have hpromote : ∀ w, (h.setNext r v).promote w = h.promote w := promote_congr fun _ => isSome_setNext
    unfold back
    rcases eq_or_ne x r with rfl | hx
    · rw [setNext_self]
      cases h x with
      | none => rfl
      | some b => exact hpromote b.prev
    · rw [setNext_of_ne hx]
      exact congrArg _ (funext fun b => hpromote b.prev)
  setPrev_of_ne h r v x hx := by
    have hpromote : ∀ w, (h.setPrev r v).promote w = h.promote w := promote_congr fun _ => isSome_setPrev
    unfold back
    rw [setPrev_of_ne hx]
    exact congrArg _ (funext fun b => hpromote b.prev)
  setPrev_self h r v hr hv := by
    have hpromote : ∀ w, (h.setPrev r v).promote w = h.promote w := promote_congr fun _ => isSome_setPrev
    obtain ⟨b, hb⟩ := Option.isSome_iff_exists.1 hr
    unfold back
    rw [setPrev_self, hb]
    show (h.setPrev r v).promote v = v
    rw [hpromote]
    cases v with
    | none => rfl
    | some y => exact promote_alive (hv y rfl)

/-- No `prev` names a block that has not been made. -/
def Below (made : Nat) (h : Blocks) : Prop := ∀ r b z, h r = some b → b.prev = some z → z < made

variable {made : Nat}

theorem Below.setNext (hb : Below made h) : Below made (h.setNext r v) := by
  intro x b z hx hz
  rcases eq_or_ne x r with rfl | hne
  · rw [setNext_self, Option.map_eq_some_iff] at hx
    obtain ⟨b', hb', rfl⟩ := hx
    exact hb x b' z hb' hz
  · rw [setNext_of_ne hne] at hx
    exact hb x b z hx hz

theorem Below.setPrev (hb : Below made h) (hv : ∀ z, v = some z → z < made) : Below made (h.setPrev r v) := by
  intro x b z hx hz
  rcases eq_or_ne x r with rfl | hne
  · rw [setPrev_self, Option.map_eq_some_iff] at hx
    obtain ⟨b', _, rfl⟩ := hx
    exact hv z hz
  · rw [setPrev_of_ne hne] at hx
    exact hb x b z hx hz

theorem Below.setNextAt {p : Option Nat} (hb : Below made h) : Below made (h.setNextAt p v) := by
  cases p with
  | none => exact hb
  | some r => exact hb.setNext

theorem Below.setPrevAt {p : Option Nat} (hb : Below made h) (hv : ∀ z, v = some z → z < made) :
    Below made (h.setPrevAt p v) := by
  cases p with
  | none => exact hb
  | some r => exact hb.setPrev hv

end Blocks

namespace BlockList

/-! ## `remove` while a caller has the block -/

/-- The assignments of `remove()`. -/
def unlinkLast (h : Blocks) (l : BlockList) : Option (Blocks × BlockList × Bool) :=
  match l.last with
  | none => some (h, l, false)
  | some r =>
      match h r with
      | none => none
      | some b =>
          match h.promote b.prev with
          | none => some (h, ⟨none, none⟩, true)
          | some p => some (h.setNext p none, ⟨l.first, some p⟩, true)

variable {h h' : Blocks} {l l' : BlockList} {refs : List Nat} {r id fuel made : Nat} {prev curr res : Option Nat}

/-- A list is unaffected by what happens to other blocks, as long as no block comes to life that one of its
    blocks names. -/
theorem HoldsBy.congr_back (hl : HoldsBy Blocks.back h l refs) (hsame : ∀ r ∈ refs, h' r = h r)
    (hdead : ∀ r ∈ refs, ∀ b z, h r = some b → b.prev = some z → h z = none → h' z = none) :
    HoldsBy Blocks.back h' l refs := by
  refine ⟨hl.chain.congr ?_ ?_, fun r hr => ?_⟩
  · intro y hy
    unfold Blocks.nextOf
    rw [hsame y hy]
  · intro y hy
    obtain ⟨b, hb⟩ := Option.isSome_iff_exists.1 (hl.alive y hy)
    have hold : h.back y = h.promote b.prev := by rw [Blocks.back, hb, Option.bind_some]
    rw [hold, Blocks.back, hsame y hy, hb, Option.bind_some]
    cases hp : b.prev with
    | none => rfl
    | some z =>
      cases hz : h z with
      | none =>
        rw [Blocks.promote, Blocks.promote, Option.bind_some, Option.bind_some, hz, hdead y hy b z hb hp hz]
      | some bz =>
        have halive : (h z).isSome := by rw [hz]; rfl
        have hmem : z ∈ refs := by
          refine hl.chain.linked.prev_mem hy ?_
          rw [hold, hp, Blocks.promote_alive halive]
        rw [Blocks.promote_alive halive, Blocks.promote_alive (by rw [hsame z hmem]; exact halive)]
  · rw [hsame r hr]
    exact hl.alive r hr

theorem HoldsBy.unlinkLast_nil (hl : HoldsBy Blocks.back h l []) : l.unlinkLast h = some (h, l, false) := by
  have hlast : l.last = none := hl.chain.last_eq
  unfold BlockList.unlinkLast
  rw [hlast]

/-- **`remove`** takes the last block out of the list and leaves the block as it is. -/
theorem HoldsBy.unlinkLast (hl : HoldsBy Blocks.back h l (refs ++ [r])) :
    ∃ h' l', l.unlinkLast h = some (h', l', true) ∧ HoldsBy Blocks.back h' l' refs ∧ Edits h h' refs ∧
      ∀ made, Blocks.Below made h → Blocks.Below made h' := by
  have hlast : l.last = some r := by
    rw [hl.chain.last_eq, List.getLast?_concat]
  obtain ⟨b, hb⟩ := Option.isSome_iff_exists.1 (hl.alive r (by simp))
  have hprev : h.promote b.prev = refs.getLast? := by
    have hp : h.back r = refs.getLast? := (hl.chain.linked refs r [] rfl).2
    rwa [Blocks.back, hb, Option.bind_some] at hp
  unfold BlockList.unlinkLast
  rw [hlast]
  simp only [hb, hprev]
  cases hp : refs.getLast? with
  | none =>
    obtain rfl : refs = [] := List.getLast?_eq_none_iff.1 hp
    exact ⟨h, ⟨none, none⟩, rfl, ⟨Chain.nil, fun x hx => absurd hx List.not_mem_nil⟩,
      ⟨fun _ _ => rfl, fun _ => rfl⟩, fun _ hbelow => hbelow⟩
  | some p =>
    have hpmem : p ∈ refs := List.mem_of_getLast? hp
    have hpalive : (h p).isSome := hl.alive p (by simp [hpmem])
    refine ⟨h.setNext p none, ⟨l.first, some p⟩, rfl, ⟨?_, fun y hy => ?_⟩, ⟨?_, ?_⟩, fun _ hbelow => hbelow.setNext⟩
    · have hfirst : l.first = (refs ++ []).head? := by
        rw [hl.chain.first_eq, List.append_nil, List.head?_append_of_ne_nil _ (List.ne_nil_of_mem hpmem)]
      have hlast' : some p = (refs ++ []).getLast? := by
        rw [List.append_nil, hp]
      rw [← List.append_nil refs]
      show Chain _ _ l.first (some p) _
      rw [hfirst, hlast']
      refine hl.chain.unlink ?_ (by simp) ?_ ?_
      · intro y hy
        obtain rfl : p = y := Option.some.inj (hp.symm.trans hy)
        rw [Blocks.nextOf_setNext_self hpalive]
        rfl
      · intro y _ hne
        exact Blocks.nextOf_setNext_of_ne fun hyp => hne (hyp ▸ hp)
      · intro y _ _
        exact Blocks.backLinks_back.setNext h p none y
    · rw [Blocks.isSome_setNext]
      exact hl.alive y (by simp [hy])
    · exact fun x hx => Blocks.setNext_of_ne fun heq => hx (heq ▸ hpmem)
    · exact fun x => Blocks.dataOf_setNext

/-- `extract` names no block that has not been made. -/
theorem extractLoop_below (hbelow : Blocks.Below made h) (hmade : ∀ x, (h x).isSome → x < made) :
    ∀ {fuel : Nat} {prev curr : Option Nat}, (∀ z, prev = some z → z < made) →
      extractLoop h l id fuel prev curr = some (h', l', res) → Blocks.Below made h' := by
  intro fuel
  induction fuel with
  | zero =>
    intro prev curr _ he
    cases curr with
    | none =>
      obtain ⟨rfl, _⟩ := Prod.mk.inj (Option.some.inj he)
      exact hbelow
    | some r => cases he
  | succ fuel ih =>
    intro prev curr hprev he
    cases curr with
    | none =>
      obtain ⟨rfl, _⟩ := Prod.mk.inj (Option.some.inj he)
      exact hbelow
    | some r =>
      rw [extractLoop] at he
      cases hr : h r with
      | none =>
        rw [hr] at he
        cases he
      | some b =>
        rw [hr] at he
        simp only at he
        by_cases hid : b.blockId = id
        · rw [if_pos hid] at he
          obtain ⟨rfl, _⟩ := Prod.mk.inj (Option.some.inj he)
          exact ((hbelow.setNextAt.setPrevAt hprev).setNext).setPrev fun z hz => by cases hz
        · rw [if_neg hid] at he
          refine ih ?_ he
          intro z hz
          obtain rfl := Option.some.inj hz
          exact hmade r (by rw [hr]; rfl)

end BlockList

/-! ## Steps -/

namespace Callers

/-- A block list, all blocks, which of them a caller has a strong pointer to, and how many have been made.
    The ghost `recent` has the blocks that were added, the last one first, less those that were taken out
    since. -/
structure Bucket where
  heap : Blocks
  list : BlockList
  held : Nat → Bool
  made : Nat
  recent : List Nat

/-- What callers do; `drop` gives up the last pointer that callers have to a block. -/
inductive Action where
  | make (blockId : Nat) (buffer : Buffer)
  | drop (r : Nat)
  | add (r : Nat)
  | extract (blockId : Nat)
  | remove

/-- Whether there is a strong pointer to a block. -/
def referenced (s : Bucket) (r : Nat) : Bool :=
  s.held r || s.list.first == some r || s.list.last == some r ||
    (List.range s.made).any fun x => s.heap.nextOf x == some r

/-- What nothing points to is destroyed, and gives up its own pointer. -/
def sweep (s : Bucket) : Bucket := { s with heap := fun r => if referenced s r then s.heap r else none }

/-- All that goes when pointers were given up. -/
def release (s : Bucket) : Bucket := Nat.iterate sweep s.made s

/-- Whether a block has this number. -/
def hasId (h : Blocks) (blockId r : Nat) : Bool := ((h r).map Block.blockId) == some blockId

/-- The blocks that were added, less the one with the number that was added last. -/
def without (s : Bucket) (blockId : Nat) : List Nat :=
  match s.recent.find? (hasId s.heap blockId) with
  | none => s.recent
  | some r => s.recent.erase r

/-- `extract(block_id)`, with what it returns; the caller has the block after that. -/
def extract (s : Bucket) (blockId : Nat) : Option (Bucket × Option Nat) :=
  (s.list.extract s.heap blockId s.made).map fun x =>
    ({ s with
        heap := x.1
        list := x.2.1
        held := fun r => s.held r || x.2.2 == some r
        recent := without s blockId }, x.2.2)

/-- `remove()`, with what it returns. -/
def remove (s : Bucket) : Option (Bucket × Bool) :=
  (s.list.unlinkLast s.heap).map fun x =>
    ({ s with heap := x.1, list := x.2.1, recent := s.recent.dropLast }, x.2.2)

/-- `add` is called by a caller that has the block, which is not in the list. -/
def step (s : Bucket) : Action → Option Bucket
  | .make blockId buffer =>
    some { s with
      heap := update s.heap s.made (some { blockId := blockId, buffer := buffer, next := none, prev := none })
      held := update s.held s.made true
      made := s.made + 1 }
  | .drop r => some (release { s with held := update s.held r false })
  | .add r =>
    if s.held r = true ∧ r ∉ walk s.heap.nextOf s.made s.list.first then
      (s.list.add s.heap r).map fun x => release { s with heap := x.1, list := x.2, recent := r :: s.recent }
    else none
  | .extract blockId => (extract s blockId).map fun x => release x.1
  | .remove => (remove s).map fun x => release x.1

/-- An empty list, and no blocks. -/
def Initial (s : Bucket) : Prop :=
  (∀ r, s.heap r = none) ∧ s.list = BlockList.empty ∧ (∀ r, s.held r = false) ∧ s.recent = []

/-- The states of all runs. -/
def Reached : Bucket → Prop := Runs.Reached Initial fun s a t => step s a = some t

/-- A block that is added has no `prev` that leads to a living block. -/
def NoStale (s : Bucket) : Action → Prop
  | .add r => s.heap.back r = none
  | _ => True

instance (s : Bucket) : (a : Action) → Decidable (NoStale s a)
  | .make _ _ => inferInstanceAs (Decidable True)
  | .drop _ => inferInstanceAs (Decidable True)
  | .add r => inferInstanceAs (Decidable (s.heap.back r = none))
  | .extract _ => inferInstanceAs (Decidable True)
  | .remove => inferInstanceAs (Decidable True)

/-- The states of the runs in which no such block is added. -/
def Clean : Bucket → Prop := Runs.Guarded Initial (fun s a t => step s a = some t) NoStale

/-! ## The laws -/

/-- The list is `recent`, read in both directions, and the operations return what this list says. -/
structure Laws (s : Bucket) : Prop where
  nodup : s.recent.Nodup
  forward : Reads s.heap.nextOf s.list.first s.recent
  backward : Reads s.heap.back s.list.last s.recent.reverse
  extract : ∀ blockId, (extract s blockId).map Prod.snd = some (s.recent.find? (hasId s.heap blockId))
  remove : (remove s).map Prod.snd = some (decide (s.recent ≠ []))

/-- The invariant: only blocks of the list have a `next`, and a block lives when it is in the list or a caller
    has it.  `alive` does not hold in the middle of a step. -/
structure Weak (s : Bucket) : Prop where
  holds : BlockList.HoldsBy Blocks.back s.heap s.list s.recent
  made : ∀ r, (s.heap r).isSome → r < s.made
  held : ∀ r, s.held r = true → (s.heap r).isSome
  out : ∀ r b, s.heap r = some b → r ∉ s.recent → b.next = none
  below : Blocks.Below s.made s.heap

structure Inv (s : Bucket) : Prop extends Weak s where
  alive : ∀ r, (s.heap r).isSome → r ∈ s.recent ∨ s.held r = true

variable {s t : Bucket} {r x id : Nat} {a : Action}

/-- **What is pointed to**: the blocks of the list, and those that callers have. -/
theorem Weak.referenced_iff (h : Weak s) : referenced s x = true ↔ x ∈ s.recent ∨ s.held x = true := by
  have hfirst : s.list.first = s.recent.head? := h.holds.chain.first_eq
  have hlast : s.list.last = s.recent.getLast? := h.holds.chain.last_eq
  unfold referenced
  simp only [Bool.or_eq_true, beq_iff_eq, List.any_eq_true, List.mem_range]
  constructor
  · rintro (((hheld | hf) | hl) | ⟨y, _, hy⟩)
    · exact Or.inr hheld
    · exact Or.inl (List.mem_of_mem_head? (hfirst.symm.trans hf))
    · exact Or.inl (List.mem_of_getLast? (hlast.symm.trans hl))
    · left
      by_cases hmem : y ∈ s.recent
      · exact h.holds.chain.linked.next_mem hmem hy
      · -- a block that is not in the list points to nothing
        unfold Blocks.nextOf at hy
        obtain ⟨b, hb, hnext⟩ := Option.bind_eq_some_iff.1 hy
        rw [h.out y b hb hmem] at hnext
        cases hnext
  · rintro (hmem | hheld)
    · obtain ⟨l₁, l₂, heq⟩ := List.append_of_mem hmem
      rcases List.eq_nil_or_concat l₁ with rfl | ⟨l₀, y, rfl⟩
      · left; left; right
        rw [hfirst, heq]
        rfl
      · right
        rw [List.concat_eq_append, List.append_assoc, List.singleton_append] at heq
        have hy : y ∈ s.recent := by simp [heq]
        exact ⟨y, h.made y (h.holds.alive y hy), (heq ▸ h.holds.chain.linked).next_eq⟩
    · left; left; left
      exact hheld

theorem sweep_heap (hx : referenced s x = true) : (sweep s).heap x = s.heap x := if_pos hx

theorem sweep_alive (hx : ((sweep s).heap x).isSome) : referenced s x = true ∧ (sweep s).heap x = s.heap x := by
  by_cases href : referenced s x = true
  · exact ⟨href, sweep_heap href⟩
  · rw [show (sweep s).heap x = none from if_neg href] at hx
    cases hx

/-- **Sweeping** destroys the others, and does not disturb the list. -/
theorem Weak.sweep (h : Weak s) : Inv (sweep s) := by
  have hsome : ∀ r b, (Callers.sweep s).heap r = some b → s.heap r = some b := by
    intro r b hb
    have hr := sweep_alive (s := s) (x := r) (by rw [hb]; rfl)
    exact hr.2.symm.trans hb
  refine ⟨⟨?_, ?_, ?_, ?_, ?_⟩, ?_⟩
  · refine h.holds.congr_back (fun r hr => sweep_heap (h.referenced_iff.2 (Or.inl hr))) ?_
    intro r _ b z _ _ hz
    show (if referenced s z then s.heap z else none) = none
    split
    · exact hz
    · rfl
  · intro r hr
    obtain ⟨b, hb⟩ := Option.isSome_iff_exists.1 hr
    exact h.made r (by rw [hsome r b hb]; rfl)
  · intro r hr
    rw [sweep_heap (h.referenced_iff.2 (Or.inr hr))]
    exact h.held r hr
  · exact fun r b hb hr => h.out r b (hsome r b hb) hr
  · exact fun r b z hb hz => h.below r b z (hsome r b hb) hz
  · intro r hr
    exact h.referenced_iff.1 (sweep_alive hr).1

/-- Nothing goes where all that lives is pointed to. -/
theorem sweep_of_referenced (h : ∀ r, (s.heap r).isSome → referenced s r = true) : Callers.sweep s = s := by
  have hheap : (Callers.sweep s).heap = s.heap := by
    funext r
    show (if referenced s r then s.heap r else none) = s.heap r
    by_cases href : referenced s r = true
    · rw [if_pos href]
    · rw [if_neg href]
      by_contra hne
      exact href (h r (Option.isSome_iff_ne_none.2 fun heq => hne heq.symm))
  exact congrArg (fun heap => ({ s with heap := heap } : Bucket)) hheap

/-- What lives is pointed to, when a step is over. -/
theorem Inv.sweep_eq (h : Inv s) : Callers.sweep s = s :=
  sweep_of_referenced fun r hr => h.toWeak.referenced_iff.2 (h.alive r hr)

/-- **One pass is enough**: what it destroys points to nothing. -/
theorem Weak.release_eq (h : Weak s) : release s = Callers.sweep s := by
  unfold release
  cases hmade : s.made with
  | zero =>
    -- there are no blocks
    have hheap : (Callers.sweep s).heap = s.heap := by
      funext r
      show (if referenced s r then s.heap r else none) = s.heap r
      have hnone : s.heap r = none := by
        by_contra hne
        have := h.made r (Option.isSome_iff_ne_none.2 hne)
        omega
      rw [hnone, ite_self]
    exact (congrArg (fun heap => ({ s with heap := heap } : Bucket)) hheap).symm
  | succ k =>
    rw [Function.iterate_succ_apply]
    exact Function.iterate_fixed h.sweep.sweep_eq k

theorem Weak.release (h : Weak s) : Inv (release s) := by
  rw [h.release_eq]
  exact h.sweep

/-! ## Each step -/

theorem Initial.inv (h : Initial s) : Inv s := by
  obtain ⟨hheap, hlist, hheld, hrecent⟩ := h
  have hdead : ∀ r, ¬ (s.heap r).isSome := by
    intro r hr
    rw [hheap r] at hr
    cases hr
  refine ⟨⟨?_, fun r hr => absurd hr (hdead r), ?_, ?_, ?_⟩, fun r hr => absurd hr (hdead r)⟩
  · rw [hlist, hrecent]
    exact ⟨Chain.nil, fun r hr => absurd hr List.not_mem_nil⟩
  · intro r hr
    rw [hheld r] at hr
    cases hr
  · intro r b hb
    rw [hheap r] at hb
    cases hb
  · intro r b z hb
    rw [hheap r] at hb
    cases hb

/-- A new block names no other, and no other names it. -/
theorem Inv.make {blockId : Nat} {buffer : Buffer} (h : Inv s) (hstep : step s (.make blockId buffer) = some t) :
    Inv t := by
  have ht := Option.some.inj hstep
  have hlist : t.list = s.list := by rw [← ht]
  have hrecent : t.recent = s.recent := by rw [← ht]
  have hmade : t.made = s.made + 1 := by rw [← ht]
  have hself : t.heap s.made = some { blockId := blockId, buffer := buffer, next := none, prev := none } := by
    rw [← ht]
    exact Function.update_self _ _ _
  have hother : ∀ r, r ≠ s.made → t.heap r = s.heap r := by
    intro r hr
    rw [← ht]
    exact Function.update_of_ne hr _ _
  have hheldSelf : t.held s.made = true := by
    rw [← ht]
    exact Function.update_self _ _ _
  have hheldOther : ∀ r, r ≠ s.made → t.held r = s.held r := by
    intro r hr
    rw [← ht]
    exact Function.update_of_ne hr _ _
  have hin : ∀ r ∈ s.recent, r ≠ s.made := fun r hr => Nat.ne_of_lt (h.made r (h.holds.alive r hr))
  refine ⟨⟨?_, ?_, ?_, ?_, ?_⟩, ?_⟩
  · rw [hlist, hrecent]
    refine h.holds.congr_back (fun r hr => hother r (hin r hr)) fun r _ b z hb hz hdead => ?_
    rw [hother z (Nat.ne_of_lt (h.below r b z hb hz))]
    exact hdead
  · intro r hr
    rw [hmade]
    rcases eq_or_ne r s.made with rfl | hne
    · exact Nat.lt_succ_self _
    · rw [hother r hne] at hr
      exact Nat.lt_succ_of_lt (h.made r hr)
  · intro r hr
    rcases eq_or_ne r s.made with rfl | hne
    · rw [hself]
      rfl
    · rw [hheldOther r hne] at hr
      rw [hother r hne]
      exact h.held r hr
  · intro r b hb hr
    rcases eq_or_ne r s.made with rfl | hne
    · rw [hself] at hb
      obtain rfl := Option.some.inj hb
      rfl
    · rw [hother r hne] at hb
      exact h.out r b hb (hrecent ▸ hr)
  · intro r b z hb hz
    rw [hmade]
    rcases eq_or_ne r s.made with rfl | hne
    · rw [hself] at hb
      obtain rfl := Option.some.inj hb
      cases hz
    · rw [hother r hne] at hb
      exact Nat.lt_succ_of_lt (h.below r b z hb hz)
  · intro r hr
    rw [hrecent]
    rcases eq_or_ne r s.made with rfl | hne
    · exact Or.inr hheldSelf
    · rw [hother r hne] at hr
      rw [hheldOther r hne]
      exact h.alive r hr

/-- A caller that gives up a block. -/
theorem Inv.drop (h : Inv s) (hstep : step s (.drop r) = some t) : Inv t := by
  obtain rfl := Option.some.inj hstep
  refine Weak.release ⟨h.holds, h.made, ?_, h.out, h.below⟩
  intro x hx
  change update s.held r false x = true at hx
  rcases eq_or_ne x r with rfl | hne
  · rw [Function.update_self] at hx
    cases hx
  · rw [Function.update_of_ne hne] at hx
    exact h.held x hx

/-- What an edit of the list leaves as it was. -/
theorem Weak.edited {heap : Blocks} {list : BlockList} {recent refs : List Nat} {held : Nat → Bool} (h : Weak s)
    (hedits : BlockList.Edits s.heap heap refs) (hholds : BlockList.HoldsBy Blocks.back heap list recent)
    (hout : ∀ x b, heap x = some b → x ∉ recent → b.next = none)
    (hheld : ∀ x, held x = true → (s.heap x).isSome) (hbelow : Blocks.Below s.made heap) :
    Weak { s with heap := heap, list := list, held := held, recent := recent } := by
  have hsome : ∀ x, (heap x).isSome = (s.heap x).isSome := by
    intro x
    have hdata := hedits.data x
    unfold Blocks.dataOf at hdata
    rw [← Option.isSome_map (f := Block.data), hdata, Option.isSome_map]
  exact ⟨hholds, fun x hx => h.made x (hsome x ▸ hx), fun x hx => (hsome x).symm ▸ hheld x hx, hout, hbelow⟩

/-- The number of blocks bounds the length of the list. -/
theorem Weak.length_le (h : Weak s) : s.recent.length ≤ s.made := by
  have hsub : s.recent ⊆ List.range s.made := fun r hr => List.mem_range.2 (h.made r (h.holds.alive r hr))
  have hle := (List.subperm_of_subset h.holds.chain.nodup hsub).length_le
  rwa [List.length_range] at hle

theorem Weak.walk_eq (h : Weak s) : walk s.heap.nextOf s.made s.list.first = s.recent :=
  h.holds.chain.walk_eq h.length_le

/-- **`add`** of a block whose `prev` leads nowhere. -/
theorem Inv.add (h : Inv s) (hok : s.heap.back r = none) (hstep : step s (.add r) = some t) : Inv t := by
  rw [step] at hstep
  by_cases hpre : s.held r = true ∧ r ∉ walk s.heap.nextOf s.made s.list.first
  · rw [if_pos hpre] at hstep
    obtain ⟨hheld, hnot⟩ := hpre
    rw [h.toWeak.walk_eq] at hnot
    obtain ⟨b, hb⟩ := Option.isSome_iff_exists.1 (h.held r hheld)
    obtain ⟨heap, list, hadd, hholds, hedits⟩ := h.holds.add Blocks.backLinks_back hnot hb hok
    have hadd' := h.holds.add_eq hb
    rw [hadd] at hstep
    obtain rfl := Option.some.inj hstep
    refine Weak.release (h.toWeak.edited hedits hholds ?_ h.held ?_)
    · intro x b hx hmem
      have hsame := hedits.outside x hmem
      exact h.out x b (hsame.symm.trans hx) fun hin => hmem (List.mem_cons_of_mem r hin)
    · obtain ⟨rfl, _⟩ := Prod.mk.inj (Option.some.inj (hadd.symm.trans hadd'))
      refine h.below.setNext.setPrevAt fun z hz => ?_
      obtain rfl := Option.some.inj hz
      exact h.made r (h.held r hheld)
  · rw [if_neg hpre] at hstep
    cases hstep

theorem hasId_iff {h : Blocks} {blockId : Nat} {b : Block} (hb : h r = some b) :
    hasId h blockId r = true ↔ b.blockId = blockId := by
  rw [hasId, hb, beq_iff_eq, Option.map_some, Option.some_inj]

/-- **`extract`** returns the first block with the number, and takes it out. -/
theorem Weak.extract (h : Weak s) (blockId : Nat) :
    ∃ s', Callers.extract s blockId = some (s', s.recent.find? (hasId s.heap blockId)) ∧ Weak s' := by
  unfold Callers.extract
  rcases h.holds.extract Blocks.backLinks_back blockId h.length_le with
    ⟨hnone, he⟩ | ⟨heap, list, l₁, r, l₂, b, hrefs, hbefore, hb, hid, he, hholds, hr, hedits⟩
  · have hfind : s.recent.find? (hasId s.heap blockId) = none := by
      refine List.find?_eq_none.2 fun x hx => ?_
      obtain ⟨b, hb⟩ := Option.isSome_iff_exists.1 (h.holds.alive x hx)
      rw [hasId_iff hb]
      exact hnone x hx b hb
    have hrecent : without s blockId = s.recent := by rw [without, hfind]
    rw [he, hfind, Option.map_some, hrecent]
    have hedits : BlockList.Edits s.heap s.heap [] := ⟨fun _ _ => rfl, fun _ => rfl⟩
    refine ⟨_, rfl, h.edited hedits h.holds h.out ?_ h.below⟩
    intro x hx
    rw [Bool.or_eq_true] at hx
    rcases hx with hx | hx
    · exact h.held x hx
    · cases hx
  · have hnot := (not_mem_sides (hrefs ▸ h.holds.chain.nodup)).1
    have hfind : s.recent.find? (hasId s.heap blockId) = some r := by
      refine List.find?_eq_some_iff_append.2 ⟨(hasId_iff hb).2 hid, l₁, l₂, hrefs, fun x hx => ?_⟩
      obtain ⟨b', hb'⟩ := Option.isSome_iff_exists.1 (h.holds.alive x (by simp [hrefs, hx]))
      rw [Bool.not_eq_true', ← Bool.not_eq_true, hasId_iff hb']
      exact hbefore x hx b' hb'
    have hrecent : without s blockId = l₁ ++ l₂ := by
      rw [without, hfind, hrefs]
      show (l₁ ++ r :: l₂).erase r = l₁ ++ l₂
      rw [List.erase_append_right _ hnot, List.erase_cons_head]
    have hbelow := BlockList.extractLoop_below h.below h.made (fun z hz => by cases hz) he
    rw [he, hfind, Option.map_some, hrecent]
    refine ⟨_, rfl, h.edited hedits hholds ?_ ?_ hbelow⟩
    · intro x b' hx hmem
      change heap x = some b' at hx
      rcases eq_or_ne x r with rfl | hne
      · rw [hr] at hx
        obtain rfl := Option.some.inj hx
        rfl
      · have hout : x ∉ s.recent := by
          rw [hrefs]
          simp only [List.mem_append, List.mem_cons] at hmem ⊢
          tauto
        exact h.out x b' ((hedits.outside x hout).symm.trans hx) hout
    · intro x hx
      rw [Bool.or_eq_true, beq_iff_eq] at hx
      rcases hx with hx | hx
      · exact h.held x hx
      · obtain rfl := Option.some.inj hx
        rw [hb]
        rfl

/-- **`remove`** drops the last block, if there is one. -/
theorem Weak.remove (h : Weak s) :
    ∃ s', Callers.remove s = some (s', decide (s.recent ≠ [])) ∧ Weak s' := by
  unfold Callers.remove
  rcases List.eq_nil_or_concat s.recent with hnil | ⟨refs, r, hconcat⟩
  · have hholds := h.holds
    rw [hnil] at hholds
    rw [hholds.unlinkLast_nil, hnil]
    refine ⟨_, rfl, ?_⟩
    have hsame : ({ s with recent := ([] : List Nat).dropLast } : Bucket) = s := by
      show ({ s with recent := [] } : Bucket) = s
      rw [← hnil]
    exact hsame ▸ h
  · rw [List.concat_eq_append] at hconcat
    obtain ⟨heap, list, he, hholds, hedits, hbelow⟩ := (hconcat ▸ h.holds).unlinkLast
    have hdrop : s.recent.dropLast = refs := by rw [hconcat, List.dropLast_concat]
    have hyes : decide (s.recent ≠ []) = true := by simp [hconcat]
    rw [he, hyes, Option.map_some, hdrop]
    refine ⟨_, rfl, h.edited hedits hholds ?_ h.held (hbelow s.made h.below)⟩
    intro x b hx hmem
    have hold : s.heap x = some b := (hedits.outside x hmem).symm.trans hx
    by_cases hin : x ∈ s.recent
    · -- the last block has no `next`
      have hxr : x = r := by
        rw [hconcat] at hin
        simpa [hmem] using hin
      have hnext : s.heap.nextOf x = none := by
        rw [hxr]
        exact (h.holds.chain.linked refs r [] hconcat).1
      rwa [Blocks.nextOf, hold, Option.bind_some] at hnext
    · exact h.out x b hold hin

/-- **Every step** that adds no stale block keeps the invariant. -/
theorem Inv.step (h : Inv s) (hok : NoStale s a) (hstep : step s a = some t) : Inv t := by
  cases a with
  | make blockId buffer => exact h.make hstep
  | drop r => exact h.drop hstep
  | add r => exact h.add hok hstep
  | extract blockId =>
    obtain ⟨s', he, hweak⟩ := h.toWeak.extract blockId
    rw [Callers.step, he] at hstep
    obtain rfl := Option.some.inj hstep
    exact hweak.release
  | remove =>
    obtain ⟨s', he, hweak⟩ := h.toWeak.remove
    rw [Callers.step, he] at hstep
    obtain rfl := Option.some.inj hstep
    exact hweak.release

theorem Clean.inv (h : Clean s) : Inv s :=
  Runs.Guarded.invariant (fun _ hi => hi.inv) (fun _ _ _ _ hinv hok hstep => hinv.step hok hstep) h

/-! ## The result -/

/-- What a chain reads from one of its nodes on. -/
theorem reads_next {next prev : Nat → Option Nat} {l : List Nat} (h : Linked next prev l) :
    ∀ {l₂ : List Nat} (l₁ : List Nat), l = l₁ ++ l₂ → Reads next l₂.head? l₂ := by
  intro l₂
  induction l₂ with
  | nil =>
    intro l₁ _
    rfl
  | cons y l₂ ih =>
    intro l₁ heq
    refine ⟨rfl, ?_⟩
    rw [(h l₁ y l₂ heq).1]
    exact ih (l₁ ++ [y]) (by simp [heq])

/-- What it reads backwards. -/
theorem reads_prev {next prev : Nat → Option Nat} {l : List Nat} (h : Linked next prev l) :
    ∀ {l₁ : List Nat} (l₂ : List Nat), l = l₁ ++ l₂ → Reads prev l₁.getLast? l₁.reverse := by
  intro l₁
  induction l₁ using List.reverseRecOn with
  | nil =>
    intro l₂ _
    rfl
  | append_singleton l₁ y ih =>
    intro l₂ heq
    rw [List.getLast?_concat, List.reverse_concat]
    refine ⟨rfl, ?_⟩
    rw [(h l₁ y l₂ (by simp [heq])).2]
    exact ih (y :: l₂) (by simp [heq])

theorem Inv.laws (h : Inv s) : Laws s := by
  have hnext := reads_next h.holds.chain.linked [] rfl
  have hprev := reads_prev h.holds.chain.linked [] (List.append_nil _).symm
  rw [← h.holds.chain.first_eq] at hnext
  rw [← h.holds.chain.last_eq] at hprev
  refine ⟨h.holds.chain.nodup, hnext, hprev, fun blockId => ?_, ?_⟩
  · obtain ⟨s', he, _⟩ := h.toWeak.extract blockId
    rw [he]
    rfl
  · obtain ⟨s', he, _⟩ := h.toWeak.remove
    rw [he]
    rfl

/-- What the list reads is pointed to. -/
theorem referenced_of_reads : ∀ {l : List Nat} {first : Option Nat}, Reads s.heap.nextOf first l →
    (∀ x ∈ l, x < s.made) → (∀ x, first = some x → referenced s x = true) → ∀ x ∈ l, referenced s x = true := by
  intro l
  induction l with
  | nil =>
    intro first _ _ _ x hx
    cases hx
  | cons y l ih =>
    intro first hreads hmade hfirst x hx
    rcases List.mem_cons.1 hx with rfl | hx
    · exact hfirst x hreads.1
    · refine ih hreads.2 (fun z hz => hmade z (List.mem_cons_of_mem y hz)) (fun z hz => ?_) x hx
      unfold referenced
      simp only [Bool.or_eq_true, beq_iff_eq, List.any_eq_true, List.mem_range]
      exact Or.inr ⟨y, hmade y List.mem_cons_self, hz⟩

/-- **A stale block spoils the list**: after `add`, the laws hold just if the block had no `prev` that leads to
    a living one. -/
theorem laws_add_iff (h : Inv s) (hstep : step s (.add r) = some t) : Laws t ↔ s.heap.back r = none := by
  constructor
  · intro hlaws
    rw [step] at hstep
    by_cases hpre : s.held r = true ∧ r ∉ walk s.heap.nextOf s.made s.list.first
    · rw [if_pos hpre] at hstep
      obtain ⟨hheld, hnot⟩ := hpre
      rw [h.toWeak.walk_eq] at hnot
      obtain ⟨b, hb⟩ := Option.isSome_iff_exists.1 (h.held r hheld)
      have hne : ∀ y ∈ s.recent, y ≠ r := fun y hy heq => hnot (heq ▸ hy)
      have hfirst : s.list.first ≠ some r :=
        fun hf => hnot (List.mem_of_mem_head? (h.holds.chain.first_eq.symm.trans hf))
      rw [h.holds.add_eq hb, Option.map_some] at hstep
      -- all that lived is pointed to after the assignments, so nothing goes
      have hforward : Reads ((s.heap.setNext r s.list.first).setPrevAt s.list.first (some r)).nextOf (some r)
          (r :: s.recent) := by
        refine ⟨rfl, ?_⟩
        rw [Blocks.nextOf_setPrevAt, Blocks.nextOf_setNext_self (h.held r hheld)]
        refine h.laws.forward.congr fun y hy => ?_
        rw [Blocks.nextOf_setPrevAt, Blocks.nextOf_setNext_of_ne (hne y hy)]
      have hsweep : Callers.sweep
          { s with
            heap := (s.heap.setNext r s.list.first).setPrevAt s.list.first (some r)
            list := ⟨some r, some (s.list.last.getD r)⟩
            recent := r :: s.recent } =
          { s with
            heap := (s.heap.setNext r s.list.first).setPrevAt s.list.first (some r)
            list := ⟨some r, some (s.list.last.getD r)⟩
            recent := r :: s.recent } := by
        refine sweep_of_referenced fun x hx => ?_
        rw [Blocks.isSome_setPrevAt, Blocks.isSome_setNext] at hx
        rcases h.alive x hx with hmem | hheld'
        · refine referenced_of_reads hforward ?_ ?_ x (List.mem_cons_of_mem r hmem)
          · intro y hy
            rcases List.mem_cons.1 hy with rfl | hy
            · exact h.made y (h.held y hheld)
            · exact h.made y (h.holds.alive y hy)
          · intro y hy
            simp [referenced, hy]
        · simp [referenced, hheld']
      have hrelease := Function.iterate_fixed hsweep s.made
      obtain rfl := (Option.some.inj hstep).symm.trans hrelease
      have hback := hlaws.backward
      rw [List.reverse_cons] at hback
      have hlast := hback.next_last
      rwa [Blocks.backLinks_back.setPrevAt_of_ne hfirst, Blocks.backLinks_back.setNext] at hlast
    · rw [if_neg hpre] at hstep
      cases hstep
  · intro hok
    exact (h.add hok hstep).laws

/-- **The laws hold** in all runs in which no stale block is added. -/
theorem blockList_laws (h : Clean s) : Laws s := h.inv.laws

/-- At the start. -/
def start : Bucket where
  heap := fun _ => none
  list := BlockList.empty
  held := fun _ => false
  made := 0
  recent := []

theorem start_initial : Initial start := ⟨fun _ => rfl, rfl, fun _ => rfl, rfl⟩

/-- Block 0 is dropped while a caller has it and block 1 stays alive, and is added again: its `prev` is block 1,
    and `remove` leaves a list that is `0` from its first block and `1` from its last one. -/
def staleRun : Option Bucket :=
  [.make 5 fun _ => 0, .make 6 fun _ => 0, .add 0, .add 1, .remove, .extract 6, .add 0, .remove].foldlM step start

/-- A block is added again that was dropped from the list. -/
theorem stale_not_laws : ∃ s, Reached s ∧ ¬ Laws s := by
  have hrun : staleRun.map (fun s => decide (s.list.first = some 0 ∧ s.list.last = some 1 ∧ s.recent = [])) =
      some true := by decide +kernel
  obtain ⟨s, hs, hfacts⟩ := Option.map_eq_some_iff.1 hrun
  obtain ⟨hfirst, _, hrecent⟩ := of_decide_eq_true hfacts
  refine ⟨s, Runs.Reached.foldlM (Runs.Reached.start start_initial) hs, fun hlaws => ?_⟩
  have hnone : s.list.first = none := by
    have hforward := hlaws.forward
    rw [hrecent] at hforward
    exact hforward
  rw [hfirst] at hnone
  cases hnone

/-- Three blocks, of which the middle one is extracted, and the first one dropped and added again when its
    neighbour is gone. -/
def cleanRun : Option Bucket :=
  [.make 5 fun _ => 0, .make 6 fun _ => 0, .make 5 fun _ => 1, .add 0, .add 1, .add 2, .extract 6, .remove,
    .extract 5, .drop 2, .add 0].foldlM (fun s a => if decide (NoStale s a) then step s a else none) start

/-- What the laws say there. -/
theorem blockList_laws_clean : ∃ s, cleanRun = some s ∧ (s.recent = [0] ∧ (s.heap 2).isNone) ∧ Laws s := by
  have hrun : cleanRun.map (fun s => decide (s.recent = [0] ∧ (s.heap 2).isNone)) = some true := by decide +kernel
  obtain ⟨s, hs, hfacts⟩ := Option.map_eq_some_iff.1 hrun
  have hstart : Runs.Guarded Initial (fun s a t => step s a = some t) (fun s a => decide (NoStale s a) = true) start :=
    Runs.Guarded.start start_initial
  have hguarded := hstart.foldlM hs
  exact ⟨s, hs, of_decide_eq_true hfacts, blockList_laws (hguarded.mono fun _ _ => of_decide_eq_true)⟩

end Callers

end BadApple
