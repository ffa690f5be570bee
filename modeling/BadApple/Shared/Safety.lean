/-
  Control blocks are not used after they are deleted, as long as no weak handle goes too early.

  1. **Specification** — `Safe`: no activation on any thread's stack still has to use a deleted control
     block.
  2. **The defect** — `drop_strong` decides under the lock whether it will delete the block, and uses the
     block afterwards in either case.  If a weak handle was left at the lock, it is `drop_weak` that
     deletes the block, and nothing makes it wait: the destructor `drop_strong` runs may itself drop that
     last weak handle, and then `ptr->obj = nullptr` writes to a deleted block.
  3. **The condition** — `deletesAfter`: when `drop_weak` deletes a block, its object is gone.
  4. **Invariant** — counting, block by block (`BlockOk`): the two counts are the numbers of handles in all
     places; exactly one activation is on its way from the lock to `ptr->obj = nullptr` when the last
     strong handle has gone and the object has not; at most one activation will delete the block.
  5. **The result** — `shared_safe`: runs whose steps meet the condition are safe, and a step from such a
     state is safe exactly when it meets it.
-/
import Mathlib.Data.List.Perm.Basic
import BadApple.Shared.Model
import BadApple.Lib.Runs
import BadApple.Lib.Sums

namespace BadApple

open Function (update)
open Sums

namespace Shared

/-! ## Specification and condition -/

/-- No pending activation uses a deleted block. -/
def Safe (n : Nat) (s : Heap) : Prop :=
  ∀ t, t < n → ∀ f ∈ s.pending t, (s.blocks f.block).deleted = false

/-- The condition on a step: a block that `drop_weak` deletes has no object any more. -/
def deletesAfter (s : Heap) : Action → Bool
  | .advance t =>
    match s.pending t with
    | .freeWeak i :: _ => !(s.blocks i).obj
    | _ => true
  | _ => true

/-- The states of runs of `n` threads whose steps meet the condition. -/
def SharedRuns (n : Nat) : Heap → Prop :=
  Runs.Guarded (fun s => s = Heap.empty) (fun s a s' => s.step n a = some s')
    fun s a => deletesAfter s a = true

/-! ## Counting -/

/-- Activations between the lock of `drop_strong` and `ptr->obj = nullptr`. -/
def Frame.dying (i : Nat) : Frame → Bool
  | .destroy j _ | .clear j _ => j == i
  | _ => false

/-- Activations that will delete block `i`. -/
def Frame.frees (i : Nat) : Frame → Bool
  | .destroy j d | .clear j d => j == i && d
  | .freeStrong j | .freeWeak j => j == i
  | _ => false

/-- Activations of `drop_strong` that have only `delete ptr` left to do. -/
def Frame.last (i : Nat) : Frame → Bool
  | .freeStrong j => j == i
  | _ => false

/-- A pending drop of the handle `h`. -/
def Frame.drops (h : Handle) (f : Frame) : Bool := f == .drop h

/-- The pending activations of `n` threads that satisfy `p`. -/
def frames (n : Nat) (s : Heap) (p : Frame → Bool) : Nat := countIn p s.pending n

/-- The handles equal to `h`: roots, members, and those about to be dropped. -/
def handles (n : Nat) (s : Heap) (h : Handle) : Nat :=
  s.roots h + countIn (fun x => x == h) s.members s.next + frames n s (Frame.drops h)

/-- What the counts of a control block `b` have to do with what is pending: `strong` and `weak` handles,
    `dying`, `frees` and `last` activations. -/
structure BlockOk (b : Intermediate) (strong weak dying frees last : Nat) : Prop where
  strong_eq : b.strongCount = strong
  weak_eq : b.weakCount = weak
  held : 0 < strong → b.obj = true
  dying_eq : dying = if b.obj = true ∧ strong = 0 then 1 else 0
  single : frees ≤ 1
  frees_last : 0 < frees → strong = 0 ∧ weak = 0
  late : 0 < last → b.obj = false
  dead : b.deleted = true → b.obj = false ∧ strong = 0 ∧ weak = 0 ∧ frees = 0

/-- The invariant. -/
structure SharedInv (n : Nat) (s : Heap) : Prop where
  new : ∀ i, s.next ≤ i → s.blocks i = .none ∧ s.members i = [] ∧ frames n s (Frame.frees i) = 0
  block : ∀ i, BlockOk (s.blocks i) (handles n s (.strong i)) (handles n s (.weak i))
    (frames n s (Frame.dying i)) (frames n s (Frame.frees i)) (frames n s (Frame.last i))

variable {n t i : Nat} {s s' : Heap} {f : Frame} {rest fs : List Frame} {h : Handle}

theorem frames_empty (p : Frame → Bool) : frames n Heap.empty p = 0 := by
  unfold frames
  by_contra hne
  obtain ⟨u, -, x, hx, -⟩ := exists_of_countIn_pos (Nat.pos_of_ne_zero hne)
  simp [Heap.empty] at hx

theorem handles_empty (h : Handle) : handles n Heap.empty h = 0 := by
  unfold handles
  rw [frames_empty]
  rfl

theorem sharedInv_empty (n : Nat) : SharedInv n Heap.empty := by
  refine ⟨fun i _ => ⟨rfl, rfl, frames_empty _⟩, fun i => ?_⟩
  simp only [handles_empty, frames_empty]
  refine ⟨rfl, rfl, ?_, rfl, by omega, ?_, ?_, ?_⟩
  all_goals simp [Heap.empty, Intermediate.none]

/-- **Safety from the invariant**: every kind of activation keeps its block. -/
theorem SharedInv.safe (hI : SharedInv n s) : Safe n s := by
  intro t ht f hf
  cases hd : (s.blocks f.block).deleted with
  | false => rfl
  | true =>
    obtain ⟨hobj, hstrong, hweak, hfrees⟩ := (hI.block f.block).dead hd
    have hdying := (hI.block f.block).dying_eq
    rw [hobj] at hdying
    have hnone : ∀ p, p f = true → frames n s p ≠ 0 := by
      intro p hp
      exact Nat.ne_of_gt (countIn_pos_of_mem ht hf hp)
    cases f with
    | drop h =>
      cases h with
      | strong i =>
        have := hnone (Frame.drops (.strong i)) (by simp [Frame.drops])
        simp only [handles, Frame.block, Handle.block] at hstrong
        omega
      | weak i =>
        have := hnone (Frame.drops (.weak i)) (by simp [Frame.drops])
        simp only [handles, Frame.block, Handle.block] at hweak
        omega
    | destroy i d => exact absurd hdying (hnone _ (by simp [Frame.dying, Frame.block]))
    | clear i d => exact absurd hdying (hnone _ (by simp [Frame.dying, Frame.block]))
    | freeStrong i => exact absurd hfrees (hnone _ (by simp [Frame.frees, Frame.block]))
    | freeWeak i => exact absurd hfrees (hnone _ (by simp [Frame.frees, Frame.block]))

/-! ## Counts after a change -/

@[simp] theorem frames_setBlock (i : Nat) (b : Intermediate) (p : Frame → Bool) :
    frames n (s.setBlock i b) p = frames n s p := rfl

@[simp] theorem handles_setBlock (i : Nat) (b : Intermediate) (h : Handle) :
    handles n (s.setBlock i b) h = handles n s h := rfl

@[simp] theorem frames_addRoot (h : Handle) (p : Frame → Bool) :
    frames n (s.addRoot h) p = frames n s p := rfl

theorem handles_addRoot_self (h : Handle) : handles n (s.addRoot h) h = handles n s h + 1 := by
  have hroot : (s.addRoot h).roots h = s.roots h + 1 := Function.update_self _ _ _
  unfold handles
  rw [hroot]
  show s.roots h + 1 + countIn (fun x => x == h) s.members s.next + frames n s (Frame.drops h) = _
  omega

theorem handles_addRoot_of_ne {h h' : Handle} (hne : h' ≠ h) :
    handles n (s.addRoot h) h' = handles n s h' := by
  have hroot : (s.addRoot h).roots h' = s.roots h' := Function.update_of_ne hne _ _
  unfold handles
  rw [hroot]
  rfl

/-- A root less is a handle less. -/
theorem handles_subRoot_self (h : Handle) (hpos : 0 < s.roots h) :
    handles n (s.subRoot h) h + 1 = handles n s h := by
  have hroot : (s.subRoot h).roots h = s.roots h - 1 := Function.update_self _ _ _
  unfold handles
  rw [hroot]
  show s.roots h - 1 + countIn (fun x => x == h) s.members s.next + frames n s (Frame.drops h) + 1 = _
  omega

theorem handles_subRoot_of_ne {h h' : Handle} (hne : h' ≠ h) :
    handles n (s.subRoot h) h' = handles n s h' := by
  have hroot : (s.subRoot h).roots h' = s.roots h' := Function.update_of_ne hne _ _
  unfold handles
  rw [hroot]
  rfl

/-- Replacing a stack. -/
theorem frames_setStack (ht : t < n) (fs : List Frame) (p : Frame → Bool) :
    frames n (s.setStack t fs) p + (s.pending t).countP p = frames n s p + fs.countP p :=
  countIn_update p s.pending fs ht

theorem handles_setStack (ht : t < n) (fs : List Frame) (h : Handle) :
    handles n (s.setStack t fs) h + (s.pending t).countP (Frame.drops h) =
      handles n s h + fs.countP (Frame.drops h) := by
  have hframes := frames_setStack (s := s) ht fs (Frame.drops h)
  unfold handles
  show s.roots h + countIn (fun x => x == h) s.members s.next +
    frames n (s.setStack t fs) (Frame.drops h) + _ = _
  omega

/-- Replacing the members of an object. -/
theorem handles_members (hi : i < s.next) (l : List Handle) (h : Handle) :
    handles n { s with members := update s.members i l } h + (s.members i).countP (fun x => x == h) =
      handles n s h + l.countP (fun x => x == h) := by
  have hcount := countIn_update (fun x => x == h) s.members l hi
  unfold handles
  show s.roots h + countIn (fun x => x == h) (update s.members i l) s.next +
    frames n s (Frame.drops h) + _ = _
  omega

/-! ## What holds of blocks in use -/

/-- A handle anywhere is a handle to an existing block, which is counted. -/
theorem SharedInv.count_pos (hI : SharedInv n s) {h : Handle} (hpos : 0 < handles n s h) :
    h.block < s.next := by
  by_contra hge
  obtain ⟨hnone, -, -⟩ := hI.new h.block (Nat.le_of_not_lt hge)
  have hok := hI.block h.block
  rw [hnone] at hok
  cases h with
  | strong i =>
    have hzero := hok.strong_eq
    simp only [Handle.block, Intermediate.none] at hzero
    omega
  | weak i =>
    have hzero := hok.weak_eq
    simp only [Handle.block, Intermediate.none] at hzero
    omega

/-- A reachable handle is counted. -/
theorem handles_pos {h : Handle} (hr : s.reaches h = true) :
    0 < handles n s h := by
  unfold Heap.reaches at hr
  unfold handles
  rcases Bool.or_eq_true_iff.1 hr with hroot | hmem
  · have := of_decide_eq_true hroot
    omega
  · obtain ⟨j, hj, hjh⟩ := List.any_eq_true.1 hmem
    have hin : h ∈ s.members j := by
      simp only [Bool.and_eq_true, List.contains_iff_mem] at hjh
      exact hjh.2
    have := countIn_pos_of_mem (p := fun x => x == h) (List.mem_range.1 hj) hin (by simp)
    omega

/-- A pending activation is about an existing block. -/
theorem SharedInv.block_lt (hI : SharedInv n s) (ht : t < n) {f : Frame} (hf : f ∈ s.pending t) :
    f.block < s.next := by
  by_contra hge
  obtain ⟨hnone, -, hfrees⟩ := hI.new f.block (Nat.le_of_not_lt hge)
  have hdying := (hI.block f.block).dying_eq
  rw [hnone] at hdying
  have hpos : ∀ p, p f = true → frames n s p ≠ 0 := by
    intro p hp
    exact Nat.ne_of_gt (countIn_pos_of_mem ht hf hp)
  cases f with
  | drop h =>
    have hdrop := hpos (Frame.drops h) (by simp [Frame.drops])
    exact hge (hI.count_pos (h := h) (by unfold handles; omega))
  | destroy i d => exact absurd hdying (hpos _ (by simp [Frame.dying, Frame.block]))
  | clear i d => exact absurd hdying (hpos _ (by simp [Frame.dying, Frame.block]))
  | freeStrong i => exact absurd hfrees (hpos _ (by simp [Frame.frees, Frame.block]))
  | freeWeak i => exact absurd hfrees (hpos _ (by simp [Frame.frees, Frame.block]))

/-! ## Steps that move handles -/

/-- Nothing counted changes. -/
theorem SharedInv.same (hI : SharedInv n s) (hb : s'.blocks = s.blocks) (hn : s'.next = s.next)
    (hm : ∀ i, s.next ≤ i → s'.members i = []) (hh : ∀ h, handles n s' h = handles n s h)
    (hd : ∀ i, frames n s' (Frame.dying i) = frames n s (Frame.dying i))
    (hf : ∀ i, frames n s' (Frame.frees i) = frames n s (Frame.frees i))
    (hl : ∀ i, frames n s' (Frame.last i) = frames n s (Frame.last i)) : SharedInv n s' := by
  refine ⟨fun i hi => ?_, fun i => ?_⟩
  · rw [hn] at hi
    obtain ⟨h1, -, h3⟩ := hI.new i hi
    exact ⟨by rw [hb, h1], hm i hi, by rw [hf, h3]⟩
  · rw [hb, hh, hh, hd, hf, hl]
    exact hI.block i

/-- Starting a drop: a handle moves from where it was, `s₀` being without it, to the stack. -/
theorem SharedInv.startDrop (hI : SharedInv n s) {s₀ : Heap} {h : Handle} (ht : t < n)
    (hb : s₀.blocks = s.blocks) (hn : s₀.next = s.next) (hst : s₀.pending = s.pending)
    (hm : ∀ i, s.next ≤ i → s₀.members i = []) (hself : handles n s₀ h + 1 = handles n s h)
    (hother : ∀ h', h' ≠ h → handles n s₀ h' = handles n s h') :
    SharedInv n (s₀.setStack t (.drop h :: s.pending t)) := by
  have hframes : ∀ p : Frame → Bool, p (.drop h) = false →
      frames n (s₀.setStack t (.drop h :: s.pending t)) p = frames n s p := by
    intro p hp
    have hset := frames_setStack (s := s₀) ht (.drop h :: s.pending t) p
    rw [List.countP_cons_of_neg (by simp [hp]), hst] at hset
    have hsame : frames n s₀ p = frames n s p := by
      unfold frames
      rw [hst]
    omega
  refine hI.same hb hn hm (fun h' => ?_) (fun i => hframes _ rfl) (fun i => hframes _ rfl)
    fun i => hframes _ rfl
  have hset := handles_setStack (s := s₀) ht (.drop h :: s.pending t) h'
  rw [hst] at hset
  by_cases hh : h' = h
  · subst hh
    rw [List.countP_cons_of_pos (by simp [Frame.drops])] at hset
    omega
  · have hno : Frame.drops h' (.drop h) = false := by
      simp [Frame.drops, Ne.symm hh]
    rw [List.countP_cons_of_neg (by simp [hno])] at hset
    have := hother h' hh
    omega

/-! ## Steps of an activation -/

/-- A predicate that looks at block `i` only. -/
def About (i : Nat) (p : Frame → Bool) : Prop := ∀ f, p f = true → f.block = i

theorem about_dying (i : Nat) : About i (Frame.dying i) := by
  intro f hf
  cases f <;> simp_all [Frame.dying, Frame.block]

theorem about_frees (i : Nat) : About i (Frame.frees i) := by
  intro f hf
  cases f <;> simp_all [Frame.frees, Frame.block]

theorem about_last (i : Nat) : About i (Frame.last i) := by
  intro f hf
  cases f <;> simp_all [Frame.last, Frame.block]

theorem about_drops (h : Handle) : About h.block (Frame.drops h) := by
  intro f hf
  obtain rfl : f = .drop h := by simpa [Frame.drops] using hf
  rfl

/-- Replacing the top activation by `pre`. -/
theorem frames_next (ht : t < n) (hst : s.pending t = f :: rest) (pre : List Frame) (i : Nat)
    (b' : Intermediate) (p : Frame → Bool) :
    frames n ((s.setBlock i b').setStack t (pre ++ rest)) p + (if p f then 1 else 0) =
      frames n s p + pre.countP p := by
  have hset := frames_setStack (s := s.setBlock i b') ht (pre ++ rest) p
  have hold : ((s.setBlock i b').pending t).countP p = rest.countP p + if p f then 1 else 0 := by
    show (s.pending t).countP p = _
    rw [hst, List.countP_cons]
  rw [hold, List.countP_append, frames_setBlock] at hset
  omega

theorem handles_next (ht : t < n) (hst : s.pending t = f :: rest) (pre : List Frame) (i : Nat)
    (b' : Intermediate) (h : Handle) :
    handles n ((s.setBlock i b').setStack t (pre ++ rest)) h + (if Frame.drops h f then 1 else 0) =
      handles n s h + pre.countP (Frame.drops h) := by
  have hset := handles_setStack (s := s.setBlock i b') ht (pre ++ rest) h
  have hold : ((s.setBlock i b').pending t).countP (Frame.drops h) =
      rest.countP (Frame.drops h) + if Frame.drops h f then 1 else 0 := by
    show (s.pending t).countP (Frame.drops h) = _
    rw [hst, List.countP_cons]
  rw [hold, List.countP_append, handles_setBlock] at hset
  omega

/-- **The top activation goes on**, all of it about block `i`: only block `i` has to be looked at. -/
theorem SharedInv.goOn (hI : SharedInv n s) (ht : t < n) (hst : s.pending t = f :: rest)
    {pre : List Frame} (hf : f.block = i) (hpre : ∀ g ∈ pre, g.block = i) {b' : Intermediate}
    (hok : ∀ strong weak dying frees last,
      strong + (if Frame.drops (.strong i) f then 1 else 0) =
        handles n s (.strong i) + pre.countP (Frame.drops (.strong i)) →
      weak + (if Frame.drops (.weak i) f then 1 else 0) =
        handles n s (.weak i) + pre.countP (Frame.drops (.weak i)) →
      dying + (if Frame.dying i f then 1 else 0) =
        frames n s (Frame.dying i) + pre.countP (Frame.dying i) →
      frees + (if Frame.frees i f then 1 else 0) =
        frames n s (Frame.frees i) + pre.countP (Frame.frees i) →
      last + (if Frame.last i f then 1 else 0) =
        frames n s (Frame.last i) + pre.countP (Frame.last i) →
      BlockOk b' strong weak dying frees last) :
    SharedInv n ((s.setBlock i b').setStack t (pre ++ rest)) := by
  have hlt : i < s.next := hf ▸ hI.block_lt ht (by rw [hst]; simp)
  -- what is about another block counts as before
  have hother : ∀ j, j ≠ i → ∀ p, About j p →
      (p f = false ∧ pre.countP p = 0) := by
    intro j hj p hp
    constructor
    · by_contra htrue
      exact hj ((hp f (by simpa using htrue)).symm.trans hf)
    · rw [List.countP_eq_zero]
      intro g hg htrue
      exact hj ((hp g htrue).symm.trans (hpre g hg))
  have hframes : ∀ j, j ≠ i → ∀ p, About j p →
      frames n ((s.setBlock i b').setStack t (pre ++ rest)) p = frames n s p := by
    intro j hj p hp
    obtain ⟨h1, h2⟩ := hother j hj p hp
    have hnext := frames_next (s := s) ht hst pre i b' p
    rw [h1, h2] at hnext
    simpa using hnext
  have hhandles : ∀ h : Handle, h.block ≠ i →
      handles n ((s.setBlock i b').setStack t (pre ++ rest)) h = handles n s h := by
    intro h hj
    obtain ⟨h1, h2⟩ := hother h.block hj _ (about_drops h)
    have hnext := handles_next (s := s) ht hst pre i b' h
    rw [h1, h2] at hnext
    simpa using hnext
  refine ⟨fun j hj => ?_, fun j => ?_⟩
  · have hji : j ≠ i := by
      have hge : s.next ≤ j := hj
      omega
    obtain ⟨h1, h2, h3⟩ := hI.new j hj
    refine ⟨?_, h2, by rw [hframes j hji _ (about_frees j), h3]⟩
    show update s.blocks i b' j = _
    rw [Function.update_of_ne hji, h1]
  · by_cases hj : j = i
    · subst hj
      show BlockOk (update s.blocks j b' j) _ _ _ _ _
      rw [Function.update_self]
      exact hok _ _ _ _ _ (handles_next ht hst pre j b' _) (handles_next ht hst pre j b' _)
        (frames_next ht hst pre j b' _) (frames_next ht hst pre j b' _)
        (frames_next ht hst pre j b' _)
    · show BlockOk (update s.blocks i b' j) _ _ _ _ _
      rw [Function.update_of_ne hj, hhandles (.strong j) hj, hhandles (.weak j) hj,
        hframes j hj _ (about_dying j), hframes j hj _ (about_frees j), hframes j hj _ (about_last j)]
      exact hI.block j

/-- The locked section of `drop_strong`. -/
theorem SharedInv.dropStrong (hI : SharedInv n s) (ht : t < n)
    (hst : s.pending t = .drop (.strong i) :: rest) (hs : s.dropStrong t i rest = some s') :
    SharedInv n s' := by
  obtain ⟨hstrong, hweak, hheld, hdying, hsingle, hfl, hlate, hdead⟩ := hI.block i
  unfold Heap.dropStrong at hs
  simp only at hs
  split at hs
  · rename_i hpos
    obtain ⟨hpos, hobj⟩ := hpos
    obtain rfl := Option.some.inj hs
    -- with a strong handle left nothing is pending on the block
    have hzero : frames n s (Frame.dying i) = 0 := by
      rw [hdying, if_neg]
      omega
    have hnofrees : frames n s (Frame.frees i) = 0 := by
      by_contra hne
      have := (hfl (Nat.pos_of_ne_zero hne)).1
      omega
    have hnolast : frames n s (Frame.last i) = 0 := by
      by_contra hne
      rw [hlate (Nat.pos_of_ne_zero hne)] at hobj
      simp at hobj
    have halive : (s.blocks i).deleted = false := by
      cases hd : (s.blocks i).deleted with
      | false => rfl
      | true =>
        rw [(hdead hd).1] at hobj
        simp at hobj
    by_cases hone : (s.blocks i).strongCount - 1 = 0
    · -- the last strong handle: the object is destroyed
      rw [if_pos hone]
      show SharedInv n ((s.setBlock i _).setStack t
        ([.destroy i (decide ((s.blocks i).weakCount = 0))] ++ rest))
      refine hI.goOn (i := i) ht hst rfl (by simp [Frame.block]) ?_
      intro strong weak dying frees last h1 h2 h3 h4 h5
      simp [Frame.drops] at h1
      simp [Frame.drops] at h2
      simp [Frame.dying, hzero] at h3
      simp [Frame.frees, hnofrees, List.countP_cons] at h4
      simp [Frame.last, hnolast] at h5
      have hs0 : strong = 0 := by omega
      refine ⟨by simp only; omega, by simp only; omega, by omega, by simp [hobj, hs0, h3], ?_, ?_, ?_, ?_⟩
      · split at h4 <;> omega
      · intro hf
        split at h4 <;> omega
      · omega
      · simp [halive]
    · rw [if_neg hone]
      show SharedInv n ((s.setBlock i _).setStack t ([] ++ rest))
      refine hI.goOn (i := i) ht hst rfl (by simp) ?_
      intro strong weak dying frees last h1 h2 h3 h4 h5
      simp [Frame.drops] at h1
      simp [Frame.drops] at h2
      simp [Frame.dying, hzero] at h3
      simp [Frame.frees, hnofrees] at h4
      simp [Frame.last, hnolast] at h5
      have hs0 : strong ≠ 0 := by omega
      exact ⟨by simp only; omega, by simp only; omega, fun _ => hobj, by simp [hs0, h3], by omega,
        by omega, by omega, by simp [halive]⟩
  · simp at hs

/-- The locked section of `drop_weak`. -/
theorem SharedInv.dropWeak (hI : SharedInv n s) (ht : t < n)
    (hst : s.pending t = .drop (.weak i) :: rest) (hs : s.dropWeak t i rest = some s') :
    SharedInv n s' := by
  obtain ⟨hstrong, hweak, hheld, hdying, hsingle, hfl, hlate, hdead⟩ := hI.block i
  unfold Heap.dropWeak at hs
  simp only at hs
  split at hs
  · rename_i hpos
    obtain rfl := Option.some.inj hs
    -- with a weak handle left nobody is about to delete the block
    have hnofrees : frames n s (Frame.frees i) = 0 := by
      by_contra hne
      have := (hfl (Nat.pos_of_ne_zero hne)).2
      omega
    have halive : (s.blocks i).deleted = false := by
      cases hd : (s.blocks i).deleted with
      | false => rfl
      | true =>
        have := (hdead hd).2.2.1
        omega
    by_cases hlast : (s.blocks i).weakCount - 1 = 0 ∧ (s.blocks i).strongCount = 0
    · rw [if_pos hlast]
      show SharedInv n ((s.setBlock i _).setStack t ([.freeWeak i] ++ rest))
      refine hI.goOn (i := i) ht hst rfl (by simp [Frame.block]) ?_
      intro strong weak dying frees last h1 h2 h3 h4 h5
      simp [Frame.drops] at h1
      simp [Frame.drops] at h2
      simp [Frame.dying] at h3
      simp [Frame.frees, hnofrees] at h4
      simp [Frame.last] at h5
      refine ⟨by simp only; omega, by simp only; omega, by omega, ?_, by omega, by omega, ?_, by simp [halive]⟩
      · rw [h3, hdying, h1]
      · rw [h5]
        exact hlate
    · rw [if_neg hlast]
      show SharedInv n ((s.setBlock i _).setStack t ([] ++ rest))
      refine hI.goOn (i := i) ht hst rfl (by simp) ?_
      intro strong weak dying frees last h1 h2 h3 h4 h5
      simp [Frame.drops] at h1
      simp [Frame.drops] at h2
      simp [Frame.dying] at h3
      simp [Frame.frees, hnofrees] at h4
      simp [Frame.last] at h5
      refine ⟨by simp only; omega, by simp only; omega, ?_, ?_, by omega, by omega, ?_, by simp [halive]⟩
      · rw [h1]
        exact hheld
      · rw [h3, hdying, h1]
      · rw [h5]
        exact hlate
  · simp at hs

/-- `ptr->obj = nullptr`. -/
theorem SharedInv.clear (hI : SharedInv n s) (ht : t < n) {d : Bool}
    (hst : s.pending t = .clear i d :: rest) : SharedInv n (s.clear t i d rest) := by
  obtain ⟨hstrong, hweak, hheld, hdying, hsingle, hfl, hlate, hdead⟩ := hI.block i
  have hmem : Frame.clear i d ∈ s.pending t := by
    rw [hst]
    simp
  have hpos : 0 < frames n s (Frame.dying i) :=
    countIn_pos_of_mem ht hmem (by simp [Frame.dying])
  -- the activation that clears the pointer is the only one between lock and clearing
  have hcond : (s.blocks i).obj = true ∧ handles n s (.strong i) = 0 := by
    by_contra hno
    rw [hdying, if_neg hno] at hpos
    omega
  rw [if_pos hcond] at hdying
  have hnolast : frames n s (Frame.last i) = 0 := by
    by_contra hne
    have := hlate (Nat.pos_of_ne_zero hne)
    rw [hcond.1] at this
    simp at this
  have halive : (s.blocks i).deleted = false := by
    cases hd : (s.blocks i).deleted with
    | false => rfl
    | true =>
      have := (hdead hd).1
      rw [hcond.1] at this
      simp at this
  unfold Heap.clear
  cases d with
  | true =>
    show SharedInv n ((s.setBlock i _).setStack t ([.freeStrong i] ++ rest))
    refine hI.goOn (i := i) ht hst rfl (by simp [Frame.block]) ?_
    intro strong weak dying frees last h1 h2 h3 h4 h5
    simp [Frame.drops] at h1
    simp [Frame.drops] at h2
    simp [Frame.dying, hdying] at h3
    simp [Frame.frees] at h4
    exact ⟨by simp only; omega, by simp only; omega, by omega, by simp [h3], by omega,
      fun hf => by rw [h1, h2]; exact hfl (by omega), fun _ => rfl, by simp [halive]⟩
  | false =>
    show SharedInv n ((s.setBlock i _).setStack t ([] ++ rest))
    refine hI.goOn (i := i) ht hst rfl (by simp) ?_
    intro strong weak dying frees last h1 h2 h3 h4 h5
    simp [Frame.drops] at h1
    simp [Frame.drops] at h2
    simp [Frame.dying, hdying] at h3
    simp [Frame.frees] at h4
    exact ⟨by simp only; omega, by simp only; omega, by omega, by simp [h3], by omega,
      fun hf => by rw [h1, h2]; exact hfl (by omega), fun _ => rfl, by simp [halive]⟩

/-- `delete ptr`, once the object is gone. -/
theorem SharedInv.free (hI : SharedInv n s) (ht : t < n) (hst : s.pending t = f :: rest)
    (hf : f.block = i) (hfrees : Frame.frees i f = true)
    (hdrops : ∀ h, Frame.drops h f = false) (hobj : (s.blocks i).obj = false) :
    SharedInv n (s.free t i rest) := by
  obtain ⟨hstrong, hweak, hheld, hdying, hsingle, hfl, hlate, hdead⟩ := hI.block i
  have hpos : 0 < frames n s (Frame.frees i) := countIn_pos_of_mem ht (by rw [hst]; simp) hfrees
  obtain ⟨hs0, hw0⟩ := hfl hpos
  rw [hobj] at hdying
  show SharedInv n ((s.setBlock i _).setStack t ([] ++ rest))
  refine hI.goOn (i := i) ht hst hf (by simp) ?_
  intro strong weak dying frees last h1 h2 h3 h4 h5
  simp only [hdrops, List.countP_nil] at h1 h2
  rw [hfrees] at h4
  simp at h1 h2 h4
  have hd0 : dying = 0 := by
    simp at hdying h3
    omega
  exact ⟨by simp only; omega, by simp only; omega, by omega, by simp [hobj, hd0], by omega, by omega,
    fun _ => hobj, fun _ => ⟨hobj, by omega, by omega, by omega⟩⟩

/-- `delete ptr->obj`: the members of the object become pending drops. -/
theorem SharedInv.destroy (hI : SharedInv n s) (ht : t < n) {d : Bool}
    (hst : s.pending t = .destroy i d :: rest) (hs : s.destroy t i d rest = some s') :
    SharedInv n s' := by
  have hmem : Frame.destroy i d ∈ s.pending t := by
    rw [hst]
    simp
  have hi : i < s.next := hI.block_lt ht hmem
  unfold Heap.destroy at hs
  split at hs
  · obtain rfl := Option.some.inj hs
    have hframes : ∀ p : Frame → Bool, (∀ h, p (.drop h) = false) → p (.destroy i d) = p (.clear i d) →
        frames n ({ s with members := update s.members i [] }.setStack t
          ((s.members i).map Frame.drop ++ Frame.clear i d :: rest)) p = frames n s p := by
      intro p hdrop hsame
      have hset := frames_setStack (s := { s with members := update s.members i [] }) ht
        ((s.members i).map Frame.drop ++ Frame.clear i d :: rest) p
      have hzero : ((s.members i).map Frame.drop).countP p = 0 := by
        rw [List.countP_eq_zero]
        intro g hg
        obtain ⟨h, -, rfl⟩ := List.mem_map.1 hg
        simp [hdrop h]
      have hold : frames n { s with members := update s.members i [] } p = frames n s p := rfl
      rw [show ({ s with members := update s.members i [] } : Heap).pending t = s.pending t from rfl, hst,
        List.countP_cons, List.countP_append, List.countP_cons, hzero, hsame, hold] at hset
      omega
    refine hI.same rfl rfl (fun j hj => ?_) (fun h => ?_) (fun j => hframes _ (fun _ => rfl) rfl)
      (fun j => hframes _ (fun _ => rfl) rfl) (fun j => hframes _ (fun _ => rfl) rfl)
    · show update s.members i [] j = []
      rw [Function.update_of_ne (by omega), (hI.new j hj).2.1]
    · have hset := handles_setStack (s := { s with members := update s.members i [] }) ht
        ((s.members i).map Frame.drop ++ Frame.clear i d :: rest) h
      have hmembers := handles_members (n := n) hi [] h
      have hcount : ((s.members i).map Frame.drop).countP (Frame.drops h) =
          (s.members i).countP (fun x => x == h) := by
        rw [List.countP_map]
        refine List.countP_congr fun x _ => ?_
        simp [Frame.drops]
      rw [show ({ s with members := update s.members i [] } : Heap).pending t = s.pending t from rfl, hst,
        List.countP_cons, List.countP_append, List.countP_cons, hcount,
        show Frame.drops h (.destroy i d) = false from rfl,
        show Frame.drops h (.clear i d) = false from rfl] at hset
      simp only [List.countP_nil] at hmembers
      simp only [Bool.false_eq_true, if_false] at hset
      omega
  · simp at hs

/-! ## Steps that make handles -/

/-- One more strong handle to a block that is held. -/
theorem BlockOk.moreStrong {b : Intermediate} {strong weak dying frees last : Nat}
    (hb : BlockOk b strong weak dying frees last) (hpos : 0 < strong) :
    BlockOk { b with strongCount := b.strongCount + 1 } (strong + 1) weak dying frees last := by
  obtain ⟨hstrong, hweak, hheld, hdying, hsingle, hfl, hlate, hdead⟩ := hb
  refine ⟨by simp only; omega, hweak, fun _ => hheld hpos, ?_, hsingle, fun hf => ?_, hlate, fun hd => ?_⟩
  · rw [hdying, if_neg (by omega), if_neg (by omega)]
  · have := (hfl hf).1
    omega
  · have := (hdead hd).2.1
    omega

/-- One more weak handle to a block that has a handle. -/
theorem BlockOk.moreWeak {b : Intermediate} {strong weak dying frees last : Nat}
    (hb : BlockOk b strong weak dying frees last) (hpos : 0 < strong ∨ 0 < weak) :
    BlockOk { b with weakCount := b.weakCount + 1 } strong (weak + 1) dying frees last := by
  obtain ⟨hstrong, hweak, hheld, hdying, hsingle, hfl, hlate, hdead⟩ := hb
  refine ⟨hstrong, by simp only; omega, hheld, hdying, hsingle, fun hf => ?_, hlate, fun hd => ?_⟩
  · have := hfl hf
    omega
  · have := hdead hd
    omega

/-- A new root `h`, when the block it names, with its counts updated, is in order. -/
theorem SharedInv.newRoot (hI : SharedInv n s) {h : Handle} {b' : Intermediate} (hi : h.block < s.next)
    (hok : BlockOk b' (handles n (s.addRoot h) (.strong h.block)) (handles n (s.addRoot h) (.weak h.block))
      (frames n s (Frame.dying h.block)) (frames n s (Frame.frees h.block))
      (frames n s (Frame.last h.block))) :
    SharedInv n ((s.setBlock h.block b').addRoot h) := by
  refine ⟨fun j hj => ?_, fun j => ?_⟩
  · have hne : j ≠ h.block := by
      have hge : s.next ≤ j := hj
      omega
    obtain ⟨h1, h2, h3⟩ := hI.new j hj
    refine ⟨?_, h2, h3⟩
    show update s.blocks h.block b' j = _
    rw [Function.update_of_ne hne, h1]
  · show BlockOk (update s.blocks h.block b' j) _ _ _ _ _
    by_cases hj : j = h.block
    · rw [hj, Function.update_self]
      exact hok
    · have hsame : ∀ h' : Handle, h'.block = j →
          handles n ((s.setBlock h.block b').addRoot h) h' = handles n s h' := by
        intro h' hh'
        rw [handles_addRoot_of_ne, handles_setBlock]
        intro heq
        exact hj (by rw [← hh', heq])
      rw [Function.update_of_ne hj, hsame _ rfl, hsame _ rfl]
      exact hI.block j

/-- `add_strong` on a held block, and the root it makes. -/
theorem SharedInv.moreStrong (hI : SharedInv n s) (hpos : 0 < handles n s (.strong i)) :
    SharedInv n ((s.setBlock i { s.blocks i with strongCount := (s.blocks i).strongCount + 1 }).addRoot
      (.strong i)) := by
  refine hI.newRoot (h := .strong i) (hI.count_pos hpos) ?_
  show BlockOk _ (handles n (s.addRoot (.strong i)) (.strong i))
    (handles n (s.addRoot (.strong i)) (.weak i)) _ _ _
  rw [handles_addRoot_self, handles_addRoot_of_ne (by simp)]
  exact (hI.block i).moreStrong hpos

/-- `add_weak`, and the root it makes. -/
theorem SharedInv.addWeak (hI : SharedInv n s) {s₁ : Heap} (hs : s.addWeak i = some s₁) :
    SharedInv n (s₁.addRoot (.weak i)) := by
  have hblock := hI.block i
  unfold Heap.addWeak at hs
  simp only at hs
  split at hs
  · rename_i hpos
    obtain rfl := Option.some.inj hs
    rw [hblock.weak_eq, hblock.strong_eq] at hpos
    have hlt : i < s.next := by
      rcases hpos with hpos | hpos
      · exact hI.count_pos hpos
      · exact hI.count_pos hpos
    refine hI.newRoot (h := .weak i) hlt ?_
    show BlockOk _ (handles n (s.addRoot (.weak i)) (.strong i))
      (handles n (s.addRoot (.weak i)) (.weak i)) _ _ _
    rw [handles_addRoot_self, handles_addRoot_of_ne (by simp)]
    exact hblock.moreWeak (by omega)
  · simp at hs

/-- `promote_weak`. -/
theorem SharedInv.promote (hI : SharedInv n s) (hs : s.promote i = some s') : SharedInv n s' := by
  unfold Heap.promote at hs
  simp only at hs
  split at hs
  · split at hs
    · rename_i hpos
      obtain rfl := Option.some.inj hs
      rw [(hI.block i).strong_eq] at hpos
      exact hI.moreStrong hpos
    · obtain rfl := Option.some.inj hs
      exact hI
  · simp at hs

/-- Copying a strong handle that can be reached. -/
theorem SharedInv.copyStrong (hI : SharedInv n s) (hr : s.reaches (.strong i) = true) :
    SharedInv n ((s.addStrong i).addRoot (.strong i)) := by
  have hpos : 0 < handles n s (.strong i) := handles_pos hr
  unfold Heap.addStrong
  simp only
  rw [if_pos ((hI.block i).held hpos)]
  exact hI.moreStrong hpos

/-- A new object. -/
theorem SharedInv.make (hI : SharedInv n s) : SharedInv n s.make := by
  obtain ⟨hnone, hmem, hfrees⟩ := hI.new s.next (Nat.le_refl _)
  have hnew := hI.block s.next
  rw [hnone] at hnew
  have hlast : frames n s (Frame.last s.next) = 0 := by
    by_contra hne
    obtain ⟨u, hu, f, hf, hp⟩ := exists_of_countIn_pos (Nat.pos_of_ne_zero hne)
    have : 0 < frames n s (Frame.frees s.next) := by
      refine countIn_pos_of_mem hu hf ?_
      cases f <;> simp_all [Frame.last, Frame.frees]
    omega
  have hsame : ∀ h, h ≠ .strong s.next → handles n s.make h = handles n s h := by
    intro h hh
    unfold Heap.make
    rw [handles_addRoot_of_ne hh]
    unfold handles
    show s.roots h + countIn (fun x => x == h) s.members (s.next + 1) + frames n s (Frame.drops h) = _
    rw [countIn, sumTo, ← countIn, hmem]
    rfl
  have hself : handles n s.make (.strong s.next) = 1 := by
    unfold Heap.make
    rw [handles_addRoot_self]
    have hzero := hnew.strong_eq
    unfold handles at hzero ⊢
    show s.roots _ + countIn (fun x => x == .strong s.next) s.members (s.next + 1) +
      frames n s (Frame.drops (.strong s.next)) + 1 = 1
    rw [countIn, sumTo, ← countIn, hmem]
    simp only [Intermediate.none] at hzero
    simp only [List.countP_nil]
    omega
  refine ⟨fun j hj => ?_, fun j => ?_⟩
  · have hgt : s.next + 1 ≤ j := hj
    obtain ⟨h1, h2, h3⟩ := hI.new j (by omega)
    refine ⟨?_, h2, h3⟩
    show update s.blocks s.next .make j = _
    rw [Function.update_of_ne (by omega), h1]
  · show BlockOk (update s.blocks s.next .make j) _ _ (frames n s _) (frames n s _) (frames n s _)
    by_cases hj : j = s.next
    · subst hj
      rw [Function.update_self, hself, hsame _ (by simp), hfrees, hlast, hnew.dying_eq,
        ← hnew.weak_eq]
      refine ⟨rfl, rfl, fun _ => rfl, ?_, by omega, by omega, by omega, ?_⟩
      · simp [Intermediate.none]
      · simp [Intermediate.make]
    · rw [Function.update_of_ne hj, hsame _ (by simp [hj]), hsame _ (by simp)]
      exact hI.block j

/-! ## Steps that store and drop handles -/

/-- An object that is held exists. -/
theorem SharedInv.held_lt (hI : SharedInv n s) (hpos : 0 < (s.blocks i).strongCount) : i < s.next := by
  rw [(hI.block i).strong_eq] at hpos
  exact hI.count_pos hpos

/-- Members of objects that do not exist yet. -/
theorem SharedInv.members_new (hI : SharedInv n s) {j : Nat} (hj : j < s.next) (l : List Handle) :
    ∀ i, s.next ≤ i → update s.members j l i = [] := by
  intro i hi
  rw [Function.update_of_ne (by omega), (hI.new i hi).2.1]

/-- Storing a root as a member. -/
theorem SharedInv.store (hI : SharedInv n s) {h : Handle} {j k : Nat} (hroot : 0 < s.roots h)
    (hj : j < s.next) :
    SharedInv n { s.subRoot h with
      members := update s.members j ((s.members j).take k ++ h :: (s.members j).drop k) } := by
  refine hI.same rfl rfl (hI.members_new hj _) (fun h' => ?_) (fun _ => rfl) (fun _ => rfl)
    fun _ => rfl
  have hmembers := handles_members (n := n) (s := s.subRoot h) (i := j) hj
    ((s.members j).take k ++ h :: (s.members j).drop k) h'
  have hsplit : (s.members j).countP (fun x => x == h') =
      ((s.members j).take k).countP (fun x => x == h') +
        ((s.members j).drop k).countP (fun x => x == h') := by
    rw [← List.countP_append, List.take_append_drop]
  rw [show (s.subRoot h).members = s.members from rfl, List.countP_append, List.countP_cons,
    hsplit] at hmembers
  dsimp only at hmembers ⊢
  by_cases hh : h' = h
  · subst hh
    have hsub := handles_subRoot_self (n := n) h' hroot
    simp only [beq_self_eq_true, if_true] at hmembers
    omega
  · have hsub := handles_subRoot_of_ne (n := n) (s := s) hh
    rw [if_neg (by simp [Ne.symm hh])] at hmembers
    omega

/-- Starting to drop a root. -/
theorem SharedInv.dropRoot (hI : SharedInv n s) {h : Handle} (ht : t < n) (hroot : 0 < s.roots h) :
    SharedInv n ((s.subRoot h).setStack t (.drop h :: s.pending t)) := by
  refine hI.startDrop ht rfl rfl rfl ?_ ?_ ?_
  · exact fun i hi => (hI.new i hi).2.1
  · exact handles_subRoot_self h hroot
  · exact fun h' hh => handles_subRoot_of_ne hh

/-- Starting to drop a member. -/
theorem SharedInv.dropMember (hI : SharedInv n s) {h : Handle} {j k : Nat} (ht : t < n)
    (hj : j < s.next) (hk : (s.members j)[k]? = some h) :
    SharedInv n ({ s with members := update s.members j ((s.members j).eraseIdx k) }.setStack t
      (.drop h :: s.pending t)) := by
  have hperm : (h :: (s.members j).eraseIdx k).Perm (s.members j) := by
    obtain ⟨hlt, rfl⟩ := List.getElem?_eq_some_iff.1 hk
    exact List.getElem_cons_eraseIdx_perm hlt
  have hcount : ∀ h' : Handle, handles n
      { s with members := update s.members j ((s.members j).eraseIdx k) } h' +
        (if h == h' then 1 else 0) = handles n s h' := by
    intro h'
    have hmembers := handles_members (n := n) hj ((s.members j).eraseIdx k) h'
    have hold := hperm.countP_eq (fun x => x == h')
    rw [List.countP_cons] at hold
    omega
  refine hI.startDrop ht rfl rfl rfl ?_ ?_ ?_
  · exact hI.members_new hj _
  · have hself := hcount h
    rwa [if_pos (by simp)] at hself
  · intro h' hh
    have hother := hcount h'
    rwa [if_neg (by simp [Ne.symm hh])] at hother

/-! ## Runs -/

/-- **The step lemma**: every step that meets the condition keeps the invariant. -/
theorem SharedInv.step (hI : SharedInv n s) {a : Action} (hok : deletesAfter s a = true)
    (hs : s.step n a = some s') : SharedInv n s' := by
  cases a with
  | make =>
    obtain rfl := Option.some.inj hs
    exact hI.make
  | copy h =>
    cases h with
    | strong i =>
      simp only [Heap.step] at hs
      split at hs
      · rename_i hr
        obtain rfl := Option.some.inj hs
        exact hI.copyStrong hr
      · simp at hs
    | weak i =>
      simp only [Heap.step] at hs
      split at hs
      · obtain ⟨s₁, hs₁, rfl⟩ := Option.map_eq_some_iff.1 hs
        exact hI.addWeak hs₁
      · simp at hs
  | weaken i =>
    simp only [Heap.step] at hs
    split at hs
    · obtain ⟨s₁, hs₁, rfl⟩ := Option.map_eq_some_iff.1 hs
      exact hI.addWeak hs₁
    · simp at hs
  | promote i =>
    simp only [Heap.step] at hs
    split at hs
    · exact hI.promote hs
    · simp at hs
  | store h j k =>
    simp only [Heap.step] at hs
    split at hs
    · rename_i hpos
      obtain rfl := Option.some.inj hs
      exact hI.store hpos.1 (hI.held_lt hpos.2)
    · simp at hs
  | dropRoot t h =>
    simp only [Heap.step] at hs
    split at hs
    · rename_i hpos
      obtain rfl := Option.some.inj hs
      exact hI.dropRoot hpos.1 hpos.2
    · simp at hs
  | dropMember t j k =>
    simp only [Heap.step] at hs
    split at hs
    · simp at hs
    · rename_i h hk
      split at hs
      · rename_i hpos
        obtain rfl := Option.some.inj hs
        exact hI.dropMember hpos.1 (hI.held_lt hpos.2) hk
      · simp at hs
  | advance t =>
    simp only [Heap.step] at hs
    split at hs
    · rename_i ht
      unfold Heap.advance at hs
      split at hs
      · simp at hs
      · rename_i i rest hst
        exact hI.dropStrong ht hst hs
      · rename_i i rest hst
        exact hI.dropWeak ht hst hs
      · rename_i i d rest hst
        exact hI.destroy ht hst hs
      · rename_i i d rest hst
        obtain rfl := Option.some.inj hs
        exact hI.clear ht hst
      · rename_i i rest hst
        obtain rfl := Option.some.inj hs
        refine hI.free ht hst rfl (by simp [Frame.frees]) (fun _ => rfl) ?_
        refine (hI.block i).late (countIn_pos_of_mem ht ?_ (p := Frame.last i) (x := .freeStrong i) ?_)
        · rw [hst]
          simp
        · simp [Frame.last]
      · rename_i i rest hst
        obtain rfl := Option.some.inj hs
        refine hI.free ht hst rfl (by simp [Frame.frees]) (fun _ => rfl) ?_
        simpa only [deletesAfter, hst, Bool.not_eq_true'] using hok
    · simp at hs

/-- The run lemma. -/
theorem sharedRuns_inv (hr : SharedRuns n s) : SharedInv n s := by
  refine Runs.Guarded.invariant (I := SharedInv n) ?_ ?_ hr
  · rintro _ rfl
    exact sharedInv_empty n
  · intro s a s' _ hI hok hs
    exact hI.step hok hs

/-- **When deleting too early shows**: if `drop_weak` deletes a block whose object is still there, the
    activation of `drop_strong` that will write `ptr->obj = nullptr` is pending. -/
theorem SharedInv.early (hI : SharedInv n s) (ht : t < n) (hst : s.pending t = .freeWeak i :: rest)
    (hobj : (s.blocks i).obj = true) : ¬ Safe n (s.free t i rest) := by
  intro hsafe
  have hmem : Frame.freeWeak i ∈ s.pending t := by
    rw [hst]
    simp
  have hpos : 0 < frames n s (Frame.frees i) := countIn_pos_of_mem ht hmem (by simp [Frame.frees])
  have hdying : frames n s (Frame.dying i) = 1 := by
    rw [(hI.block i).dying_eq, if_pos ⟨hobj, ((hI.block i).frees_last hpos).1⟩]
  obtain ⟨u, hu, f, hf, hp⟩ := exists_of_countIn_pos (p := Frame.dying i) (n := n)
    (show 0 < frames n s (Frame.dying i) by omega)
  -- it is not the activation that deletes, so it is still there afterwards
  have hne : f ≠ .freeWeak i := by
    rintro rfl
    simp [Frame.dying] at hp
  have hstays : f ∈ (s.free t i rest).pending u := by
    show f ∈ update s.pending t rest u
    by_cases hut : u = t
    · rw [hut, hst] at hf
      rw [hut, Function.update_self]
      exact (List.mem_cons.1 hf).resolve_left hne
    · rw [Function.update_of_ne hut]
      exact hf
  have halive := hsafe u hu f hstays
  rw [about_dying i f hp] at halive
  have hdeleted : (s.free t i rest).blocks i = { s.blocks i with deleted := true } :=
    Function.update_self _ _ _
  rw [hdeleted] at halive
  simp at halive

/-- A step that misses the condition. -/
theorem tooEarly {a : Action} (hno : ¬ deletesAfter s a = true) :
    ∃ t i rest, a = .advance t ∧ s.pending t = .freeWeak i :: rest ∧ (s.blocks i).obj = true := by
  unfold deletesAfter at hno
  split at hno
  · rename_i t
    split at hno
    · rename_i i rest hst
      exact ⟨t, i, rest, rfl, hst, by simpa using hno⟩
    · simp at hno
  · simp at hno

/-- **Control blocks are not used after they are deleted** in runs of any number of threads, over any
    graph of handles, in which `drop_weak` deletes a block only when its object is gone; and a step from
    such a run keeps to that exactly when it meets the condition. -/
theorem shared_safe (n : Nat) (s : Heap) (hr : SharedRuns n s) :
    Safe n s ∧ ∀ a s', s.step n a = some s' → (Safe n s' ↔ deletesAfter s a = true) := by
  have hI : SharedInv n s := sharedRuns_inv hr
  refine ⟨hI.safe, ?_⟩
  intro a s' hs
  constructor
  · intro hsafe
    by_contra hno
    obtain ⟨t, i, rest, rfl, hst, hobj⟩ := tooEarly hno
    simp only [Heap.step] at hs
    split at hs
    · rename_i ht
      rw [Heap.advance, hst] at hs
      obtain rfl := Option.some.inj hs
      exact hI.early ht hst hobj hsafe
    · simp at hs
  · exact fun hok => (hI.step hok hs).safe

/-- An object that thread 1 drops while a weak handle is left, which thread 0 drops afterwards. -/
def weakLast : List Action :=
  [.make, .weaken 0, .dropRoot 1 (.strong 0), .advance 1, .advance 1, .advance 1,
    .dropRoot 0 (.weak 0), .advance 0]

/-- After `weakLast` the control block is about to be deleted. -/
theorem shared_safe_weakLast :
    ∃ s, s.pending 0 = [.freeWeak 0] ∧ Safe 2 s ∧
      ∀ a s', s.step 2 a = some s' → (Safe 2 s' ↔ deletesAfter s a = true) := by
  have hrun : ((weakLast.foldlM (fun s a => if deletesAfter s a then s.step 2 a else none)
      Heap.empty).map fun s => s.pending 0) = some [.freeWeak 0] := by decide +kernel
  obtain ⟨s, hs, hstack⟩ := Option.map_eq_some_iff.1 hrun
  exact ⟨s, hstack, shared_safe 2 s (Runs.Guarded.foldlM (Runs.Guarded.start rfl) hs)⟩

/-- Two objects, the first holding the second and the second holding the first weakly. -/
def twoLinked : List Action :=
  [.make, .make, .weaken 0, .store (.weak 0) 1 0, .store (.strong 1) 0 0]

/-- Dropping the first of two linked objects: its destructor drops the second, whose destructor drops the
    last weak handle to the first. -/
def dropFirst : List Action :=
  .dropRoot 0 (.strong 0) :: List.replicate 8 (.advance 0)

/-- Control blocks can be used after they are deleted: the run writes `ptr->obj = nullptr` to one. -/
theorem twoLinked_dropFirst_notSafe :
    ¬ ∀ s, Runs.Reached (fun s => s = Heap.empty) (fun s a s' => s.step 2 a = some s') s → Safe 2 s := by
  intro hall
  have hrun : (((twoLinked ++ dropFirst).foldlM (Heap.step 2) Heap.empty).map fun s =>
      (s.pending 0, (s.blocks 0).deleted)) = some ([.clear 0 false], true) := by decide +kernel
  obtain ⟨s, hs, hpair⟩ := Option.map_eq_some_iff.1 hrun
  obtain ⟨hstack, hdeleted⟩ := Prod.mk.inj hpair
  have halive := hall s (Runs.Reached.foldlM (Runs.Reached.start rfl) hs) 0 (by decide) (.clear 0 false)
    (by simp only [hstack, List.mem_singleton])
  rw [show (Frame.clear 0 false).block = 0 from rfl, hdeleted] at halive
  simp at halive

end Shared

end BadApple
