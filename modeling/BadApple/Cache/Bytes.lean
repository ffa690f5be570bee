/-
  What `read_block` returns: the bytes of the block that was asked for.

  1. **Invariant** — every block in memory, in a list or in the hands of a thread, holds the device's
     bytes of its own number (`faithful`); each thread's block is in no list, has the number the thread
     asked for, and is no other thread's.  Two blocks may well have the same number: that is what two
     threads that miss on one block leave behind.
  2. **Step** — a thread moves by editing lists (which keeps all data), by loading a new block, or by
     copying out of its own block; `BytesInv.move` is the one frame argument for all of them.
  3. **Run** — `readBlock_bytes`: a thread that has returned has the device's bytes in its buffer.
     `advances_readBlock` ties the steps to the function: alone, they compute `readBlock`.
-/
import BadApple.Cache.Lists
import BadApple.Lib.Runs
import Mathlib.Logic.Relation

namespace BadApple

open Function (update)
open BufferCache

/-- The block a thread holds. -/
def Phase.block : Phase → Option Nat
  | .loaded r | .evicting r | .dropping r _ | .dropped r | .found r | .copied r => some r
  | .start | .missed | .added | .returned => none

/-- The thread has copied the block to its buffer. -/
def Phase.filled : Phase → Bool
  | .copied _ | .added | .returned => true
  | _ => false

/-- Every block in memory holds the device's bytes. -/
def Faithful (ide : Ide) (c : BufferCache) : Prop :=
  ∀ r block, c.blocks r = some block → ide.Agrees block.blockId block.buffer

/-- Editing lists moves no bytes. -/
theorem Faithful.edit {ide : Ide} {c c' : BufferCache} {touched : List Nat} (h : Faithful ide c)
    (he : ListEdit c c' touched) : Faithful ide c' := by
  intro r block' hb'
  obtain ⟨block, hb, hd⟩ := he.data r block' hb'
  obtain ⟨hid, hbuf⟩ := Prod.mk.inj hd
  rw [← hid, ← hbuf]
  exact h r block hb

/-- A thread's own block: in no list, with the number the thread asked for. -/
def Own (c : BufferCache) (refs : Nat → List Nat) (b r : Nat) : Prop :=
  (∀ j, r ∉ refs j) ∧ ∃ block, c.blocks r = some block ∧ block.blockId = b ∧ block.prev = none

/-- The invariant of the threads. -/
structure BytesInv (ide : Ide) (s : CacheSystem) (refs : Nat → List Nat) : Prop where
  device : s.cache.ide = ide
  lists : Lists s.cache refs
  faithful : Faithful ide s.cache
  own : ∀ t call r, s.calls t = some call → call.phase.block = some r →
    Own s.cache refs call.block r
  apart : ∀ t t' call call' r, s.calls t = some call → s.calls t' = some call' →
    call.phase.block = some r → call'.phase.block = some r → t = t'
  filled : ∀ t call, s.calls t = some call → call.phase.filled →
    ide.Agrees call.block call.buffer

theorem bytesInv_make (ide : Ide) : BytesInv ide (CacheSystem.make ide) fun _ => [] := by
  refine ⟨rfl, Lists.make ide, ?_, ?_, ?_, ?_⟩
  · intro r block hb
    simp [CacheSystem.make, BufferCache.make] at hb
  all_goals
    intro t
    simp [CacheSystem.make]

variable {ide : Ide} {s s' : CacheSystem} {refs refs' : Nat → List Nat} {t : Nat} {call : ReadCall}

/-- **Frame.**  Thread `t` goes on over the cache `c`: it is enough that the other threads' blocks are
    left alone and that its own block, if it has one, is its own. -/
theorem BytesInv.move (h : BytesInv ide s refs) (hcall : s.calls t = some call) {c : BufferCache}
    {buffer : Buffer} {phase : Phase} {lock : Option Nat}
    (hide : c.ide = ide) (hlists : Lists c refs') (hfaith : Faithful ide c)
    (hothers : ∀ r b, Own s.cache refs b r → call.phase.block ≠ some r → Own c refs' b r)
    (hown : ∀ r, phase.block = some r → Own c refs' call.block r ∧
      (call.phase.block = some r ∨ ∀ b, ¬ Own s.cache refs b r))
    (hfilled : phase.filled → ide.Agrees call.block buffer) :
    BytesInv ide ⟨c, lock, update s.calls t (some ⟨call.block, buffer, phase⟩)⟩ refs' := by
  have hself : ∀ call', update s.calls t (some ⟨call.block, buffer, phase⟩) t = some call' →
      call' = ⟨call.block, buffer, phase⟩ := by
    intro call' hc'
    rw [Function.update_self] at hc'
    exact (Option.some.inj hc').symm
  -- no other thread holds the block this thread goes on with
  have hnew : ∀ t' call' r, t' ≠ t → s.calls t' = some call' → call'.phase.block = some r →
      phase.block ≠ some r := by
    intro t' call' r hne hc' hr' hr
    rcases (hown r hr).2 with hold | hold
    · exact hne (h.apart t' t call' call r hc' hcall hr' hold)
    · exact hold _ (h.own t' call' r hc' hr')
  refine ⟨hide, hlists, hfaith, fun t' call' r hc' hr => ?_, fun t₁ t₂ call₁ call₂ r h₁ h₂ hr₁ hr₂ => ?_,
    fun t' call' hc' hf => ?_⟩
  · by_cases ht : t' = t
    · subst ht
      obtain rfl := hself call' hc'
      exact (hown r hr).1
    · simp only [Function.update_of_ne ht] at hc'
      refine hothers r _ (h.own t' call' r hc' hr) fun hr' => ?_
      exact ht (h.apart t' t call' call r hc' hcall hr hr')
  · by_cases ht₁ : t₁ = t
    · by_cases ht₂ : t₂ = t
      · rw [ht₁, ht₂]
      · subst ht₁
        obtain rfl := hself call₁ h₁
        simp only [Function.update_of_ne ht₂] at h₂
        exact absurd hr₁ (hnew t₂ call₂ r ht₂ h₂ hr₂)
    · by_cases ht₂ : t₂ = t
      · subst ht₂
        obtain rfl := hself call₂ h₂
        simp only [Function.update_of_ne ht₁] at h₁
        exact absurd hr₂ (hnew t₁ call₁ r ht₁ h₁ hr₁)
      · simp only [Function.update_of_ne ht₁] at h₁
        simp only [Function.update_of_ne ht₂] at h₂
        exact h.apart t₁ t₂ call₁ call₂ r h₁ h₂ hr₁ hr₂
  · by_cases ht : t' = t
    · subst ht
      obtain rfl := hself call' hc'
      exact hfilled hf
    · simp only [Function.update_of_ne ht] at hc'
      exact h.filled t' call' hc' hf

/-- A block that is in no list stays its thread's own when lists are edited. -/
theorem Own.edit {c c' : BufferCache} {b r : Nat} {touched : List Nat} (h : Own c refs b r)
    (he : ListEdit c c' touched) (hr : r ∉ touched) (hrefs : ∀ j, r ∉ refs' j) : Own c' refs' b r := by
  obtain ⟨-, block, hb, hid, hprev⟩ := h
  exact ⟨hrefs, block, by rw [he.outside r hr, hb], hid, hprev⟩

/-! ## One lemma per phase -/

theorem BytesInv.start (h : BytesInv ide s refs) (hcall : s.calls t = some call)
    (hphase : call.phase = .start) (hs : s.advance t call = some s') :
    ∃ refs', BytesInv ide s' refs' := by
  have hfree : call.phase.block = none := by rw [hphase]; rfl
  unfold CacheSystem.advance at hs
  rw [hphase] at hs
  rcases h.lists.extract call.block with
    ⟨-, he⟩ | ⟨c, pre, r, post, block, hrefs, hb, hid, he, hlists, hr, hedit⟩
  · simp only [he] at hs
    obtain rfl := Option.some.inj hs
    refine ⟨refs, h.move hcall h.device h.lists h.faithful (fun r b ho _ => ho) ?_ ?_⟩
    · intro r hr
      simp [Phase.block] at hr
    · intro hf
      simp [Phase.filled] at hf
  · simp only [he] at hs
    obtain rfl := Option.some.inj hs
    have hin : r ∈ refs (call.block % size) := by simp [hrefs]
    obtain ⟨hpre, hpost⟩ := Chains.not_mem_sides (hrefs ▸ (h.lists.holds _).chain.nodup)
    have hide : c.ide = s.cache.ide := by rw [hedit.rest]
    refine ⟨_, h.move hcall (hide.trans h.device) hlists (h.faithful.edit hedit) ?_ ?_ ?_⟩
    · -- other threads' blocks are in no list
      intro x b ho _
      refine ho.edit hedit (ho.1 _) fun j hx => ?_
      by_cases hj : j = call.block % size
      · subst hj
        rw [Function.update_self] at hx
        refine ho.1 (call.block % size) ?_
        rw [hrefs]
        simp only [List.mem_append, List.mem_cons] at hx ⊢
        tauto
      · rw [Function.update_of_ne hj] at hx
        exact ho.1 j hx
    · intro x hx
      obtain rfl : r = x := by simpa [Phase.block] using hx
      refine ⟨⟨fun j hj => ?_, _, hr, hid, rfl⟩, Or.inr fun b ho => ho.1 _ hin⟩
      by_cases hjb : j = call.block % size
      · subst hjb
        rw [Function.update_self] at hj
        rcases List.mem_append.1 hj with hj | hj
        · exact hpre hj
        · exact hpost hj
      · rw [Function.update_of_ne hjb] at hj
        exact hjb (h.lists.bucket_eq hj hin)
    · intro hf
      simp [Phase.filled] at hf

theorem BytesInv.missed (h : BytesInv ide s refs) (hcall : s.calls t = some call)
    (hphase : call.phase = .missed) (hs : s.advance t call = some s') :
    ∃ refs', BytesInv ide s' refs' := by
  have hs' : s.goOn t (s.cache.load call.block).1 call (.loaded s.cache.nextBlock) = s' := by
    unfold CacheSystem.advance at hs
    rw [hphase] at hs
    exact Option.some.inj hs
  subst hs'
  obtain ⟨hlists, hnew, hself, hother⟩ := h.lists.load call.block
  have hfresh : ∀ b, ¬ Own s.cache refs b s.cache.nextBlock := by
    rintro b ⟨-, block, hb, -⟩
    have hlt := h.lists.made s.cache.nextBlock (by rw [hb]; rfl)
    omega
  refine ⟨refs, h.move hcall h.device hlists ?_ ?_ ?_ ?_⟩
  · intro r block hb
    by_cases hr : r = s.cache.nextBlock
    · rw [hr, hself] at hb
      obtain rfl := Option.some.inj hb
      have hagree := s.cache.ide.readBlock_agrees call.block fun _ => 0
      rw [← h.device]
      exact hagree
    · rw [hother r hr] at hb
      exact h.faithful r block hb
  · intro r b ho _
    have hr : r ≠ s.cache.nextBlock := by
      rintro rfl
      exact hfresh b ho
    obtain ⟨hout, block, hb, hid, hprev⟩ := ho
    exact ⟨hout, block, by rw [hother r hr, hb], hid, hprev⟩
  · intro r hr
    obtain rfl : s.cache.nextBlock = r := by simpa [Phase.block] using hr
    exact ⟨⟨hnew, _, hself, rfl, rfl⟩, Or.inr hfresh⟩
  · intro hf
    simp [Phase.filled] at hf

/-- Steps that leave the blocks and the lists alone, and do not change what the thread holds. -/
theorem BytesInv.pass (h : BytesInv ide s refs) (hcall : s.calls t = some call) {c : BufferCache}
    {buffer : Buffer} {phase : Phase} {lock : Option Nat} (hide : c.ide = s.cache.ide)
    (hb : c.blocks = s.cache.blocks) (hi : c.indices = s.cache.indices)
    (hn : c.nextBlock = s.cache.nextBlock)
    (hown : ∀ r, phase.block = some r → call.phase.block = some r)
    (hfilled : phase.filled → ide.Agrees call.block buffer) :
    BytesInv ide ⟨c, lock, update s.calls t (some ⟨call.block, buffer, phase⟩)⟩ refs := by
  have hkeep : ∀ r b, Own s.cache refs b r → Own c refs b r := by
    intro r b ho
    unfold Own
    rw [hb]
    exact ho
  refine h.move hcall (hide.trans h.device) (h.lists.congr hb hi hn) ?_ (fun r b ho _ => hkeep r b ho)
    (fun r hr => ?_) hfilled
  · unfold Faithful
    rw [hb]
    exact h.faithful
  · have hr' := hown r hr
    exact ⟨hkeep r _ (h.own t call r hcall hr'), Or.inl hr'⟩

theorem BytesInv.dropping (h : BytesInv ide s refs) (hcall : s.calls t = some call) {r oldest : Nat}
    (hphase : call.phase = .dropping r oldest) (hs : s.advance t call = some s') :
    ∃ refs', BytesInv ide s' refs' := by
  obtain ⟨c, he, hlists, hedit⟩ := h.lists.remove oldest
  unfold CacheSystem.advance at hs
  rw [hphase] at hs
  simp only [he] at hs
  obtain rfl := Option.some.inj hs
  have hide : c.ide = s.cache.ide := by rw [hedit.rest]
  have hkeep : ∀ x b, Own s.cache refs b x →
      Own c (update refs oldest (refs oldest).dropLast) b x := by
    intro x b ho
    refine ho.edit hedit (ho.1 _) fun j hx => ?_
    by_cases hj : j = oldest
    · subst hj
      rw [Function.update_self] at hx
      exact ho.1 j ((List.dropLast_sublist _).subset hx)
    · rw [Function.update_of_ne hj] at hx
      exact ho.1 j hx
  refine ⟨_, h.move hcall (hide.trans h.device) hlists (h.faithful.edit hedit)
    (fun x b ho _ => hkeep x b ho) (fun x hx => ?_) ?_⟩
  · have hx' : call.phase.block = some x := by rwa [hphase]
    exact ⟨hkeep x _ (h.own t call x hcall hx'), Or.inl hx'⟩
  · intro hf
    simp [Phase.filled] at hf

theorem BytesInv.found (h : BytesInv ide s refs) (hcall : s.calls t = some call) {r : Nat}
    (hphase : call.phase = .found r) (hs : s.advance t call = some s') :
    ∃ refs', BytesInv ide s' refs' := by
  have hr : call.phase.block = some r := by rw [hphase]; rfl
  obtain ⟨-, block, hb, hid, -⟩ := h.own t call r hcall hr
  unfold CacheSystem.advance at hs
  rw [hphase] at hs
  simp only [hb] at hs
  obtain rfl := Option.some.inj hs
  refine ⟨refs, h.pass hcall rfl rfl rfl rfl ?_ fun _ => ?_⟩
  · intro x hx
    rw [hphase]
    exact hx
  · -- the block holds the bytes of the number that was asked for
    have hagree : ide.Agrees call.block block.buffer := hid ▸ h.faithful r block hb
    rw [h.device]
    exact hagree.memcpy call.buffer

theorem BytesInv.copied (h : BytesInv ide s refs) (hcall : s.calls t = some call) {r : Nat}
    (hphase : call.phase = .copied r) (hs : s.advance t call = some s') :
    ∃ refs', BytesInv ide s' refs' := by
  have hr : call.phase.block = some r := by rw [hphase]; rfl
  obtain ⟨hout, block, hb, hid, hprev⟩ := h.own t call r hcall hr
  obtain ⟨c, he, hlists, hedit⟩ := h.lists.add hout hb hprev
  rw [hid] at he hlists hedit
  unfold CacheSystem.advance at hs
  rw [hphase] at hs
  simp only [he] at hs
  obtain rfl := Option.some.inj hs
  have hide : c.ide = s.cache.ide := by rw [hedit.rest]
  refine ⟨_, h.move hcall (hide.trans h.device) hlists (h.faithful.edit hedit) ?_ ?_ fun _ => ?_⟩
  · intro x b ho hx
    have hxr : x ≠ r := fun hxr => hx (hxr ▸ hr)
    refine ho.edit hedit ?_ fun j hj => ?_
    · simp only [List.mem_cons, not_or]
      exact ⟨hxr, ho.1 _⟩
    · by_cases hjb : j = call.block % size
      · subst hjb
        rw [Function.update_self] at hj
        rcases List.mem_cons.1 hj with hj | hj
        · exact hxr hj
        · exact ho.1 _ hj
      · rw [Function.update_of_ne hjb] at hj
        exact ho.1 j hj
  · intro x hx
    simp [Phase.block] at hx
  · exact h.filled t call hcall (by rw [hphase]; rfl)

/-- **Step**, for a thread in a call. -/
theorem BytesInv.advance (h : BytesInv ide s refs) (hcall : s.calls t = some call)
    (hs : s.advance t call = some s') : ∃ refs', BytesInv ide s' refs' := by
  cases hphase : call.phase with
  | start => exact h.start hcall hphase hs
  | missed => exact h.missed hcall hphase hs
  | loaded r =>
    unfold CacheSystem.advance at hs
    rw [hphase] at hs
    obtain rfl := Option.some.inj hs
    refine ⟨refs, h.pass hcall rfl rfl rfl rfl ?_ ?_⟩
    · intro x hx
      rw [hphase]
      split at hx <;> exact hx
    · intro hf
      split at hf <;> simp [Phase.filled] at hf
  | evicting r =>
    unfold CacheSystem.advance at hs
    rw [hphase] at hs
    simp only at hs
    split at hs
    · simp at hs
    · split at hs
      · simp at hs
      · rename_i c oldest hpop
        obtain rfl := Option.some.inj hs
        obtain ⟨h1, h2, h3, h4⟩ := popOldest_same hpop
        refine ⟨refs, h.pass hcall h1 h2 h3 h4 ?_ ?_⟩
        · intro x hx
          rw [hphase]
          exact hx
        · intro hf
          simp [Phase.filled] at hf
  | dropping r oldest => exact h.dropping hcall hphase hs
  | dropped r =>
    unfold CacheSystem.advance at hs
    rw [hphase] at hs
    obtain rfl := Option.some.inj hs
    refine ⟨refs, h.pass hcall rfl rfl rfl rfl ?_ ?_⟩
    · intro x hx
      rw [hphase]
      exact hx
    · intro hf
      simp [Phase.filled] at hf
  | found r => exact h.found hcall hphase hs
  | copied r => exact h.copied hcall hphase hs
  | added =>
    unfold CacheSystem.advance at hs
    rw [hphase] at hs
    simp only at hs
    split at hs
    · simp at hs
    · obtain rfl := Option.some.inj hs
      obtain ⟨h1, h2, h3, h4, -⟩ := touch_same s.cache (call.block % size)
      refine ⟨refs, h.pass hcall h1 h2 h3 h4 ?_ fun _ => ?_⟩
      · intro x hx
        simp [Phase.block] at hx
      · exact h.filled t call hcall (by rw [hphase]; rfl)
  | returned =>
    unfold CacheSystem.advance at hs
    rw [hphase] at hs
    simp at hs

/-- A call that starts holds nothing yet. -/
theorem BytesInv.called (h : BytesInv ide s refs) (t b : Nat) (buffer : Buffer) :
    BytesInv ide { s with calls := update s.calls t (some ⟨b, buffer, .start⟩) } refs := by
  have hcase : ∀ t' call', update s.calls t (some ⟨b, buffer, .start⟩) t' = some call' →
      call' = ⟨b, buffer, .start⟩ ∨ s.calls t' = some call' := by
    intro t' call' hc'
    by_cases ht : t' = t
    · rw [ht, Function.update_self] at hc'
      exact Or.inl (Option.some.inj hc').symm
    · rw [Function.update_of_ne ht] at hc'
      exact Or.inr hc'
  refine ⟨h.device, h.lists, h.faithful, fun t' call' r hc' hr => ?_,
    fun t₁ t₂ call₁ call₂ r h₁ h₂ hr₁ hr₂ => ?_, fun t' call' hc' hf => ?_⟩
  · rcases hcase t' call' hc' with rfl | hold
    · simp [Phase.block] at hr
    · exact h.own t' call' r hold hr
  · rcases hcase t₁ call₁ h₁ with rfl | hold₁
    · simp [Phase.block] at hr₁
    · rcases hcase t₂ call₂ h₂ with rfl | hold₂
      · simp [Phase.block] at hr₂
      · exact h.apart t₁ t₂ call₁ call₂ r hold₁ hold₂ hr₁ hr₂
  · rcases hcase t' call' hc' with rfl | hold
    · simp [Phase.filled] at hf
    · exact h.filled t' call' hold hf

/-- **Step.** -/
theorem BytesInv.step (h : BytesInv ide s refs) {a : CacheAction} (hs : s.step a = some s') :
    ∃ refs', BytesInv ide s' refs' := by
  cases a with
  | call t b buffer =>
    simp only [CacheSystem.step] at hs
    split at hs
    · obtain rfl := Option.some.inj hs
      exact ⟨refs, h.called t b buffer⟩
    · split at hs
      · obtain rfl := Option.some.inj hs
        exact ⟨refs, h.called t b buffer⟩
      · simp at hs
  | advance t =>
    simp only [CacheSystem.step] at hs
    split at hs
    · simp at hs
    · rename_i call hcall
      exact h.advance hcall hs

/-! ## Runs -/

/-- The states of the threads over the device `ide`. -/
def CacheRuns (ide : Ide) : CacheSystem → Prop :=
  Runs.Reached (fun s => s = CacheSystem.make ide) fun s a s' => s.step a = some s'

/-- **Run.** -/
theorem cacheRuns_inv (h : CacheRuns ide s) : ∃ refs, BytesInv ide s refs := by
  refine Runs.Reached.invariant (I := fun s => ∃ refs, BytesInv ide s refs) ?_ ?_ h
  · rintro s rfl
    exact ⟨_, bytesInv_make ide⟩
  · rintro s a s' - ⟨refs, hI⟩ hs
    exact hI.step hs

/-- **`read_block` is right.**  In every interleaving, a call that has returned has the device's bytes
    of the requested block in its buffer. -/
theorem readBlock_bytes (h : CacheRuns ide s) (hcall : s.calls t = some call)
    (hret : call.phase = .returned) : ide.Agrees call.block call.buffer := by
  obtain ⟨refs, hI⟩ := cacheRuns_inv h
  exact hI.filled t call hcall (by rw [hret]; rfl)

/-- Two threads that both miss on block `5`, taking their steps in turn. -/
def bothMiss : List CacheAction :=
  [.call 0 5 fun _ => 0, .call 1 5 fun _ => 0, .advance 0, .advance 1, .advance 0, .advance 1,
    .advance 0, .advance 1, .advance 0, .advance 1, .advance 0, .advance 1, .advance 0, .advance 1]

/-- Both return the byte `5`. -/
theorem readBlock_bytes_bothMiss : ∃ (s : CacheSystem) (call₀ call₁ : ReadCall),
    s.calls 0 = some call₀ ∧ call₀.block = 5 ∧ s.calls 1 = some call₁ ∧ call₁.block = 5 ∧
      call₀.buffer 0 = 5 ∧ call₁.buffer 0 = 5 := by
  have hend : ∀ t < 2, ((bothMiss.foldlM CacheSystem.step (CacheSystem.make Ide.bytes)).bind
      fun s => (s.calls t).map fun c => (c.block, c.phase)) = some (5, Phase.returned) := by
    decide +kernel
  obtain ⟨s, hs, hs0⟩ := Option.bind_eq_some_iff.1 (hend 0 (by decide))
  obtain ⟨s', hs', hs1⟩ := Option.bind_eq_some_iff.1 (hend 1 (by decide))
  obtain rfl : s = s' := Option.some.inj (hs.symm.trans hs')
  obtain ⟨call₀, h0, hp0⟩ := Option.map_eq_some_iff.1 hs0
  obtain ⟨call₁, h1, hp1⟩ := Option.map_eq_some_iff.1 hs1
  obtain ⟨hb0, hret0⟩ := Prod.mk.inj hp0
  obtain ⟨hb1, hret1⟩ := Prod.mk.inj hp1
  have hrun : CacheRuns Ide.bytes s := Runs.Reached.foldlM (Runs.Reached.start rfl) hs
  have hbytes0 := readBlock_bytes hrun h0 hret0 0 (by decide)
  have hbytes1 := readBlock_bytes hrun h1 hret1 0 (by decide)
  rw [hb0] at hbytes0
  rw [hb1] at hbytes1
  exact ⟨s, call₀, call₁, h0, hb0, h1, hb1, hbytes0, hbytes1⟩

/-! ## One thread alone -/

/-- A run of steps of thread `t` alone. -/
def Advances (t : Nat) : CacheSystem → CacheSystem → Prop :=
  Relation.ReflTransGen fun s s' => s.step (.advance t) = some s'

/-- What the common part of a `read_block` that returns has done. -/
theorem deliver_pieces {c c' : BufferCache} {b r : Nat} {buffer buffer' : Buffer}
    (h : c.deliver b r buffer = some (c', buffer')) :
    ∃ block c₃, c.blocks r = some block ∧ c.add (b % size) r = some c₃ ∧ c' = c₃.touch (b % size) ∧
      buffer' = memcpy c.ide.blockSize block.buffer buffer := by
  unfold BufferCache.deliver at h
  split at h
  · simp at h
  · rename_i block hb
    simp only at h
    split at h
    · simp at h
    · rename_i c₃ hadd
      obtain ⟨rfl, rfl⟩ := Prod.mk.inj (Option.some.inj h)
      exact ⟨block, c₃, hb, hadd, rfl, rfl⟩

/-- What a `read_block` that returns has done, piece by piece. -/
theorem readBlock_pieces {c c' : BufferCache} {b : Nat} {buffer buffer' : Buffer}
    (h : c.readBlock b buffer = some (c', buffer')) :
    ∃ c₁ c₂ r, (c.extract b = some (c₁, some r) ∧ c₂ = c₁ ∨
        c.extract b = some (c₁, none) ∧ c₁.miss b = some (c₂, r)) ∧
      c₂.deliver b r buffer = some (c', buffer') := by
  unfold BufferCache.readBlock at h
  split at h
  · simp at h
  · rename_i c₁ r hext
    exact ⟨c₁, c₁, r, Or.inl ⟨hext, rfl⟩, h⟩
  · rename_i c₁ hext
    split at h
    · simp at h
    · rename_i c₂ r hmiss
      exact ⟨c₁, c₂, r, Or.inr ⟨hext, hmiss⟩, h⟩

/-- What the branch for a miss has done. -/
theorem miss_pieces {c c' : BufferCache} {b r : Nat} (h : c.miss b = some (c', r)) :
    r = c.nextBlock ∧ ((c.load b).1.addFetch.count < size ∧ c' = (c.load b).1.addFetch ∨
      (c.load b).1.addFetch.count ≥ size ∧ ∃ c₁ oldest c₂,
        (c.load b).1.addFetch.popOldest = some (c₁, oldest) ∧ c₁.remove oldest = some c₂ ∧
        c' = { c₂ with count := size }) := by
  have hmiss : c.miss b = if (c.load b).1.addFetch.count ≥ size then
      (c.load b).1.addFetch.evict.map fun c'' => (c'', c.nextBlock)
      else some ((c.load b).1.addFetch, c.nextBlock) := rfl
  rw [hmiss] at h
  by_cases hfull : (c.load b).1.addFetch.count ≥ size
  · rw [if_pos hfull] at h
    obtain ⟨c'', hev, hpair⟩ := Option.map_eq_some_iff.1 h
    obtain ⟨rfl, rfl⟩ := Prod.mk.inj hpair
    refine ⟨rfl, Or.inr ⟨hfull, ?_⟩⟩
    unfold BufferCache.evict at hev
    split at hev
    · simp at hev
    · rename_i c₁ oldest hpop
      split at hev
      · simp at hev
      · rename_i c₂ hrem
        exact ⟨c₁, oldest, c₂, hpop, hrem, (Option.some.inj hev).symm⟩
  · rw [if_neg hfull] at h
    obtain ⟨rfl, rfl⟩ := Prod.mk.inj (Option.some.inj h)
    exact ⟨rfl, Or.inl ⟨by omega, rfl⟩⟩

/-- The system with thread `t` in `call` over the cache `c`. -/
def CacheSystem.alone (s : CacheSystem) (t : Nat) (c : BufferCache) (lock : Option Nat)
    (call : ReadCall) : CacheSystem := ⟨c, lock, update s.calls t (some call)⟩

/-- One step of a thread that runs alone. -/
theorem CacheSystem.alone_step {s : CacheSystem} {t : Nat} {c c' : BufferCache}
    {lock lock' : Option Nat} {call call' : ReadCall}
    (h : (s.alone t c lock call).advance t call =
      some ⟨c', lock', update (s.alone t c lock call).calls t (some call')⟩) :
    Advances t (s.alone t c lock call) (s.alone t c' lock' call') := by
  apply Relation.ReflTransGen.single
  simp only [CacheSystem.step, CacheSystem.alone, Function.update_self] at h ⊢
  rw [h, Function.update_idem]

/-- **The steps of a thread that runs alone compute `readBlock`.** -/
theorem advances_readBlock (s : CacheSystem) (t : Nat) {c c' : BufferCache} {b : Nat}
    {buffer buffer' : Buffer} (h : c.readBlock b buffer = some (c', buffer')) :
    Advances t (s.alone t c none ⟨b, buffer, .start⟩) (s.alone t c' none ⟨b, buffer', .returned⟩) := by
  obtain ⟨c₁, c₂, r, hget, hdel⟩ := readBlock_pieces h
  obtain ⟨block, c₃, hb, hadd, rfl, rfl⟩ := deliver_pieces hdel
  -- up to the point where the thread has its block
  have hfound : Advances t (s.alone t c none ⟨b, buffer, .start⟩)
      (s.alone t c₂ none ⟨b, buffer, .found r⟩) := by
    rcases hget with ⟨hext, rfl⟩ | ⟨hext, hmiss⟩
    · apply CacheSystem.alone_step
      simp only [CacheSystem.advance, CacheSystem.alone, hext]
      rfl
    · have h1 : Advances t (s.alone t c none ⟨b, buffer, .start⟩)
          (s.alone t c₁ none ⟨b, buffer, .missed⟩) := by
        apply CacheSystem.alone_step
        simp only [CacheSystem.advance, CacheSystem.alone, hext]
        rfl
      have h2 : Advances t (s.alone t c₁ none ⟨b, buffer, .missed⟩)
          (s.alone t (c₁.load b).1 none ⟨b, buffer, .loaded c₁.nextBlock⟩) :=
        CacheSystem.alone_step rfl
      obtain ⟨rfl, ⟨hlt, rfl⟩ | ⟨hge, c₄, oldest, c₅, hpop, hrem, rfl⟩⟩ := miss_pieces hmiss
      · have h3 : Advances t (s.alone t (c₁.load b).1 none ⟨b, buffer, .loaded c₁.nextBlock⟩)
            (s.alone t (c₁.load b).1.addFetch none ⟨b, buffer, .found c₁.nextBlock⟩) := by
          apply CacheSystem.alone_step
          have hnot : ¬ (c₁.load b).1.addFetch.count ≥ size := by omega
          show some (CacheSystem.goOn _ t _ _
            (if (c₁.load b).1.addFetch.count ≥ size then _ else _)) = _
          rw [if_neg hnot]
          rfl
        exact (h1.trans h2).trans h3
      · have h3 : Advances t (s.alone t (c₁.load b).1 none ⟨b, buffer, .loaded c₁.nextBlock⟩)
            (s.alone t (c₁.load b).1.addFetch none ⟨b, buffer, .evicting c₁.nextBlock⟩) := by
          apply CacheSystem.alone_step
          show some (CacheSystem.goOn _ t _ _
            (if (c₁.load b).1.addFetch.count ≥ size then _ else _)) = _
          rw [if_pos hge]
          rfl
        have h4 : Advances t
            (s.alone t (c₁.load b).1.addFetch none ⟨b, buffer, .evicting c₁.nextBlock⟩)
            (s.alone t c₄ (some t) ⟨b, buffer, .dropping c₁.nextBlock oldest⟩) := by
          apply CacheSystem.alone_step
          simp only [CacheSystem.advance, CacheSystem.alone, hpop]
          rfl
        have h5 : Advances t (s.alone t c₄ (some t) ⟨b, buffer, .dropping c₁.nextBlock oldest⟩)
            (s.alone t c₅ (some t) ⟨b, buffer, .dropped c₁.nextBlock⟩) := by
          apply CacheSystem.alone_step
          simp only [CacheSystem.advance, CacheSystem.alone, hrem]
          rfl
        have h6 : Advances t (s.alone t c₅ (some t) ⟨b, buffer, .dropped c₁.nextBlock⟩)
            (s.alone t { c₅ with count := size } none ⟨b, buffer, .found c₁.nextBlock⟩) :=
          CacheSystem.alone_step rfl
        exact ((((h1.trans h2).trans h3).trans h4).trans h5).trans h6
  -- copy, put back, move to the front
  have hcopy : Advances t (s.alone t c₂ none ⟨b, buffer, .found r⟩)
      (s.alone t c₂ none ⟨b, memcpy c₂.ide.blockSize block.buffer buffer, .copied r⟩) := by
    apply CacheSystem.alone_step
    simp only [CacheSystem.advance, CacheSystem.alone, hb]
    rfl
  have hput : Advances t
      (s.alone t c₂ none ⟨b, memcpy c₂.ide.blockSize block.buffer buffer, .copied r⟩)
      (s.alone t c₃ none ⟨b, memcpy c₂.ide.blockSize block.buffer buffer, .added⟩) := by
    apply CacheSystem.alone_step
    simp only [CacheSystem.advance, CacheSystem.alone, hadd]
    rfl
  exact ((hfound.trans hcopy).trans hput).trans (CacheSystem.alone_step rfl)

end BadApple
