/-
  The buffer cache answers like the device, as long as its reads fit.

  1. **Alone** — a run of whole calls of `read_block` is a run of the threads in which only one takes steps, so
     that what holds in every interleaving holds of it (`FittingReads.alone`).
  2. **The result** — `FittingReads.answers`: a read that fits comes back, with the bytes that the device has
     in the block.
-/
import BadApple.Cache.Bytes
import BadApple.Cache.Capacity
import BadApple.Fs.BlockIo

namespace BadApple

open Function (update)
open BufferCache

/-- The device as a file of `sizeInBytes` bytes, which is what its cache is to show. -/
def Ide.io (ide : Ide) (sizeInBytes : Nat) : BlockIo := ⟨ide.blockSize, sizeInBytes, ide.data⟩

variable {ide : Ide} {s s' : CacheSystem} {t b : Nat} {st : Reading}

/-- A thread goes on alone. -/
theorem CacheRuns.advances (h : CacheRuns ide s) (hsteps : Advances t s s') : CacheRuns ide s' := by
  induction hsteps with
  | refl => exact h
  | tail _ hstep ih => exact Runs.Reached.next ih hstep

@[simp] theorem CacheSystem.alone_calls (s : CacheSystem) (t : Nat) (c : BufferCache) (lock : Option Nat)
    (call : ReadCall) : (s.alone t c lock call).calls t = some call := by
  simp only [CacheSystem.alone, Function.update_self]

/-- A whole call of a thread that is in none. -/
theorem CacheRuns.call {c' : BufferCache} {buffer buffer' : Buffer} (h : CacheRuns ide s) (hlock : s.lock = none)
    (hidle : ∀ call, s.calls t = some call → call.phase = .returned)
    (hread : s.cache.readBlock b buffer = some (c', buffer')) :
    CacheRuns ide (s.alone t c' none ⟨b, buffer', .returned⟩) := by
  have hcall : s.step (.call t b buffer) = some (s.alone t s.cache none ⟨b, buffer, .start⟩) := by
    rw [CacheSystem.alone, ← hlock]
    cases hc : s.calls t with
    | none =>
      simp only [CacheSystem.step, hc]
    | some call =>
      simp only [CacheSystem.step, hc, hidle call hc, if_true]
  exact CacheRuns.advances (Runs.Reached.next h hcall) (advances_readBlock s t hread)

/-- **A run of whole reads** is a run of threads of which only the first reads. -/
theorem FittingReads.alone (h : FittingReads ide st) : ∃ s, CacheRuns ide s ∧ s.cache = st.1 ∧
    s.lock = none ∧ ∀ call, s.calls 0 = some call → call.phase = .returned := by
  induction h with
  | @start st hst =>
    obtain rfl := hst
    exact ⟨CacheSystem.make ide, Runs.Reached.start rfl, rfl, rfl, fun call hcall => by cases hcall⟩
  | @next st st' b _ _ hstep ih =>
    obtain ⟨buffer, buffer', hread, _⟩ := hstep
    obtain ⟨s, hs, hcache, hlock, hidle⟩ := ih
    rw [← hcache] at hread
    refine ⟨_, hs.call hlock hidle hread, rfl, rfl, fun call hcall => ?_⟩
    rw [CacheSystem.alone_calls] at hcall
    obtain rfl := Option.some.inj hcall
    rfl

/-- **The cache answers like the device**: in every state of a run whose reads fit, a read that fits comes
    back, the run goes on, and the buffer has the bytes of the block of the device. -/
theorem FittingReads.answers (h : FittingReads ide st) (hfit : EvictFits st b) (buffer : Buffer) :
    ∃ c' buffer', st.1.readBlock b buffer = some (c', buffer') ∧ FittingReads ide (c', b :: st.2) ∧
      ide.Agrees b buffer' := by
  rcases (fittingReads_inv h).read b buffer with ⟨_, c', buffer', hread, _⟩ | ⟨hnot, _⟩
  · obtain ⟨s, hs, hcache, hlock, hidle⟩ := h.alone
    obtain ⟨refs, hinv⟩ := cacheRuns_inv (hs.call hlock hidle (hcache ▸ hread))
    refine ⟨c', buffer', hread, Runs.Guarded.next h hfit ⟨buffer, buffer', hread, rfl⟩, ?_⟩
    exact hinv.filled 0 _ (s.alone_calls 0 c' none ⟨b, buffer', .returned⟩) rfl
  · exact absurd hfit hnot

end BadApple
