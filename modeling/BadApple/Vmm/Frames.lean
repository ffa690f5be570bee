/-
  The frames that `PhysMem` hands out and takes back, over whole runs (kernel/physmem.cc).

  1. **Runs** — the frames held by someone, and those released and not handed out again, are known beside
     the allocator.  Owners write into the frames they hold what they like.
  2. **The exception** — a frame at address 0 can be handed out, but it cannot be released: its address is
     null, which ends the list of free frames.
  3. **The result** — `frames_ok`: in every run that does not release that frame, the free list holds the
     released frames, and nothing is handed out twice or withheld.
-/
import BadApple.Lib.Runs
import BadApple.Vmm.PhysMem

namespace BadApple

open Memory

open Runs (Guarded Reached)

/-! ## Runs -/

/-- The allocator, the frames that are held, and those that have been released, the last one first. -/
structure Frames where
  alloc : PhysMem
  held : List Nat
  released : List Nat

/-- A call, or what the owners of frames leave in memory. -/
inductive FrameEvent where
  | allocFrame
  | deallocFrame (p : Nat)
  | write (mem : Mem)

/-- One event; only frames that are held are released. -/
inductive FrameStep : Frames → FrameEvent → Frames → Prop
  | alloc {s : Frames} {p : Nat} {m : PhysMem} : s.alloc.allocFrame = some (p, m) →
      FrameStep s .allocFrame ⟨m, p :: s.held, s.released.erase p⟩
  | dealloc {s : Frames} {p : Nat} {m : PhysMem} : p ∈ s.held → s.alloc.deallocFrame p = some m →
      FrameStep s (.deallocFrame p) ⟨m, s.held.erase p, p :: s.released⟩
  | write {s : Frames} {mem : Mem} :
      (∀ a, (∀ f ∈ s.held, ¬ (f ≤ a ∧ a < f + frameSize)) → mem a = s.alloc.mem a) →
      FrameStep s (.write mem) ⟨{ s.alloc with mem := mem }, s.held, s.released⟩

/-- `init` on a range. -/
def FramesInit (start size : Nat) (s : Frames) : Prop :=
  s.held = [] ∧ s.released = [] ∧ ∃ mem, PhysMem.init mem start size = some s.alloc

/-- **What holds between calls.** -/
structure FramesOk (start size : Nat) (s : Frames) : Prop where
  free : Listed s.alloc.mem s.alloc.firstFree s.released
  nodup : (s.held ++ s.released).Nodup
  count : s.held.length + s.released.length = (s.alloc.avail - start) / frameSize
  alloc : ∀ p m, s.alloc.allocFrame = some (p, m) → p % frameSize = 0 ∧
    (start ≤ p ∧ p + frameSize ≤ start + size) ∧ p ∉ s.held ∧ ∀ k, k < frameSize → m.mem (p + k) = 0
  panic : s.alloc.allocFrame = none → ∀ f, f % frameSize = 0 → start ≤ f → f < start + size → f ∈ s.held

/-! ## Invariant -/

/-- The frames held and released are those below `avail`. -/
structure FramesInv (start size : Nat) (s : Frames) : Prop where
  startAligned : start % frameSize = 0
  sizeAligned : size % frameSize = 0
  noOverflow : start + size < 4294967296
  limit : s.alloc.limit = start + size
  availLow : start ≤ s.alloc.avail
  availHigh : s.alloc.avail ≤ start + size
  availAligned : s.alloc.avail % frameSize = 0
  free : Listed s.alloc.mem s.alloc.firstFree s.released
  nodup : (s.held ++ s.released).Nodup
  frames : ∀ f, f ∈ s.held ++ s.released ↔ f % frameSize = 0 ∧ start ≤ f ∧ f < s.alloc.avail
  count : s.held.length + s.released.length = (s.alloc.avail - start) / frameSize

variable {start size : Nat} {s s' : Frames} {p : Nat} {m : PhysMem} {l : List Nat}

theorem FramesInv.released_frame (hI : FramesInv start size s) {f : Nat} (hf : f ∈ s.released) :
    f % frameSize = 0 ∧ start ≤ f ∧ f < s.alloc.avail ∧ f ∉ s.held := by
  obtain ⟨h1, h2, h3⟩ := (hI.frames f).1 (List.mem_append_right _ hf)
  refine ⟨h1, h2, h3, ?_⟩
  intro hheld
  exact (List.nodup_append.1 hI.nodup).2.2 f hheld f hf rfl

/-- A frame of the range ends in it. -/
theorem FramesInv.frame_end (hI : FramesInv start size s) {f : Nat} (hal : f % frameSize = 0)
    (hf : f < start + size) : f + frameSize ≤ start + size := by
  have h1 := hI.startAligned
  have h2 := hI.sizeAligned
  rw [frameSize_eq] at *
  omega

theorem framesInv_init (hover : start + size < 4294967296) (h : FramesInit start size s) :
    FramesInv start size s := by
  obtain ⟨hheld, hrel, mem, hinit⟩ := h
  rw [PhysMem.init] at hinit
  by_cases hs : start % frameSize = 0
  · rw [if_pos hs] at hinit
    by_cases hn : size % frameSize = 0
    · rw [if_pos hn] at hinit
      have halloc := (Option.some.inj hinit).symm
      refine ⟨hs, hn, hover, ?_, ?_, ?_, ?_, ?_, ?_, ?_, ?_⟩
      · rw [halloc]
        exact u32_of_lt hover
      · rw [halloc]
      · rw [halloc]
        exact Nat.le_add_right _ _
      · rw [halloc]
        exact hs
      · rw [halloc, hrel]
        rfl
      · rw [hheld, hrel]
        exact List.nodup_nil
      · intro f
        rw [halloc, hheld, hrel]
        simp only [List.append_nil, List.not_mem_nil, false_iff]
        omega
      · rw [halloc, hheld, hrel]
        simp
    · rw [if_neg hn] at hinit
      cases hinit
  · rw [if_neg hs] at hinit
    cases hinit

/-! ## `alloc_frame` -/

/-- How a frame is handed out: the frame released last, or else one that never was handed out. -/
theorem FramesInv.allocFrame_cases (hI : FramesInv start size s) :
    (∃ f l, s.released = f :: l ∧ s.alloc.firstFree = f ∧ s.alloc.allocFrame = some (f,
      ⟨bzero s.alloc.mem f frameSize, word s.alloc.mem f, s.alloc.avail, s.alloc.limit⟩)) ∨
    (s.released = [] ∧ s.alloc.firstFree = 0 ∧ s.alloc.avail < start + size ∧ s.alloc.allocFrame =
      some (s.alloc.avail, ⟨bzero s.alloc.mem s.alloc.avail frameSize, 0, s.alloc.avail + frameSize,
        s.alloc.limit⟩)) ∨
    (s.released = [] ∧ s.alloc.avail = start + size ∧ s.alloc.allocFrame = none) := by
  have hlisted := hI.free
  have hhigh := hI.availHigh
  have hlimit := hI.limit
  have hav := hI.availAligned
  cases hrel : s.released with
  | cons f l =>
    rw [hrel] at hlisted
    obtain ⟨hfirst, hne, -⟩ := hlisted
    have hal := (hI.released_frame (f := f) (by simp [hrel])).1
    refine Or.inl ⟨f, l, rfl, hfirst, ?_⟩
    rw [PhysMem.allocFrame]
    simp only [hfirst]
    rw [if_pos hne]
    simp only
    rw [if_pos hal]
  | nil =>
    rw [hrel] at hlisted
    have hfirst : s.alloc.firstFree = 0 := hlisted
    by_cases hend : s.alloc.avail = s.alloc.limit
    · refine Or.inr (Or.inr ⟨rfl, by omega, ?_⟩)
      rw [PhysMem.allocFrame]
      simp only [hfirst]
      rw [if_neg (by simp), if_pos hend]
    · have hbound := hI.frame_end hav (by omega)
      have hover := hI.noOverflow
      refine Or.inr (Or.inl ⟨rfl, hfirst, by omega, ?_⟩)
      rw [PhysMem.allocFrame]
      simp only [hfirst]
      rw [if_neg (by simp), if_neg hend]
      simp only
      rw [if_pos hav, u32_of_lt (by omega)]

theorem FramesInv.alloc (hI : FramesInv start size s) (h : s.alloc.allocFrame = some (p, m)) :
    FramesInv start size ⟨m, p :: s.held, s.released.erase p⟩ := by
  rcases hI.allocFrame_cases with ⟨f, l, hrel, hfirst, heq⟩ | ⟨hrel, hfirst, hlt, heq⟩ | ⟨-, -, hnone⟩
  · -- the frame released last
    rw [heq] at h
    obtain ⟨rfl, rfl⟩ := Prod.mk.inj (Option.some.inj h)
    have hframe := fun g (hg : g ∈ f :: l) => hI.released_frame (f := g) (by rw [hrel]; exact hg)
    have hperm : (f :: s.held ++ l).Perm (s.held ++ s.released) := by
      rw [hrel]
      exact List.perm_middle.symm
    have hlisted := hI.free
    have hnodup := (hperm.nodup_iff).2 hI.nodup
    have hcount := hI.count
    rw [hrel] at hlisted hcount
    rw [hrel, List.erase_cons_head]
    refine ⟨hI.startAligned, hI.sizeAligned, hI.noOverflow, hI.limit, hI.availLow, hI.availHigh,
      hI.availAligned, ?_, hnodup, ?_, ?_⟩
    · refine Listed.congr ?_ hlisted.2.2
      intro g hg
      refine keeps_bzero (hframe f (by simp)).1 (hframe g (by simp [hg])).1 ?_
      rintro rfl
      exact (List.nodup_append.1 hnodup).2.2 g (by simp) g hg rfl
    · exact fun g => hperm.mem_iff.trans (hI.frames g)
    · rw [List.length_cons] at hcount
      show s.held.length + 1 + l.length = (s.alloc.avail - start) / frameSize
      omega
  · -- one that never was handed out
    rw [heq] at h
    obtain ⟨rfl, rfl⟩ := Prod.mk.inj (Option.some.inj h)
    have hav := hI.availAligned
    have hlow := hI.availLow
    have hs := hI.startAligned
    have hcount := hI.count
    have hnew : s.alloc.avail ∉ s.held ++ s.released := by
      rw [hI.frames]
      omega
    have hnodup := List.nodup_cons.2 ⟨hnew, hI.nodup⟩
    rw [hrel] at hcount hnodup ⊢
    refine ⟨hs, hI.sizeAligned, hI.noOverflow, hI.limit, ?_, hI.frame_end hav hlt, ?_, rfl, ?_, ?_, ?_⟩
    · show start ≤ s.alloc.avail + frameSize
      omega
    · show (s.alloc.avail + frameSize) % frameSize = 0
      rw [Nat.add_mod_right]
      exact hav
    · rw [List.erase_nil, List.append_nil]
      rw [List.append_nil] at hnodup
      exact hnodup
    · intro f
      have hold := hI.frames f
      rw [hrel, List.append_nil] at hold
      rw [List.erase_nil, List.append_nil, List.mem_cons, hold]
      show _ ↔ f % frameSize = 0 ∧ start ≤ f ∧ f < s.alloc.avail + frameSize
      rw [frameSize_eq] at *
      omega
    · rw [List.erase_nil, List.length_cons, List.length_nil]
      rw [List.length_nil] at hcount
      show s.held.length + 1 + 0 = (s.alloc.avail + frameSize - start) / frameSize
      rw [frameSize_eq] at *
      omega
  · rw [hnone] at h
    cases h

/-! ## `dealloc_frame` and writes -/

theorem FramesInv.dealloc (hI : FramesInv start size s) (hp : p ∈ s.held) (hp0 : p ≠ 0)
    (h : s.alloc.deallocFrame p = some m) :
    FramesInv start size ⟨m, s.held.erase p, p :: s.released⟩ := by
  obtain ⟨hal, hlow, hlt⟩ := (hI.frames p).1 (List.mem_append_left _ hp)
  rw [PhysMem.deallocFrame, if_pos hal] at h
  obtain rfl := Option.some.inj h
  have hperm : (s.held.erase p ++ p :: s.released).Perm (s.held ++ s.released) :=
    List.perm_middle.trans ((List.perm_cons_erase hp).symm.append_right s.released)
  have hfirst : s.alloc.firstFree < 4294967296 := by
    have hlisted := hI.free
    have hhigh := hI.availHigh
    have hover := hI.noOverflow
    cases hrel : s.released with
    | nil =>
      rw [hrel] at hlisted
      have hz : s.alloc.firstFree = 0 := hlisted
      omega
    | cons f l =>
      rw [hrel] at hlisted
      have hf := (hI.released_frame (f := f) (by simp [hrel])).2.2.1
      have heq : s.alloc.firstFree = f := hlisted.1
      omega
  refine ⟨hI.startAligned, hI.sizeAligned, hI.noOverflow, hI.limit, hI.availLow, hI.availHigh,
    hI.availAligned, ⟨rfl, hp0, ?_⟩, (hperm.nodup_iff).2 hI.nodup, ?_, ?_⟩
  · show Listed (setWord s.alloc.mem p s.alloc.firstFree) (word (setWord s.alloc.mem p s.alloc.firstFree) p) _
    rw [word_setWord hfirst]
    refine Listed.congr ?_ hI.free
    intro f hf
    obtain ⟨hfal, -, -, hnot⟩ := hI.released_frame hf
    apply same_setWord
    have hne : p ≠ f := by
      rintro rfl
      exact hnot hp
    rcases frames_apart hal hfal hne with h1 | h1
    · rw [frameSize_eq] at h1
      exact Or.inl (by omega)
    · exact Or.inr h1
  · exact fun f => hperm.mem_iff.trans (hI.frames f)
  · have hcount := hI.count
    have hlen := List.length_pos_of_mem hp
    rw [List.length_erase_of_mem hp, List.length_cons]
    show _ = (s.alloc.avail - start) / frameSize
    omega

/-- What owners write does not touch the free list. -/
theorem FramesInv.write (hI : FramesInv start size s) {mem : Mem}
    (hw : ∀ a, (∀ f ∈ s.held, ¬ (f ≤ a ∧ a < f + frameSize)) → mem a = s.alloc.mem a) :
    FramesInv start size ⟨{ s.alloc with mem := mem }, s.held, s.released⟩ := by
  refine ⟨hI.startAligned, hI.sizeAligned, hI.noOverflow, hI.limit, hI.availLow, hI.availHigh,
    hI.availAligned, Listed.congr ?_ hI.free, hI.nodup, hI.frames, hI.count⟩
  intro f hf a h1 h2
  obtain ⟨hfal, -, -, hnot⟩ := hI.released_frame hf
  refine hw a ?_
  rintro g hg ⟨h3, h4⟩
  have hgal := ((hI.frames g).1 (List.mem_append_left _ hg)).1
  have hne : g ≠ f := by
    rintro rfl
    exact hnot hg
  rcases frames_apart hgal hfal hne with h | h
  · omega
  · omega

/-! ## The result -/

theorem FramesInv.ok (hI : FramesInv start size s) : FramesOk start size s := by
  refine ⟨hI.free, hI.nodup, hI.count, ?_, ?_⟩
  · intro p m h
    rcases hI.allocFrame_cases with ⟨f, l, hrel, -, heq⟩ | ⟨hrel, -, hlt, heq⟩ | ⟨-, -, hnone⟩
    · rw [heq] at h
      obtain ⟨rfl, rfl⟩ := Prod.mk.inj (Option.some.inj h)
      obtain ⟨hal, hlow, hlt, hnot⟩ := hI.released_frame (f := f) (by simp [hrel])
      have hhigh := hI.availHigh
      exact ⟨hal, ⟨hlow, hI.frame_end hal (by omega)⟩, hnot, fun k hk => bzero_at hk⟩
    · rw [heq] at h
      obtain ⟨rfl, rfl⟩ := Prod.mk.inj (Option.some.inj h)
      refine ⟨hI.availAligned, ⟨hI.availLow, hI.frame_end hI.availAligned hlt⟩, ?_, fun k hk => bzero_at hk⟩
      intro hheld
      have := (hI.frames _).1 (List.mem_append_left _ hheld)
      omega
    · rw [hnone] at h
      cases h
  · intro hnone f hal hlow hhigh
    rcases hI.allocFrame_cases with ⟨f, l, hrel, -, heq⟩ | ⟨hrel, -, hlt, heq⟩ | ⟨hrel, hend, -⟩
    · rw [heq] at hnone
      cases hnone
    · rw [heq] at hnone
      cases hnone
    · have hin := (hI.frames f).2 ⟨hal, hlow, by omega⟩
      rw [hrel, List.append_nil] at hin
      exact hin

/-- **In every run that does not release a frame at address 0**, `alloc_frame` hands out a zeroed and aligned
    frame of the range that no one holds, the free list is that of the released frames, those held and
    those free are all that have been handed out, and nothing is left in the range when it panics. -/
theorem frames_ok (hover : start + size < 4294967296)
    (hr : Guarded (FramesInit start size) FrameStep (fun _ e => ∀ p, e = .deallocFrame p → p ≠ 0) s) :
    FramesOk start size s := by
  refine (Guarded.invariant (I := FramesInv start size) ?_ ?_ hr).ok
  · exact fun s h => framesInv_init hover h
  · intro s e s' _ hI hok hstep
    cases hstep with
    | alloc h => exact hI.alloc h
    | dealloc hp h => exact hI.dealloc hp (hok _ rfl) h
    | write hw => exact hI.write hw

/-- Two frames from `start` on, in memory that is zero: one of them, or both, have been handed out. -/
theorem framesInit_two (start : Nat) (hs : start % frameSize = 0) (hover : start + 8192 < 4294967296) :
    FramesInit start 8192 ⟨⟨fun _ => 0, 0, start, start + 8192⟩, [], []⟩ := by
  refine ⟨rfl, rfl, fun _ => 0, ?_⟩
  rw [PhysMem.init, if_pos hs, if_pos (by decide), u32_of_lt hover]

/-- The first frame handed out and released again. -/
theorem frames_ok_released : ∃ s, s.released = [4096] ∧ FramesOk 4096 8192 s := by
  have hinit := framesInit_two 4096 (by decide) (by decide)
  have halloc : PhysMem.allocFrame ⟨fun _ => 0, 0, 4096, 4096 + 8192⟩ =
      some (4096, ⟨bzero (fun _ => 0) 4096 frameSize, 0, 8192, 4096 + 8192⟩) := by
    simp [PhysMem.allocFrame, u32_of_lt]
  have hrun : Guarded (FramesInit 4096 8192) FrameStep (fun _ e => ∀ p, e = .deallocFrame p → p ≠ 0)
      ⟨⟨bzero (fun _ => 0) 4096 frameSize, 0, 8192, 4096 + 8192⟩, [4096], []⟩ :=
    Guarded.next (Guarded.start hinit) (fun p h => by cases h) (FrameStep.alloc halloc)
  have hrun' := hrun.next (a := .deallocFrame 4096) (fun p h => by cases h; decide)
    (FrameStep.dealloc (by simp) (if_pos (by decide)))
  exact ⟨_, rfl, frames_ok (by decide) hrun'⟩

/-- With a range from 0 on, both frames are released, the one at 0 last: the list of free frames is empty
    then, and there is none to hand out, though no one holds any. -/
theorem frames_zeroLost : ¬ ∀ start size s, start + size < 4294967296 →
    Reached (FramesInit start size) FrameStep s → FramesOk start size s := by
  intro hall
  have hinit := framesInit_two 0 (by decide) (by decide)
  have h1 : PhysMem.allocFrame ⟨fun _ => 0, 0, 0, 0 + 8192⟩ =
      some (0, ⟨bzero (fun _ => 0) 0 frameSize, 0, 4096, 0 + 8192⟩) := by
    simp [PhysMem.allocFrame, u32_of_lt]
  have h2 : PhysMem.allocFrame ⟨bzero (fun _ => 0) 0 frameSize, 0, 4096, 0 + 8192⟩ =
      some (4096, ⟨bzero (bzero (fun _ => 0) 0 frameSize) 4096 frameSize, 0, 8192, 0 + 8192⟩) := by
    simp [PhysMem.allocFrame, u32_of_lt]
  generalize bzero (bzero (fun _ => 0) 0 frameSize) 4096 frameSize = mem at h2
  have hrun := ((Reached.start hinit).next (FrameStep.alloc h1)).next (FrameStep.alloc h2)
  have hrun₁ := hrun.next (FrameStep.dealloc (p := 4096) (by simp) (if_pos (by decide)))
  have hrun₂ := hrun₁.next (FrameStep.dealloc (p := 0) (by simp) (if_pos (by decide)))
  have hnone : PhysMem.allocFrame ⟨setWord (setWord mem 4096 0) 0 4096, 0, 8192, 0 + 8192⟩ = none := by
    simp [PhysMem.allocFrame]
  have hheld := (hall 0 8192 _ (by decide) hrun₂).panic hnone 0 (by decide) (Nat.le_refl 0) (by decide)
  simp at hheld

end BadApple
