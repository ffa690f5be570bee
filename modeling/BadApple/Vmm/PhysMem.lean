/-
  `PhysMem`: physical memory and its frames (kernel/physmem.cc).

  1. **Data** — all of memory, and the globals of the allocator.  Free frames are linked through their
     first word, from `firstFree`; frames from `avail` on have never been handed out.
  2. **Operations** — `alloc_frame` and `dealloc_frame`, which run under a lock; `none` is a panic or a
     failed assertion.
  3. **Invariant** — `Pool m l`: `l` is the list of free frames.  A frame is `InUse` when it has been
     handed out and not given back; each operation has one lemma saying what it does to these two.
-/
import BadApple.Word
import BadApple.Lib.Memory

namespace BadApple

open Memory

/-! ## Data and operations -/

/-- Memory and the globals of `PhysMem`. -/
structure PhysMem where
  mem : Mem
  firstFree : Nat
  avail : Nat
  limit : Nat

namespace PhysMem

/-- `init`, on memory as it is then. -/
def init (mem : Mem) (start size : Nat) : Option PhysMem :=
  if start % frameSize = 0 then
    if size % frameSize = 0 then some ⟨mem, 0, start, u32 (start + size)⟩ else none
  else none

/-- `alloc_frame`. -/
def allocFrame (m : PhysMem) : Option (Nat × PhysMem) :=
  let taken : Option (Nat × PhysMem) :=
    if m.firstFree ≠ 0 then some (m.firstFree, { m with firstFree := word m.mem m.firstFree })
    else if m.avail = m.limit then none
    else some (m.avail, { m with avail := u32 (m.avail + frameSize) })
  match taken with
  | none => none
  | some (p, m) =>
    if p % frameSize = 0 then some (p, { m with mem := bzero m.mem p frameSize }) else none

/-- `dealloc_frame`. -/
def deallocFrame (m : PhysMem) (p : Nat) : Option PhysMem :=
  if p % frameSize = 0 then some { m with mem := setWord m.mem p m.firstFree, firstFree := p } else none

end PhysMem

variable {m m' : PhysMem} {mem mem' : Mem} {l l' : List Nat} {f g p q i : Nat}

/-! ## Invariant -/

/-- The free frames, read off memory from the first one. -/
def Listed (mem : Mem) : Nat → List Nat → Prop
  | p, [] => p = 0
  | p, f :: l => p = f ∧ f ≠ 0 ∧ Listed mem (word mem f) l

/-- `l` is the list of free frames. -/
structure Pool (m : PhysMem) (l : List Nat) : Prop where
  listed : Listed m.mem m.firstFree l
  nodup : l.Nodup
  frames : ∀ f ∈ l, f % frameSize = 0 ∧ 0 < f ∧ f < m.avail
  availAligned : m.avail % frameSize = 0
  limitAligned : m.limit % frameSize = 0
  availPos : 0 < m.avail
  availLe : m.avail ≤ m.limit
  limitLt : m.limit < 4294967296

/-- A frame that has been handed out and not given back. -/
structure InUse (m : PhysMem) (l : List Nat) (f : Nat) : Prop where
  aligned : f % frameSize = 0
  pos : 0 < f
  lt : f < m.avail
  notFree : f ∉ l

/-- How many frames can still be handed out. -/
def freeFrames (m : PhysMem) (l : List Nat) : Nat := l.length + (m.limit - m.avail) / frameSize

/-- The contents of frame `f` stay. -/
def Keeps (mem' mem : Mem) (f : Nat) : Prop := Same mem' mem f frameSize

/-- Two frames are the same or lie apart. -/
theorem frames_apart (hf : f % frameSize = 0) (hg : g % frameSize = 0) (hne : f ≠ g) :
    f + frameSize ≤ g ∨ g + frameSize ≤ f := by
  rw [frameSize_eq] at hf hg ⊢
  omega

theorem Keeps.trans {mem₁ mem₂ mem₃ : Mem} (h : Keeps mem₃ mem₂ f) (h' : Keeps mem₂ mem₁ f) :
    Keeps mem₃ mem₁ f := Same.trans h h'

/-- Links of frames that are kept. -/
theorem Listed.congr (hk : ∀ f ∈ l, Keeps mem' mem f) :
    ∀ {p : Nat}, Listed mem p l → Listed mem' p l := by
  induction l with
  | nil => exact fun h => h
  | cons f l ih =>
    rintro p ⟨hp, hf, h⟩
    refine ⟨hp, hf, ?_⟩
    rw [Same.word_eq (hk f (by simp)) (Nat.le_refl f) (by rw [frameSize_eq]; omega)]
    exact ih (fun g hg => hk g (by simp [hg])) h

/-- Whether a frame is in use does not depend on memory. -/
theorem InUse.congr (h : InUse m l f) (ha : m'.avail = m.avail) : InUse m' l f :=
  ⟨h.aligned, h.pos, ha ▸ h.lt, h.notFree⟩

/-- **`init`** starts without free frames, at the start of the range. -/
theorem Pool.init {start size : Nat} (hs : start % frameSize = 0) (hn : size % frameSize = 0)
    (hpos : 0 < start) (hend : start + size < 4294967296) (mem : Mem) :
    ∃ m, PhysMem.init mem start size = some m ∧ m.avail = start ∧ m.limit = start + size ∧ Pool m [] := by
  refine ⟨⟨mem, 0, start, u32 (start + size)⟩, ?_, rfl, u32_of_lt hend, ?_⟩
  · unfold PhysMem.init
    rw [if_pos hs, if_pos hn]
  · rw [u32_of_lt hend]
    refine ⟨rfl, List.nodup_nil, by simp, hs, ?_, hpos, Nat.le_add_right _ _, hend⟩
    rw [frameSize_eq] at *
    show (start + size) % 4096 = 0
    omega

/-- Frames are below the end of memory. -/
theorem InUse.lt_word (hP : Pool m l) (hf : InUse m l f) : f < 4294967296 :=
  Nat.lt_of_lt_of_le hf.lt (Nat.le_of_lt (Nat.lt_of_le_of_lt hP.availLe hP.limitLt))

/-- Writes that keep the free frames. -/
theorem Pool.write (hP : Pool m l) (hk : ∀ g ∈ l, Keeps mem' m.mem g) : Pool { m with mem := mem' } l :=
  ⟨Listed.congr hk hP.listed, hP.nodup, hP.frames, hP.availAligned, hP.limitAligned, hP.availPos,
    hP.availLe, hP.limitLt⟩

/-- A write to a frame in use keeps the free frames. -/
theorem Pool.writeFrame (hP : Pool m l) (hf : InUse m l f)
    (hk : ∀ g, g % frameSize = 0 → g ≠ f → Keeps mem' m.mem g) : Pool { m with mem := mem' } l := by
  refine hP.write fun g hg => hk g (hP.frames g hg).1 ?_
  rintro rfl
  exact hf.notFree hg

/-! ## `alloc_frame` -/

/-- What handing out frame `p` does. -/
structure Allocated (m : PhysMem) (l : List Nat) (p : Nat) (m' : PhysMem) (l' : List Nat) : Prop where
  pool : Pool m' l'
  aligned : p % frameSize = 0
  pos : 0 < p
  lt : p < 4294967296
  fresh : ¬ InUse m l p
  inUse : ∀ f, InUse m' l' f ↔ InUse m l f ∨ f = p
  zero : ∀ k, k < frameSize → m'.mem (p + k) = 0
  keeps : ∀ f, f % frameSize = 0 → f ≠ p → Keeps m'.mem m.mem f
  count : freeFrames m l = freeFrames m' l' + 1

/-- `bzero` of one frame keeps the others. -/
theorem keeps_bzero (hp : p % frameSize = 0) (hf : f % frameSize = 0) (hne : f ≠ p) :
    Keeps (bzero mem p frameSize) mem f := by
  apply same_bzero
  rcases frames_apart hp hf (Ne.symm hne) with h | h
  · exact Or.inl h
  · exact Or.inr h

/-- `memcpy` to a frame keeps the others. -/
theorem keeps_memcpy (hp : p % frameSize = 0) (hf : f % frameSize = 0) (hne : f ≠ p) :
    Keeps (Memory.memcpy mem p q frameSize) mem f := by
  apply same_memcpy
  rcases frames_apart hp hf (Ne.symm hne) with h | h
  · exact Or.inl h
  · exact Or.inr h

/-- So does a link written to its first word. -/
theorem keeps_setWord {w : Nat} (hp : p % frameSize = 0) (hf : f % frameSize = 0) (hne : f ≠ p) :
    Keeps (setWord mem p w) mem f := by
  apply same_setWord
  rcases frames_apart hp hf (Ne.symm hne) with h | h
  · rw [frameSize_eq] at h
    exact Or.inl (by omega)
  · exact Or.inr h

/-- **Handing out a frame**, as long as there is one. -/
theorem Pool.alloc (hP : Pool m l) (hfree : 0 < freeFrames m l) :
    ∃ p m' l', m.allocFrame = some (p, m') ∧ Allocated m l p m' l' := by
  obtain ⟨hlisted, hnodup, hframes, hav, hlim, hpos, hle, hlt⟩ := hP
  cases l with
  | cons p l =>
    -- the first free frame
    obtain ⟨hp, hp0, hrest⟩ := hlisted
    obtain ⟨hal, -, hpa⟩ := hframes p (by simp)
    obtain ⟨hnot, hnodup'⟩ := List.nodup_cons.1 hnodup
    have hkeeps : ∀ f, f % frameSize = 0 → f ≠ p → Keeps (bzero m.mem p frameSize) m.mem f :=
      fun f hf hne => keeps_bzero hal hf hne
    refine ⟨p, ⟨bzero m.mem p frameSize, word m.mem p, m.avail, m.limit⟩, l, ?_, ?_⟩
    · unfold PhysMem.allocFrame
      simp only
      rw [if_pos (by rw [hp]; exact hp0)]
      simp only
      rw [hp, if_pos hal]
    · refine ⟨⟨?_, hnodup', fun f hf => hframes f (by simp [hf]), hav, hlim, hpos, hle, hlt⟩, hal,
        Nat.pos_of_ne_zero hp0, by omega, fun hin => hin.notFree (by simp), fun f => ?_,
        fun k hk => bzero_at hk, hkeeps, ?_⟩
      · refine Listed.congr (fun f hf => hkeeps f (hframes f (by simp [hf])).1 ?_) hrest
        rintro rfl
        exact hnot hf
      · constructor
        · rintro ⟨h1, h2, h3, h4⟩
          by_cases hfp : f = p
          · exact Or.inr hfp
          · exact Or.inl ⟨h1, h2, h3, by simp [hfp, h4]⟩
        · rintro (⟨h1, h2, h3, h4⟩ | rfl)
          · exact ⟨h1, h2, h3, fun hin => h4 (by simp [hin])⟩
          · exact ⟨hal, Nat.pos_of_ne_zero hp0, hpa, hnot⟩
      · unfold freeFrames
        simp only [List.length_cons]
        omega
  | nil =>
    have hp : m.firstFree = 0 := hlisted
    have hne : m.avail ≠ m.limit := by
      intro heq
      unfold freeFrames at hfree
      rw [heq, Nat.sub_self] at hfree
      simp at hfree
    rw [frameSize_eq] at hav hlim
    have hnext : u32 (m.avail + frameSize) = m.avail + 4096 := u32_of_lt (by rw [frameSize_eq]; omega)
    have hkeeps : ∀ f, f % frameSize = 0 → f ≠ m.avail → Keeps (bzero m.mem m.avail frameSize) m.mem f :=
      fun f hf hne => keeps_bzero hav hf hne
    refine ⟨m.avail, ⟨bzero m.mem m.avail frameSize, m.firstFree, m.avail + 4096, m.limit⟩, [], ?_, ?_⟩
    · unfold PhysMem.allocFrame
      simp only
      rw [if_neg (not_not.2 hp), if_neg hne]
      simp only [hnext]
      rw [if_pos (show m.avail % frameSize = 0 from hav)]
    · refine ⟨⟨hp, hnodup, by simp, ?_, hlim, ?_, ?_, hlt⟩, hav, hpos, by omega,
        fun hin => absurd hin.lt (Nat.lt_irrefl _), fun f => ?_, fun k hk => bzero_at hk, hkeeps, ?_⟩
      · show (m.avail + 4096) % frameSize = 0
        rw [frameSize_eq]
        omega
      · show 0 < m.avail + 4096
        omega
      · show m.avail + 4096 ≤ m.limit
        omega
      · constructor
        · rintro ⟨h1, h2, h3, h4⟩
          have h3' : f < m.avail + 4096 := h3
          rw [frameSize_eq] at h1
          by_cases hfa : f = m.avail
          · exact Or.inr hfa
          · exact Or.inl ⟨h1, h2, by omega, h4⟩
        · rintro (⟨h1, h2, h3, h4⟩ | rfl)
          · exact ⟨h1, h2, Nat.lt_add_right _ h3, h4⟩
          · exact ⟨hav, hpos, Nat.lt_add_of_pos_right (by omega), by simp⟩
      · unfold freeFrames
        simp only [List.length_nil, frameSize_eq]
        omega

/-- There is nothing to hand out when no frame is left. -/
theorem Pool.alloc_none (hP : Pool m l) (hfree : freeFrames m l = 0) : m.allocFrame = none := by
  have hav := hP.availAligned
  have hlim := hP.limitAligned
  have hle := hP.availLe
  unfold freeFrames at hfree
  rw [frameSize_eq] at hfree hav hlim
  obtain rfl : l = [] := List.length_eq_zero_iff.1 (by omega)
  have hfirst : m.firstFree = 0 := hP.listed
  have hend : m.avail = m.limit := by omega
  unfold PhysMem.allocFrame
  simp only
  rw [if_neg (not_not.2 hfirst), if_pos hend]

/-! ## `dealloc_frame` -/

/-- **Giving back a frame.** -/
theorem Pool.dealloc (hP : Pool m l) (hf : InUse m l f) :
    ∃ m', m.deallocFrame f = some m' ∧ Pool m' (f :: l) ∧
      (∀ g, InUse m' (f :: l) g ↔ InUse m l g ∧ g ≠ f) ∧
      ∀ g, g % frameSize = 0 → g ≠ f → Keeps m'.mem m.mem g := by
  obtain ⟨hlisted, hnodup, hframes, hav, hlim, hpos, hle, hlt⟩ := hP
  obtain ⟨hal, hf0, hfa, hnot⟩ := hf
  have hfirst : m.firstFree < 4294967296 := by
    cases l with
    | nil =>
      have hz : m.firstFree = 0 := hlisted
      omega
    | cons g l =>
      have := (hframes g (by simp)).2.2
      have hg : m.firstFree = g := hlisted.1
      omega
  have hkeeps : ∀ g, g % frameSize = 0 → g ≠ f → Keeps (setWord m.mem f m.firstFree) m.mem g :=
    fun g hg hne => keeps_setWord hal hg hne
  refine ⟨⟨setWord m.mem f m.firstFree, f, m.avail, m.limit⟩, ?_, ?_, fun g => ?_, hkeeps⟩
  · unfold PhysMem.deallocFrame
    rw [if_pos hal]
  · refine ⟨⟨rfl, Nat.ne_of_gt hf0, ?_⟩, List.nodup_cons.2 ⟨hnot, hnodup⟩, ?_, hav, hlim, hpos, hle, hlt⟩
    · rw [word_setWord hfirst]
      refine Listed.congr (fun g hg => hkeeps g (hframes g hg).1 ?_) hlisted
      rintro rfl
      exact hnot hg
    · intro g hg
      rcases List.mem_cons.1 hg with rfl | hg
      · exact ⟨hal, hf0, hfa⟩
      · exact hframes g hg
  · constructor
    · rintro ⟨h1, h2, h3, h4⟩
      rw [List.mem_cons] at h4
      exact ⟨⟨h1, h2, h3, fun hin => h4 (Or.inr hin)⟩, fun heq => h4 (Or.inl heq)⟩
    · rintro ⟨⟨h1, h2, h3, h4⟩, hne⟩
      refine ⟨h1, h2, h3, ?_⟩
      rw [List.mem_cons]
      rintro (heq | hin)
      · exact hne heq
      · exact h4 hin

end BadApple
