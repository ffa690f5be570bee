/-
  Every TCB is in one place (kernel/threads.h, kernel/threads.cc).

  1. **Threads that stop** have nothing left to do, so that a routine that has a TCB in its hands belongs to
     a thread that goes on (`StopsLast`, `Ended`).
  2. **The invariant** — `ThreadsOk`; every step keeps it, on whatever core it happens.
  3. **The result** — `tcbs_inOnePlace`.
-/
import BadApple.Threads.Places

namespace BadApple

open Function (update)

open Moves (At Move)

namespace Threads

/-! ## What routines leave to do -/

/-- The TCBs in the hands of a routine whose threads have stopped. -/
def Frame.ended : Frame → List Nat
  | .reaperAdd u | .delete u => [u]
  | .reaping us => us
  | _ => []

/-- `stop` is called from outside of all routines, so that nothing is to be done after it. -/
def StopsLast (fs : List Frame) : Prop :=
  ∀ before after, fs = before ++ .block .stop :: after → after = []

/-- A thread has stopped: it is on its way to the reaper queue, on it, or about to be deleted. -/
def Kernel.Ended (k : Kernel) (u : Nat) : Prop :=
  u ∈ k.reaper ∨
    (∃ c, (k.cores c).request = some (u, .stop) ∨ (k.cores c).phase = .blocking u .stop) ∨
    ∃ who, ∃ f ∈ k.framesOf who, u ∈ f.ended

theorem StopsLast.nil : StopsLast [] := by
  intro before after h
  simp at h

theorem StopsLast.tail {f : Frame} {fs : List Frame} (h : StopsLast (f :: fs)) : StopsLast fs := by
  intro before after he
  apply h (f :: before) after
  rw [he, List.cons_append]

/-- Frames other than that of `stop` can be put on top. -/
theorem StopsLast.append {new fs : List Frame} (hnew : .block .stop ∉ new) (h : StopsLast fs) :
    StopsLast (new ++ fs) := by
  induction new with
  | nil => exact h
  | cons f new ih =>
    intro before after he
    cases before with
    | nil =>
      rw [List.cons_append, List.nil_append] at he
      exact absurd (List.mem_cons.2 (.inl (List.cons.inj he).1.symm)) hnew
    | cons g before =>
      rw [List.cons_append, List.cons_append] at he
      exact ih (fun hm => hnew (List.mem_cons_of_mem f hm)) before after (List.cons.inj he).2

theorem StopsLast.singleton {f : Frame} : StopsLast [f] := by
  intro before after h
  have hlen := congrArg List.length h
  rw [List.length_append, List.length_singleton, List.length_cons] at hlen
  exact List.eq_nil_of_length_eq_zero (by omega)

theorem StopsLast.eq_nil {fs : List Frame} (h : StopsLast (.block .stop :: fs)) : fs = [] :=
  h [] fs rfl

namespace Kernel

variable {k k' : Kernel} {who : Party} {keep : Bool} {f : Frame} {fs rest new : List Frame}

theorem framesOf_setFrames (k : Kernel) (fs : List Frame) (who other : Party) :
    (k.setFrames fs who).framesOf other = if other.place = who.place then fs else k.framesOf other := by
  cases who with
  | thread c t =>
    cases other with
    | thread c' t' =>
      show update k.frames t fs t' = _
      by_cases ht : t' = t
      · rw [ht, Function.update_self]
        exact (if_pos rfl).symm
      · have hp : (Party.thread c' t').place ≠ (Party.thread c t).place := fun h => ht (Place.thread.inj h)
        rw [Function.update_of_ne ht, if_neg hp]
        rfl
    | helper c' =>
      rw [if_neg (by simp [Party.place])]
      rfl
  | helper c =>
    cases other with
    | thread c' t' =>
      rw [if_neg (by simp [Party.place])]
      rfl
    | helper c' =>
      show (update k.cores c { k.cores c with todo := fs } c').todo = _
      by_cases hc : c' = c
      · rw [hc, Function.update_self]
        exact (if_pos rfl).symm
      · have hp : (Party.helper c').place ≠ (Party.helper c).place := fun h => hc (Place.core.inj h).1
        rw [Function.update_of_ne hc, if_neg hp]
        rfl

/-- What a step of a routine leaves to do, and what it does to the cores. -/
structure Effect (k k' : Kernel) (who : Party) (f : Frame) (rest new : List Frame) : Prop where
  frames : ∀ other, k'.framesOf other = if other.place = who.place then new ++ rest else k.framesOf other
  stop : .block .stop ∉ new
  ended : ∀ u, (u ∈ k'.reaper ∨ ∃ g ∈ new, u ∈ g.ended) → u ∈ k.reaper ∨ u ∈ f.ended
  cores : ∀ c, (k'.cores c).request = (k.cores c).request ∧
    ((k'.cores c).active = (k.cores c).active ∧ (k'.cores c).phase = (k.cores c).phase ∨
      ∃ t w, who = .thread c t ∧ f = .block w ∧ new = [] ∧ (k'.cores c).active = none ∧
        (k'.cores c).phase = .blocking t w)

/-- The frames of a thread: those of who runs are replaced, and all others are as they were. -/
theorem Effect.frames_thread (he : Effect k k' who f rest new) (hfs : k.framesOf who = f :: rest) (t : Nat) :
    k'.frames t = k.frames t ∧ (∀ c, who ≠ .thread c t) ∨
      k'.frames t = new ++ rest ∧ k.frames t = f :: rest := by
  have hf := he.frames (.thread 0 t)
  by_cases hp : (Party.thread 0 t).place = who.place
  · rw [if_pos hp] at hf
    cases who with
    | helper c => simp [Party.place] at hp
    | thread c t' =>
      obtain rfl : t = t' := Place.thread.inj hp
      exact .inr ⟨hf, hfs⟩
  · rw [if_neg hp] at hf
    refine .inl ⟨hf, ?_⟩
    rintro c rfl
    exact hp rfl

/-- Who has stopped after a step had stopped before it, or stops in it. -/
theorem Effect.of_ended {u : Nat} (he : Effect k k' who f rest new) (hfs : k.framesOf who = f :: rest)
    (hu : k'.Ended u) : k.Ended u ∨ (∃ c, who = .thread c u) ∧ f = .block .stop ∧ new = [] := by
  have hold : (u ∈ k.reaper ∨ u ∈ f.ended) → k.Ended u := by
    rintro (h | h)
    · exact .inl h
    · exact .inr (.inr ⟨who, f, by rw [hfs]; simp, h⟩)
  rcases hu with hu | ⟨c, hu | hu⟩ | ⟨other, g, hg, hu⟩
  · exact .inl (hold (he.ended u (.inl hu)))
  · rw [(he.cores c).1] at hu
    exact .inl (.inr (.inl ⟨c, .inl hu⟩))
  · rcases (he.cores c).2 with ⟨_, hphase⟩ | ⟨t, w, hwho, hf, hnew, _, hphase⟩
    · rw [hphase] at hu
      exact .inl (.inr (.inl ⟨c, .inr hu⟩))
    · rw [hphase] at hu
      obtain ⟨rfl, rfl⟩ := HelperPhase.blocking.inj hu
      exact .inr ⟨⟨c, hwho⟩, hf, hnew⟩
  · rw [he.frames other] at hg
    by_cases hp : other.place = who.place
    · rw [if_pos hp] at hg
      rcases List.mem_append.1 hg with hg | hg
      · exact .inl (hold (he.ended u (.inr ⟨g, hg, hu⟩)))
      · exact .inl (.inr (.inr ⟨who, g, by rw [hfs]; exact List.mem_cons_of_mem f hg, hu⟩))
    · rw [if_neg hp] at hg
      exact .inl (.inr (.inr ⟨other, g, hg, hu⟩))

/-- A step of a routine leaves each core in one thing. -/
theorem Effect.coreOk {c : Nat} (he : Effect k k' who f rest new) (hfs : k.framesOf who = f :: rest)
    (hthread : ∀ c t, who = .thread c t → (k.cores c).active = some t)
    (hhelper : ∀ c, who = .helper c → (k.cores c).active = none) (hok : CoreOk (k.cores c)) :
    CoreOk (k'.cores c) := by
  have htodo := he.frames (.helper c)
  obtain ⟨hreq, hcase⟩ := he.cores c
  by_cases hwho : who = .helper c
  · -- The helper of this core runs: no thread is active, and it has nothing in its hands besides.
    rcases hcase with ⟨hact, hphase⟩ | ⟨t, w, hw, _⟩
    · have hnone := hhelper c hwho
      refine ⟨fun h => absurd (hact.trans hnone) h, ?_, ?_⟩
      · rw [hreq, hphase]
        exact hok.request
      · intro hheld
        rw [hphase] at hheld
        have hnil := hok.held hheld
        rw [hwho] at hfs
        rw [show (k.cores c).todo = f :: rest from hfs] at hnil
        cases hnil
    · rw [hwho] at hw
      cases hw
  · have hp : (Party.helper c).place ≠ who.place := by
      intro hp
      cases who with
      | thread c' t => simp [Party.place] at hp
      | helper c' => exact hwho (by rw [(Place.core.inj hp).1])
    rw [if_neg hp] at htodo
    have htodo' : (k'.cores c).todo = (k.cores c).todo := htodo
    rcases hcase with ⟨hact, hphase⟩ | ⟨t, w, hw, _, _, hact, hphase⟩
    · refine ⟨?_, ?_, ?_⟩
      · rw [hact, hphase, htodo', hreq]
        exact hok.active
      · rw [hreq, hphase]
        exact hok.request
      · rw [hphase, htodo']
        exact hok.held
    · obtain ⟨_, hnil, hnone⟩ := hok.active (by rw [hthread c t hw]; simp)
      refine ⟨fun h => absurd hact h, fun h => absurd (hreq.trans hnone) h, fun _ => htodo'.trans hnil⟩

/-- A step that changes the cores only in what their helpers have to do. -/
theorem effect_setFrames {k₁ : Kernel} (hcores : k₁.cores = k.cores) (hframes : k₁.frames = k.frames)
    (hfs : fs = new ++ rest) (hstop : .block .stop ∉ new)
    (hended : ∀ u, (u ∈ k₁.reaper ∨ ∃ g ∈ new, u ∈ g.ended) → u ∈ k.reaper ∨ u ∈ f.ended) :
    Effect k (k₁.setFrames fs who) who f rest new := by
  rw [hfs]
  refine ⟨?_, hstop, ?_, ?_⟩
  · intro other
    rw [framesOf_setFrames]
    cases other with
    | thread c t =>
      show (if _ then _ else k₁.frames t) = _
      rw [hframes]
      rfl
    | helper c =>
      show (if _ then _ else (k₁.cores c).todo) = _
      rw [hcores]
      rfl
  · intro u hu
    apply hended u
    cases who <;> exact hu
  · intro c
    cases who with
    | thread c' t =>
      show (k₁.cores c).request = _ ∧ ((k₁.cores c).active = _ ∧ (k₁.cores c).phase = _ ∨ _)
      rw [hcores]
      exact ⟨rfl, .inl ⟨rfl, rfl⟩⟩
    | helper c' =>
      by_cases hc : c = c'
      · rw [hc]
        show (update k₁.cores c' _ c').request = _ ∧
          ((update k₁.cores c' _ c').active = _ ∧ (update k₁.cores c' _ c').phase = _ ∨ _)
        rw [Function.update_self, hcores]
        exact ⟨rfl, .inl ⟨rfl, rfl⟩⟩
      · show (update k₁.cores c' _ c).request = _ ∧
          ((update k₁.cores c' _ c).active = _ ∧ (update k₁.cores c' _ c).phase = _ ∨ _)
        rw [Function.update_of_ne hc, hcores]
        exact ⟨rfl, .inl ⟨rfl, rfl⟩⟩

theorem block_effect {c t : Nat} {w : Work} :
    Effect k ((k.setCore c { k.cores c with active := none, phase := .blocking t w }).setFrames rest
      (.thread c t)) (.thread c t) (.block w) rest [] := by
  refine ⟨?_, by simp, by simp +contextual [setFrames, setCore], ?_⟩
  · intro other
    rw [framesOf_setFrames]
    cases other with
    | thread c' t' => rfl
    | helper c' =>
      show (if _ then _ else (update k.cores c _ c').todo) = _
      by_cases hc : c' = c
      · rw [hc, Function.update_self]
        rfl
      · rw [Function.update_of_ne hc]
        rfl
  · intro c'
    show (update k.cores c _ c').request = _ ∧ ((update k.cores c _ c').active = _ ∧
      (update k.cores c _ c').phase = _ ∨ ∃ t' w', _ ∧ _ ∧ _ ∧ (update k.cores c _ c').active = _ ∧
        (update k.cores c _ c').phase = _)
    by_cases hc : c' = c
    · rw [hc, Function.update_self]
      exact ⟨rfl, .inr ⟨t, w, rfl, rfl, rfl, rfl, rfl⟩⟩
    · rw [Function.update_of_ne hc]
      exact ⟨rfl, .inl ⟨rfl, rfl⟩⟩

theorem sleepAdd_effect {c t secs : Nat} {sleeping : List Nat} {atJiffies : Nat → Nat} :
    Effect k ({ k with atJiffies := atJiffies }.setCore c
      { k.cores c with sleeping := sleeping, todo := rest }) (.helper c) (.sleepAdd t secs) rest [] := by
  refine ⟨?_, by simp, by simp +contextual [setCore], ?_⟩
  · intro other
    cases other with
    | thread c' t' =>
      rw [if_neg (by simp [Party.place])]
      rfl
    | helper c' =>
      show (update k.cores c _ c').todo = _
      by_cases hc : c' = c
      · rw [hc, Function.update_self]
        exact (if_pos rfl).symm
      · have hp : (Party.helper c').place ≠ (Party.helper c).place := fun h => hc (Place.core.inj h).1
        rw [Function.update_of_ne hc, if_neg hp]
        rfl
  · intro c'
    show (update k.cores c _ c').request = _ ∧
      ((update k.cores c _ c').active = _ ∧ (update k.cores c _ c').phase = _ ∨ _)
    by_cases hc : c' = c
    · rw [hc, Function.update_self]
      exact ⟨rfl, .inl ⟨rfl, rfl⟩⟩
    · rw [Function.update_of_ne hc]
      exact ⟨rfl, .inl ⟨rfl, rfl⟩⟩

/-- **A step of a routine** goes on with what comes after it, and with at most one thing before that. -/
theorem runFrame_effect (h : k.runFrame who keep rest f = some k') : ∃ new, Effect k k' who f rest new := by
  cases f with
  | create =>
    obtain rfl := Option.some.inj h
    exact ⟨[.ready k.created], effect_setFrames rfl rfl rfl (by simp) (by simp +contextual [Frame.ended])⟩
  | ready u =>
    obtain rfl := Option.some.inj h
    exact ⟨[], effect_setFrames rfl rfl rfl (by simp) (by simp +contextual [Frame.ended])⟩
  | reapAll =>
    obtain rfl := Option.some.inj h
    exact ⟨[.reaping k.reaper], effect_setFrames rfl rfl rfl (by simp) (by simp +contextual [Frame.ended])⟩
  | reaping us =>
    cases us with
    | nil =>
      obtain rfl := Option.some.inj h
      exact ⟨[], effect_setFrames rfl rfl rfl (by simp) (by simp +contextual [Frame.ended])⟩
    | cons u us =>
      obtain rfl := Option.some.inj h
      refine ⟨[if keep then .reaperAdd u else .delete u, .reaping us], effect_setFrames rfl rfl rfl ?_ ?_⟩
      · cases keep <;> simp
      · cases keep <;> simp [Frame.ended]
  | reaperAdd u =>
    obtain rfl := Option.some.inj h
    exact ⟨[.up reaperSem], effect_setFrames rfl rfl rfl (by simp) (by simp +contextual [Frame.ended])⟩
  | up s =>
    by_cases hs : s < k.nSems
    · cases hw : (k.sems s).waiting with
      | nil =>
        rw [runFrame, if_pos hs, Semaphore.up, hw] at h
        obtain rfl := Option.some.inj h
        exact ⟨[], effect_setFrames rfl rfl rfl (by simp) (by simp +contextual [Frame.ended, setSem])⟩
      | cons u us =>
        rw [runFrame, if_pos hs, Semaphore.up, hw] at h
        obtain rfl := Option.some.inj h
        exact ⟨[.ready u], effect_setFrames rfl rfl rfl (by simp) (by simp +contextual [Frame.ended, setSem])⟩
    · rw [runFrame, if_neg hs] at h
      cases h
  | down s =>
    by_cases hs : s < k.nSems
    · by_cases hn : (k.sems s).n > 0
      · rw [runFrame, if_pos hs, Semaphore.check, if_pos hn] at h
        obtain rfl := Option.some.inj h
        exact ⟨[], effect_setFrames rfl rfl rfl (by simp) (by simp +contextual [Frame.ended, setSem])⟩
      · rw [runFrame, if_pos hs, Semaphore.check, if_neg hn] at h
        obtain rfl := Option.some.inj h
        refine ⟨[.block (.down s)], effect_setFrames rfl rfl rfl (by simp) ?_⟩
        simp +contextual [Frame.ended, setSem]
    · rw [runFrame, if_neg hs] at h
      cases h
  | take =>
    cases hreaper : k.reaper with
    | nil =>
      rw [runFrame, hreaper] at h
      obtain rfl := Option.some.inj h
      refine ⟨[.down reaperSem, .take], effect_setFrames rfl rfl rfl (by simp) ?_⟩
      simp +contextual [Frame.ended]
    | cons u us =>
      rw [runFrame, hreaper] at h
      obtain rfl := Option.some.inj h
      exact ⟨[.delete u], effect_setFrames rfl rfl rfl (by simp) (by simp [Frame.ended, hreaper, or_comm])⟩
  | delete u =>
    obtain rfl := Option.some.inj h
    exact ⟨[], effect_setFrames rfl rfl rfl (by simp) (by simp +contextual [Frame.ended])⟩
  | yieldCheck =>
    by_cases hready : k.ready = []
    · rw [runFrame, if_pos hready] at h
      obtain rfl := Option.some.inj h
      exact ⟨[], effect_setFrames rfl rfl rfl (by simp) (by simp +contextual [Frame.ended])⟩
    · rw [runFrame, if_neg hready] at h
      obtain rfl := Option.some.inj h
      exact ⟨[.block .yield], effect_setFrames rfl rfl rfl (by simp) (by simp +contextual [Frame.ended])⟩
  | block w =>
    cases who with
    | helper c => simp [runFrame] at h
    | thread c t =>
      obtain rfl := Option.some.inj h
      exact ⟨[], block_effect⟩
  | recheck s t =>
    by_cases hs : s < k.nSems
    · by_cases hn : (k.sems s).n > 0
      · rw [runFrame, if_pos hs, Semaphore.recheck, if_pos hn] at h
        obtain rfl := Option.some.inj h
        exact ⟨[.ready t], effect_setFrames rfl rfl rfl (by simp) (by simp +contextual [Frame.ended, setSem])⟩
      · rw [runFrame, if_pos hs, Semaphore.recheck, if_neg hn] at h
        obtain rfl := Option.some.inj h
        exact ⟨[], effect_setFrames rfl rfl rfl (by simp) (by simp +contextual [Frame.ended, setSem])⟩
    · rw [runFrame, if_neg hs] at h
      cases h
  | sleepAdd t secs =>
    cases who with
    | thread c u => simp [runFrame] at h
    | helper c =>
      obtain rfl := Option.some.inj h
      exact ⟨[], sleepAdd_effect⟩

/-- **A step of the loop of the helper** changes its core and the ready queue; a thread that stops is passed
    on. -/
theorem runHelper_core {c : Nat} (hok : CoreOk (k.cores c)) (hact : (k.cores c).active = none)
    (htodo : (k.cores c).todo = []) :
    ∃ x ready, k.runHelper c = { k with ready := ready }.setCore c x ∧ CoreOk x ∧
      ∀ u, (x.request = some (u, .stop) ∨ x.phase = .blocking u .stop ∨ ∃ f ∈ x.todo, u ∈ f.ended) →
        (k.cores c).request = some (u, .stop) ∨ (k.cores c).phase = .blocking u .stop := by
  cases hphase : (k.cores c).phase with
  | blocking t w =>
    refine ⟨_, k.ready, by simp only [runHelper, hphase]; rfl, ⟨?_, ?_, ?_⟩, ?_⟩
    · simp [hact]
    · simp
    · simp [HelperPhase.held]
    · simp +contextual [htodo]
  | top =>
    cases hsleep : removeSleep k.atJiffies k.jiffies (k.cores c).sleeping with
    | none =>
      refine ⟨_, k.ready, by simp only [runHelper, hphase, hsleep]; rfl, ⟨?_, ?_, ?_⟩, ?_⟩
      · simp [hact]
      · simp
      · simp [HelperPhase.held]
      · simp +contextual [htodo]
    | some pr =>
      refine ⟨_, k.ready, by simp only [runHelper, hphase, hsleep]; rfl, ⟨?_, ?_, ?_⟩, ?_⟩
      · simp [hact]
      · simp
      · simp [HelperPhase.held]
      · simp +contextual [Frame.ended]
  | serve =>
    cases hr : (k.cores c).request with
    | none =>
      refine ⟨_, k.ready, by simp only [runHelper, hphase, hr]; rfl, ⟨?_, ?_, ?_⟩, ?_⟩
      · simp [hact]
      · simp
      · simp [HelperPhase.held]
      · simp +contextual [htodo]
    | some tw =>
      obtain ⟨t, w⟩ := tw
      refine ⟨_, k.ready, by simp only [runHelper, hphase, hr]; rfl, ⟨?_, ?_, ?_⟩, ?_⟩
      · simp [hact]
      · simp
      · simp [HelperPhase.held]
      · cases w <;> simp +contextual [Frame.ended, Work.frame]
  | pick =>
    have hnone := hok.request_none (by simp [hphase]) (by simp [hphase])
    cases hready : k.ready with
    | nil =>
      refine ⟨_, [], by simp only [runHelper, hphase, hready]; rw [← hready], ⟨?_, ?_, ?_⟩, ?_⟩
      · simp [hact]
      · simp [hnone]
      · simp [HelperPhase.held]
      · simp +contextual [htodo]
    | cons u us =>
      refine ⟨_, us, by simp only [runHelper, hphase, hready]; rfl, ⟨?_, ?_, ?_⟩, ?_⟩
      · simp [hact]
      · simp [hnone]
      · simp [htodo]
      · simp +contextual [htodo]
  | idle =>
    have hnone := hok.request_none (by simp [hphase]) (by simp [hphase])
    cases hsleep : removeSleep k.atJiffies k.jiffies (k.cores c).sleeping with
    | none =>
      refine ⟨_, k.ready, by simp only [runHelper, hphase, hsleep]; rfl, ⟨?_, ?_, ?_⟩, ?_⟩
      · simp [hact]
      · simp [hnone]
      · simp [HelperPhase.held]
      · simp +contextual [htodo]
    | some pr =>
      refine ⟨_, k.ready, by simp only [runHelper, hphase, hsleep]; rfl, ⟨?_, ?_, ?_⟩, ?_⟩
      · simp [hact]
      · simp [hnone]
      · simp [HelperPhase.held]
      · simp +contextual [Frame.ended]
  | dispatch u =>
    have hnone := hok.request_none (by simp [hphase]) (by simp [hphase])
    refine ⟨_, k.ready, by simp only [runHelper, hphase]; rfl, ⟨?_, ?_, ?_⟩, ?_⟩
    · simp [htodo, hnone]
    · simp
    · simp [HelperPhase.held]
    · simp +contextual [htodo]

end Kernel

/-! ## Any order of steps -/

/-- **The invariant of the machine.** -/
structure ThreadsOk (n : Nat) (k : Kernel) : Prop where
  cores : ∀ c, CoreOk (k.cores c)
  places : ∀ u, ∃ p, At k.tcbsAt u p ∧ (k.alive u = true ↔ p ≠ none) ∧ ∀ r, p = some r → r.Real n k.nSems
  fresh : ∀ u, k.created ≤ u → k.alive u = false
  stopsLast : ∀ t, StopsLast (k.frames t)
  ended : ∀ u, k.Ended u → k.frames u = []
  routines : ∀ t, k.frames t ≠ [] → k.alive t = true

namespace Kernel

variable {n : Nat} {k k' : Kernel} {c t u : Nat} {who : Party} {keep : Bool} {f : Frame}
  {fs rest new : List Frame}

theorem held_of_ended {f : Frame} (h : u ∈ f.ended) : u ∈ f.held := by
  cases f with
  | reaping us => exact h
  | reaperAdd u' => exact h
  | delete u' => exact h
  | _ => cases h

theorem mem_tcbsAt_of_frame (hf : f ∈ k.framesOf who) (hu : u ∈ f.held) : u ∈ k.tcbsAt who.place := by
  rw [tcbsAt_place]
  exact List.mem_append_right _ (List.mem_flatMap.2 ⟨f, hf, hu⟩)

/-- A thread that has stopped is somewhere, but not running. -/
theorem Ended.place (h : k.Ended u) : ∃ r, u ∈ k.tcbsAt r ∧ ∀ c, r ≠ .core c .active := by
  rcases h with h | ⟨c, h | h⟩ | ⟨who, f, hf, hu⟩
  · exact ⟨.reaper, h, by simp⟩
  · refine ⟨.core c .request, ?_, by simp⟩
    simp [tcbsAt, Core.tcbs, h]
  · refine ⟨.core c .helper, ?_, by simp⟩
    simp [tcbsAt, Core.tcbs, h, HelperPhase.held]
  · refine ⟨who.place, mem_tcbsAt_of_frame hf (held_of_ended hu), ?_⟩
    cases who <;> simp [Party.place]

end Kernel

section Invariant

variable {n : Nat} {k k' : Kernel} {c t u : Nat} {who : Party} {keep : Bool} {f : Frame}
  {fs rest new : List Frame}

namespace ThreadsOk

/-- A TCB that is somewhere exists. -/
theorem alive_of_mem (hk : ThreadsOk n k) {r : Place} (hu : u ∈ k.tcbsAt r) : k.alive u = true := by
  obtain ⟨p, hp, halive, _⟩ := hk.places u
  rw [halive, hp.eq_some hu]
  simp

theorem same_place (hk : ThreadsOk n k) {r r' : Place} (hu : u ∈ k.tcbsAt r) (hu' : u ∈ k.tcbsAt r') :
    r = r' := by
  obtain ⟨p, hp, _⟩ := hk.places u
  exact Option.some.inj ((hp.eq_some hu).symm.trans (hp.eq_some hu'))

/-- A thread that is running has not stopped. -/
theorem not_ended (hk : ThreadsOk n k) (hact : (k.cores c).active = some t) : ¬ k.Ended t := by
  intro h
  obtain ⟨r, hr, hne⟩ := h.place
  have hmem : t ∈ k.tcbsAt (.core c .active) := by simp [Kernel.tcbsAt, Core.tcbs, hact]
  exact hne c (hk.same_place hr hmem)

theorem alive_of_active (hk : ThreadsOk n k) (hact : (k.cores c).active = some t) : k.alive t = true := by
  refine hk.alive_of_mem (r := .core c .active) ?_
  simp [Kernel.tcbsAt, Core.tcbs, hact]

/-- **What moves keep**: each TCB that exists is at one place. -/
theorem places_of_moved (hk : ThreadsOk n k) (hm : Kernel.Moved n k k') :
    (∀ u, ∃ p, At k'.tcbsAt u p ∧ (k'.alive u = true ↔ p ≠ none) ∧ ∀ r, p = some r → r.Real n k'.nSems) ∧
      ∀ u, k'.created ≤ u → k'.alive u = false := by
  cases hm with
  | @inside us p q hpq hm hreal hsems halive hcreated =>
    constructor
    · intro u
      obtain ⟨o, ho, hal, hor⟩ := hk.places u
      rw [halive, hsems]
      by_cases hu : u ∈ us
      · obtain ⟨rfl, hat⟩ := ho.move_from hm (fun h => hpq (Option.some.inj h).symm) hu
        refine ⟨some q, hat, by rw [hal]; simp, ?_⟩
        intro r hr
        rw [← Option.some.inj hr]
        exact hreal
      · exact ⟨o, ho.move_of_not_mem hm hu, hal, hor⟩
    · rw [halive, hcreated]
      exact hk.fresh
  | @created q hm hreal hsems halive hcreated =>
    constructor
    · intro u
      obtain ⟨o, ho, hal, hor⟩ := hk.places u
      rw [halive, hsems]
      by_cases hu : u = k.created
      · have hnone : o = none := by
          by_contra hne
          have h' := hk.fresh u (by omega)
          rw [hal.2 hne] at h'
          cases h'
        rw [hnone] at ho
        refine ⟨some q, ho.move_of_mem hm (by rw [hu]; simp), ?_, ?_⟩
        · rw [hu, Function.update_self]
          simp
        · intro r hr
          rw [← Option.some.inj hr]
          exact hreal
      · rw [Function.update_of_ne hu]
        exact ⟨o, ho.move_of_not_mem hm (by simpa using hu), hal, hor⟩
    · intro u hu
      rw [halive, Function.update_of_ne (by omega)]
      exact hk.fresh u (by omega)
  | @deleted v p hm _ hsems halive hcreated =>
    constructor
    · intro u
      obtain ⟨o, ho, hal, hor⟩ := hk.places u
      rw [halive, hsems]
      by_cases hu : u = v
      · obtain ⟨_, hat⟩ := ho.move_from hm (by simp) (List.mem_singleton.2 hu)
        refine ⟨none, hat, ?_, by simp⟩
        rw [hu, Function.update_self]
        simp
      · rw [Function.update_of_ne hu]
        exact ⟨o, ho.move_of_not_mem hm (by simpa using hu), hal, hor⟩
    · intro u hu
      rw [halive]
      by_cases huv : u = v
      · rw [huv, Function.update_self]
      · rw [Function.update_of_ne huv]
        exact hk.fresh u (by omega)

/-- **A step of a routine** keeps the invariant. -/
theorem runFrame (hk : ThreadsOk n k) (hfs : k.framesOf who = f :: rest)
    (hthread : ∀ c t, who = .thread c t → c < n ∧ (k.cores c).active = some t)
    (hhelper : ∀ c, who = .helper c → c < n ∧ (k.cores c).active = none)
    (h : k.runFrame who keep rest f = some k') : ThreadsOk n k' := by
  have hreal : who.place.Real n k.nSems := by
    cases who with
    | thread c t => trivial
    | helper c => exact (hhelper c rfl).1
  have hm := Kernel.runFrame_moved hfs hreal
    (fun c t hw => ⟨(hthread c t hw).1, (hthread c t hw).2, hk.cores c⟩) h
  obtain ⟨new, he⟩ := Kernel.runFrame_effect h
  obtain ⟨hplaces, hfresh⟩ := hk.places_of_moved hm
  refine ⟨fun c => he.coreOk hfs (fun c t hw => (hthread c t hw).2) (fun c hw => (hhelper c hw).2)
    (hk.cores c), hplaces, hfresh, ?_, ?_, ?_⟩
  · intro t
    rcases he.frames_thread hfs t with ⟨h', _⟩ | ⟨h', hold⟩
    · rw [h']
      exact hk.stopsLast t
    · have hlast := hk.stopsLast t
      rw [hold] at hlast
      rw [h']
      exact hlast.tail.append he.stop
  · intro u hu
    rcases he.of_ended hfs hu with hu | ⟨⟨c, hwho⟩, hf, hnew⟩
    · have hnil := hk.ended u hu
      rcases he.frames_thread hfs u with ⟨h', _⟩ | ⟨_, hold⟩
      · rw [h', hnil]
      · rw [hnil] at hold
        cases hold
    · have hold : k.frames u = f :: rest := by
        rw [hwho] at hfs
        exact hfs
      have hlast := hk.stopsLast u
      rw [hold, hf] at hlast
      rcases he.frames_thread hfs u with ⟨_, hne⟩ | ⟨h', _⟩
      · exact absurd hwho (hne c)
      · rw [h', hnew, hlast.eq_nil]
        rfl
  · intro t ht
    have hold : k.frames t ≠ [] := by
      rcases he.frames_thread hfs t with ⟨h', _⟩ | ⟨_, hold⟩
      · rw [← h']
        exact ht
      · rw [hold]
        simp
    have halive := hk.routines t hold
    cases hm with
    | inside _ _ _ _ hal _ => rw [hal, halive]
    | created _ _ _ hal _ =>
      rw [hal]
      by_cases htu : t = k.created
      · rw [htu, Function.update_self]
      · rw [Function.update_of_ne htu, halive]
    | @deleted u _ _ hdel _ hal _ =>
      rw [hal]
      obtain ⟨other, hdel⟩ := hdel
      have hne : t ≠ u := by
        rintro rfl
        exact hold (hk.ended t (.inr (.inr ⟨other, _, hdel, by simp [Frame.ended]⟩)))
      rw [Function.update_of_ne hne, halive]

/-- **A step of the loop of the helper** keeps the invariant. -/
theorem runHelper (hk : ThreadsOk n k) (hc : c < n) (hact : (k.cores c).active = none)
    (htodo : (k.cores c).todo = []) :
    ThreadsOk n (k.runHelper c) := by
  have hm := Kernel.runHelper_moved hc (hk.cores c) hact htodo
  obtain ⟨x, ready, heq, hx, hended⟩ := Kernel.runHelper_core (hk.cores c) hact htodo
  obtain ⟨hplaces, hfresh⟩ := hk.places_of_moved hm
  rw [heq] at hplaces hfresh ⊢
  have hcores : ∀ c', c' = c ∧ update k.cores c x c' = x ∨ update k.cores c x c' = k.cores c' := by
    intro c'
    by_cases hc : c' = c
    · rw [hc, Function.update_self]
      exact .inl ⟨rfl, rfl⟩
    · rw [Function.update_of_ne hc]
      exact .inr rfl
  refine ⟨?_, hplaces, hfresh, hk.stopsLast, ?_, hk.routines⟩
  · intro c'
    show CoreOk (update k.cores c x c')
    rcases hcores c' with ⟨_, h⟩ | h
    · rw [h]
      exact hx
    · rw [h]
      exact hk.cores c'
  · intro u hu
    refine hk.ended u ?_
    have hold : (x.request = some (u, .stop) ∨ x.phase = .blocking u .stop ∨ ∃ f ∈ x.todo, u ∈ f.ended) →
        k.Ended u := fun h => .inr (.inl ⟨c, hended u h⟩)
    rcases hu with hu | ⟨c', hu⟩ | ⟨who, f, hf, hu⟩
    · exact .inl hu
    · change (update k.cores c x c').request = _ ∨ (update k.cores c x c').phase = _ at hu
      rcases hcores c' with ⟨_, h⟩ | h
      · rw [h] at hu
        exact hold (hu.imp_right .inl)
      · rw [h] at hu
        exact .inr (.inl ⟨c', hu⟩)
    · cases who with
      | thread c' t => exact .inr (.inr ⟨.thread c' t, f, hf, hu⟩)
      | helper c' =>
        change f ∈ (update k.cores c x c').todo at hf
        rcases hcores c' with ⟨_, h⟩ | h
        · rw [h] at hf
          exact hold (.inr (.inr ⟨f, hf, hu⟩))
        · rw [h] at hf
          exact .inr (.inr ⟨.helper c', f, hf, hu⟩)

/-- A routine has nothing in its hands when it is called. -/
theorem heldIn_frames (r : Routine) : heldIn r.frames = [] := by
  cases r <;> rfl

theorem ended_frames (r : Routine) : ∀ f ∈ r.frames, f.ended = [] := by
  intro f hf
  cases r <;> simp [Routine.frames] at hf <;> rcases hf with rfl | rfl <;> rfl

/-- **A call** keeps the invariant. -/
theorem call {r : Routine} (hk : ThreadsOk n k) (hact : (k.cores c).active = some t)
    (hr : k.callable t r = true) :
    ThreadsOk n { k with frames := update k.frames t (r.frames ++ k.frames t) } := by
  have hsame : { k with frames := update k.frames t (r.frames ++ k.frames t) }.tcbsAt = k.tcbsAt := by
    show (k.setFrames (r.frames ++ k.frames t) (.thread c t)).tcbsAt = k.tcbsAt
    apply Kernel.tcbsAt_setFrames_same
    rw [heldIn, List.flatMap_append]
    show heldIn r.frames ++ heldIn (k.frames t) = heldIn (k.frames t)
    rw [heldIn_frames, List.nil_append]
  have hended : ∀ u, Kernel.Ended { k with frames := update k.frames t (r.frames ++ k.frames t) } u →
      k.Ended u := by
    intro u hu
    rcases hu with hu | hu | ⟨who, f, hf, hu⟩
    · exact .inl hu
    · exact .inr (.inl hu)
    · cases who with
      | helper c' => exact .inr (.inr ⟨.helper c', f, hf, hu⟩)
      | thread c' t' =>
        change f ∈ update k.frames t (r.frames ++ k.frames t) t' at hf
        by_cases ht : t' = t
        · rw [ht, Function.update_self] at hf
          rcases List.mem_append.1 hf with hf | hf
          · rw [ended_frames r f hf] at hu
            cases hu
          · exact .inr (.inr ⟨.thread c' t, f, hf, hu⟩)
        · rw [Function.update_of_ne ht] at hf
          exact .inr (.inr ⟨.thread c' t', f, hf, hu⟩)
  refine ⟨hk.cores, by rw [hsame]; exact hk.places, hk.fresh, ?_, ?_, ?_⟩
  · intro t'
    show StopsLast (update k.frames t (r.frames ++ k.frames t) t')
    by_cases ht : t' = t
    · rw [ht, Function.update_self]
      by_cases hstop : r = .stop
      · rw [hstop] at hr ⊢
        rw [of_decide_eq_true hr]
        have hreap : Frame.block .stop ∉ [Frame.reapAll] := by
          simp
        show StopsLast ([Frame.reapAll] ++ [Frame.block .stop])
        exact StopsLast.singleton.append hreap
      · refine (hk.stopsLast t).append ?_
        cases r <;> simp [Routine.frames] at hstop ⊢
    · rw [Function.update_of_ne ht]
      exact hk.stopsLast t'
  · intro u hu
    have hu' := hended u hu
    show update k.frames t (r.frames ++ k.frames t) u = []
    have hne : u ≠ t := by
      rintro rfl
      exact hk.not_ended hact hu'
    rw [Function.update_of_ne hne]
    exact hk.ended u hu'
  · intro t' h'
    change update k.frames t (r.frames ++ k.frames t) t' ≠ [] at h'
    by_cases ht : t' = t
    · rw [ht]
      exact hk.alive_of_active hact
    · rw [Function.update_of_ne ht] at h'
      exact hk.routines t' h'

/-- **One step**, on any core, keeps the invariant. -/
theorem step {a : Action} (hk : ThreadsOk n k) (h : k.step n a = some k') : ThreadsOk n k' := by
  cases a with
  | tick =>
    obtain rfl := Option.some.inj h
    exact ⟨hk.cores, hk.places, hk.fresh, hk.stopsLast, hk.ended, hk.routines⟩
  | call c r =>
    rw [Kernel.step] at h
    by_cases hc : c < n
    · rw [if_pos hc] at h
      cases hact : (k.cores c).active with
      | none =>
        rw [hact] at h
        cases h
      | some t =>
        rw [hact] at h
        by_cases hr : k.callable t r = true
        · simp only [hr] at h
          obtain rfl := Option.some.inj h
          exact hk.call hact hr
        · simp [hr] at h
    · rw [if_neg hc] at h
      cases h
  | run c keep =>
    rw [Kernel.step] at h
    by_cases hc : c < n
    · rw [if_pos hc, Kernel.run] at h
      cases hact : (k.cores c).active with
      | some t =>
        rw [hact] at h
        cases hfs : k.frames t with
        | nil =>
          simp [hfs] at h
        | cons f rest =>
          simp only [hfs] at h
          have htop : k.framesOf (.thread c t) = f :: rest := hfs
          refine hk.runFrame htop ?_ ?_ h
          · rintro c' t' heq
            obtain ⟨rfl, rfl⟩ := Party.thread.inj heq
            exact ⟨hc, hact⟩
          · rintro c' heq
            cases heq
      | none =>
        rw [hact] at h
        cases htodo : (k.cores c).todo with
        | nil =>
          simp only [htodo] at h
          obtain rfl := Option.some.inj h
          exact hk.runHelper hc hact htodo
        | cons f rest =>
          simp only [htodo] at h
          have htop : k.framesOf (.helper c) = f :: rest := htodo
          refine hk.runFrame htop ?_ ?_ h
          · rintro c' t' heq
            cases heq
          · rintro c' heq
            obtain rfl := Party.helper.inj heq
            exact ⟨hc, hact⟩
    · rw [if_neg hc] at h
      cases h

end ThreadsOk

end Invariant

/-! ## Every run -/

theorem threadsOk_start {n : Nat} {k : Kernel} (h : k.Start) : ThreadsOk n k := by
  obtain ⟨hready, hreaper, hcreated, hsems, hthreads, hcores⟩ := h
  have htodo : ∀ m, heldIn (List.replicate m Routine.thread.frames).flatten = [] ∧
      ∀ f ∈ (List.replicate m Routine.thread.frames).flatten, f.ended = [] := by
    intro m
    induction m with
    | zero => exact ⟨rfl, by simp⟩
    | succ m ih =>
      rw [List.replicate_succ, List.flatten_cons]
      constructor
      · rw [heldIn, List.flatMap_append]
        show heldIn Routine.thread.frames ++ heldIn _ = []
        rw [ih.1]
        rfl
      · intro f hf
        rcases List.mem_append.1 hf with hf | hf
        · exact ThreadsOk.ended_frames .thread f hf
        · exact ih.2 f hf
  have hnone : ∀ r, k.tcbsAt r = [] := by
    intro r
    cases r with
    | core c s =>
      obtain ⟨m, hm⟩ := hcores c
      show (k.cores c).tcbs s = []
      rw [hm]
      cases s with
      | helper => exact (htodo m).1
      | _ => rfl
    | ready => exact hready
    | waiting s =>
      obtain ⟨initial, hs⟩ := hsems s
      show (k.sems s).waiting = []
      rw [hs]
      rfl
    | reaper => exact hreaper
    | thread t =>
      show heldIn (k.frames t) = []
      rw [(hthreads t).1]
      rfl
  refine ⟨?_, ?_, fun u _ => (hthreads u).2, ?_, fun u _ => (hthreads u).1, ?_⟩
  · intro c
    obtain ⟨m, hm⟩ := hcores c
    rw [hm]
    exact ⟨by simp, by simp, by simp [HelperPhase.held]⟩
  · intro u
    refine ⟨none, ?_, by simp [(hthreads u).2], by simp⟩
    intro r
    rw [hnone r]
    simp
  · intro t
    rw [(hthreads t).1]
    exact .nil
  · intro t h
    exact absurd (hthreads t).1 h

theorem threadsOk_of_machine {n : Nat} {k : Kernel} (hk : Machine n k) : ThreadsOk n k :=
  Runs.Reached.invariant (I := ThreadsOk n) (fun _ => threadsOk_start) (fun _ _ _ _ hk hs => hk.step hs) hk

/-- **Every TCB is in one place.**  On any number of cores, after any steps in any order: a TCB that has been
    created and not been deleted is at exactly one place, once; a TCB that has been deleted, or does not
    exist yet, is nowhere; so no TCB is on two queues, or runs on two cores.  A routine that has a TCB in
    its hands belongs to the helper of a core, or to a thread that exists and has not stopped. -/
theorem tcbs_inOnePlace (n : Nat) (k : Kernel) (hk : Machine n k) :
    (∀ u, k.alive u = true →
      ∃ p, p.Real n k.nSems ∧ (k.tcbsAt p).count u = 1 ∧ ∀ q, q ≠ p → u ∉ k.tcbsAt q) ∧
    (∀ u, k.alive u = false → ∀ p, u ∉ k.tcbsAt p) ∧
    (∀ u p q, u ∈ k.tcbsAt p → u ∈ k.tcbsAt q → p = q) ∧
    (∀ u c c', (k.cores c).active = some u → (k.cores c').active = some u → c = c') ∧
    ∀ t, k.tcbsAt (.thread t) ≠ [] → k.alive t = true ∧ ¬ k.Ended t := by
  have hok := threadsOk_of_machine hk
  refine ⟨?_, ?_, ?_, ?_, ?_⟩
  · intro u hu
    obtain ⟨o, ho, halive, hreal⟩ := hok.places u
    cases o with
    | none => exact absurd rfl (halive.1 hu)
    | some p =>
      refine ⟨p, hreal p rfl, ho.one, ?_⟩
      intro q hq hmem
      exact hq (Option.some.inj (ho.eq_some hmem)).symm
  · intro u hu p hmem
    have halive := hok.alive_of_mem hmem
    rw [hu] at halive
    cases halive
  · intro u p q hp hq
    exact hok.same_place hp hq
  · intro u c c' h h'
    have hp : u ∈ k.tcbsAt (.core c .active) := by simp [Kernel.tcbsAt, Core.tcbs, h]
    have hp' : u ∈ k.tcbsAt (.core c' .active) := by simp [Kernel.tcbsAt, Core.tcbs, h']
    exact (Place.core.inj (hok.same_place hp hp')).1
  · intro t ht
    have hframes : k.frames t ≠ [] := by
      intro hnil
      apply ht
      show heldIn (k.frames t) = []
      rw [hnil]
      rfl
    exact ⟨hok.routines t hframes, fun h => hframes (hok.ended t h)⟩

/-- A machine about to make its first thread, with a semaphore for the reaper queue. -/
def Kernel.boot : Kernel where
  cores := fun _ => ⟨none, none, [], Routine.thread.frames, .top⟩
  ready := []
  reaper := []
  nSems := 1
  sems := fun _ => .new 0
  frames := fun _ => []
  created := 0
  alive := fun _ => false
  atJiffies := fun _ => 0
  jiffies := 0
  jiffiesPerSecond := 1000

theorem Kernel.boot_start : Kernel.boot.Start :=
  ⟨rfl, rfl, rfl, fun _ => ⟨0, rfl⟩, fun _ => ⟨rfl, rfl⟩, fun _ => ⟨1, rfl⟩⟩

/-- Core `0` makes thread `0`, which goes to sleep; core `1` makes thread `1` and runs it. -/
def sleepRun : List Action :=
  List.replicate 8 (.run 0 false) ++ .call 0 (.sleep 2) :: List.replicate 7 (.run 0 false) ++
    List.replicate 8 (.run 1 false)

theorem tcbs_inOnePlace_asleep : ∃ k, Machine 2 k ∧ k.tcbsAt (.core 0 .sleeping) = [0] ∧
    k.tcbsAt (.core 1 .active) = [1] ∧ ∀ q, q ≠ .core 0 .sleeping → 0 ∉ k.tcbsAt q := by
  have hrun : (sleepRun.foldlM (Kernel.step 2) Kernel.boot).any (fun k : Kernel =>
      decide (k.tcbsAt (.core 0 .sleeping) = [0] ∧ k.tcbsAt (.core 1 .active) = [1])) = true := by
    decide +kernel
  obtain ⟨k, hk, hat⟩ := (Option.any_eq_true _ _).1 hrun
  have hmachine : Machine 2 k := Runs.Reached.foldlM (Runs.Reached.start Kernel.boot_start) hk
  obtain ⟨hsleep, hactive⟩ := of_decide_eq_true hat
  refine ⟨k, hmachine, hsleep, hactive, ?_⟩
  intro q hq hmem
  exact hq ((tcbs_inOnePlace 2 k hmachine).2.2.1 0 q _ hmem (by rw [hsleep]; simp))

end Threads

end BadApple
