/-
  `SpinLock` and `Interrupts` (kernel/atomic.h).

  1. **Steps** — each access to memory and each change of the interrupt flag is one step of one core; the
     steps of the cores interleave in any order.  There are as many cores and locks as there are numbers.
  2. **Ghosts** — a call to `lock` carries what the flag was when it was called (`before`), and a core keeps
     the locks it has, the last one first, each with that value.  No step depends on them, except that
     `unlock` is called for the last lock of a core.  Outside of the two functions, a core that has no lock
     may set its flag as it likes.
  3. **Invariant** — per core (`Kept`): its locks are taken, no lock twice, their `was` is what the flag was,
     and the flag is off while it has one.  Between cores: no lock is owned by two.
  4. **The result** — `spinLock_laws`.
-/
import Mathlib.Data.List.Nodup
import Mathlib.Logic.Function.Basic
import BadApple.Lib.Runs

namespace BadApple

open Function (update)

/-! ## Steps -/

/-- `SpinLock`. -/
structure SpinLock where
  taken : Bool
  was : Bool
deriving DecidableEq, Repr

namespace SpinLock

/-- Where a core is: in neither function, or before the step that is named.  `again` is the `restore` of a
    failed attempt. -/
inductive Phase where
  | idle
  | monitor (l : Nat) (before : Bool)
  | getFlags (l : Nat) (before : Bool)
  | cli (l : Nat) (before : Bool)
  | exchange (l : Nat) (wasDisabled before : Bool)
  | again (l : Nat) (wasDisabled before : Bool)
  | setWas (l : Nat) (wasDisabled before : Bool)
  | getWas (l : Nat) (before : Bool)
  | clear (l : Nat) (wasDisabled before : Bool)
  | restore (l : Nat) (wasDisabled before : Bool)
deriving DecidableEq, Repr

/-- A core: whether interrupts are disabled, and the locks that it has. -/
structure Core where
  disabled : Bool
  phase : Phase
  held : List (Nat × Bool)
deriving DecidableEq, Repr

/-- `Interrupts::restore(wasDisabled)`. -/
def restored (disabled wasDisabled : Bool) : Bool := if wasDisabled then disabled else false

/-- The next step of the function that a core is in. -/
def advance (locks : Nat → SpinLock) (k : Core) : Option (Core × (Nat → SpinLock)) :=
  match k.phase with
  | .idle => none
  | .monitor l before => some ({ k with phase := .getFlags l before }, locks)
  | .getFlags l before =>
    some ({ k with phase := if k.disabled then .exchange l true before else .cli l before }, locks)
  | .cli l before => some ({ k with disabled := true, phase := .exchange l false before }, locks)
  | .exchange l wasDisabled before =>
    some ({ k with phase := if (locks l).taken then .again l wasDisabled before else .setWas l wasDisabled before },
      update locks l { locks l with taken := true })
  | .again l wasDisabled before =>
    some ({ k with disabled := restored k.disabled wasDisabled, phase := .monitor l before }, locks)
  | .setWas l wasDisabled before =>
    some ({ k with phase := .idle, held := (l, before) :: k.held },
      update locks l { locks l with was := wasDisabled })
  | .getWas l before => some ({ k with phase := .clear l (locks l).was before }, locks)
  | .clear l wasDisabled before =>
    some ({ k with phase := .restore l wasDisabled before, held := k.held.tail },
      update locks l { locks l with taken := false })
  | .restore _ wasDisabled _ =>
    some ({ k with disabled := restored k.disabled wasDisabled, phase := .idle }, locks)

/-- The cores and the locks. -/
structure Cores where
  core : Nat → Core
  lock : Nat → SpinLock

/-- What a core does next: it calls `lock`, or `unlock` for its last lock; it goes on in the function that it
    is in; or it sets its flag. -/
inductive Action where
  | lock (c l : Nat)
  | unlock (c : Nat)
  | go (c : Nat)
  | setFlag (c : Nat) (disabled : Bool)
deriving DecidableEq, Repr

def step (s : Cores) : Action → Option Cores
  | .lock c l =>
    if (s.core c).phase = .idle then
      some { s with core := update s.core c { s.core c with phase := .monitor l (s.core c).disabled } }
    else none
  | .unlock c =>
    match (s.core c).phase, (s.core c).held with
    | .idle, (l, before) :: _ => some { s with core := update s.core c { s.core c with phase := .getWas l before } }
    | _, _ => none
  | .go c => (advance s.lock (s.core c)).map fun r => { core := update s.core c r.1, lock := r.2 }
  | .setFlag c disabled =>
    if (s.core c).phase = .idle ∧ (s.core c).held = [] then
      some { s with core := update s.core c { s.core c with disabled := disabled } }
    else none

/-- No lock is taken, and no core is in one of the functions. -/
def Initial (s : Cores) : Prop :=
  (∀ l, (s.lock l).taken = false) ∧ ∀ c, (s.core c).phase = .idle ∧ (s.core c).held = []

/-- The states of all runs. -/
def Reached : Cores → Prop := Runs.Reached Initial fun s a t => step s a = some t

/-! ## One core -/

/-- The locks that a core has taken: those it has, and the one it has just got. -/
def Core.owned (k : Core) : List Nat :=
  (match k.phase with | .setWas l _ _ => [l] | _ => []) ++ k.held.map Prod.fst

/-- Only the flag before the first lock can have been on. -/
def Nested : List (Nat × Bool) → Prop
  | [] => True
  | (_, before) :: rest => (rest ≠ [] → before = true) ∧ Nested rest

/-- What holds before each step. -/
def Core.PhaseOk (k : Core) : Prop :=
  match k.phase with
  | .idle => True
  | .monitor _ before => k.disabled = before
  | .getFlags _ before => k.disabled = before
  | .cli _ before => k.disabled = false ∧ before = false
  | .exchange _ wasDisabled before => k.disabled = true ∧ wasDisabled = before ∧ (k.held ≠ [] → before = true)
  | .again _ wasDisabled before => k.disabled = true ∧ wasDisabled = before ∧ (k.held ≠ [] → before = true)
  | .setWas _ wasDisabled before => k.disabled = true ∧ wasDisabled = before ∧ (k.held ≠ [] → before = true)
  | .getWas l before => ∃ rest, k.held = (l, before) :: rest
  | .clear l wasDisabled before => wasDisabled = before ∧ ∃ rest, k.held = (l, before) :: rest
  | .restore _ wasDisabled before => k.disabled = true ∧ wasDisabled = before ∧ (k.held ≠ [] → before = true)

/-- The invariant of one core. -/
structure Kept (locks : Nat → SpinLock) (k : Core) : Prop where
  taken : ∀ l ∈ k.owned, (locks l).taken = true
  nodup : k.owned.Nodup
  was : ∀ p ∈ k.held, (locks p.1).was = p.2
  nested : Nested k.held
  disabled : k.held ≠ [] → k.disabled = true
  phase : k.PhaseOk

variable {s t : Cores} {locks locks' : Nat → SpinLock} {k k' : Core} {c d l : Nat} {a : Action}

theorem Nested.tail {held : List (Nat × Bool)} (h : Nested held) : Nested held.tail := by
  cases held with
  | nil => exact h
  | cons p rest => exact h.2

/-- A core does not notice what happens to locks that it does not own. -/
theorem Kept.congr (h : Kept locks k) (htaken : ∀ l ∈ k.owned, (locks' l).taken = (locks l).taken)
    (hwas : ∀ l ∈ k.owned, (locks' l).was = (locks l).was) : Kept locks' k where
  taken l hl := (htaken l hl).trans (h.taken l hl)
  nodup := h.nodup
  was p hp := (hwas p.1 (List.mem_append_right _ (List.mem_map_of_mem hp))).trans (h.was p hp)
  nested := h.nested
  disabled := h.disabled
  phase := h.phase

theorem ne_of_notMem {held : List (Nat × Bool)} (h : l ∉ held.map Prod.fst) : ∀ p ∈ held, p.1 ≠ l := by
  intro p hp heq
  exact h (heq ▸ List.mem_map_of_mem hp)

theorem restored_eq {before : Bool} : restored true before = before := by
  cases before with
  | false => rfl
  | true => rfl

/-- **What a step does to the locks**: it takes one, or changes one that the core owns. -/
theorem advance_lock (hk : Kept locks k) (h : advance locks k = some (k', locks')) (l : Nat) :
    locks' l = locks l ∨ locks' l = { locks l with taken := true } ∨ l ∈ k.owned := by
  have hphase := hk.phase
  unfold advance Core.PhaseOk at *
  cases hp : k.phase with
  | idle =>
    rw [hp] at h
    cases h
  | monitor _ _ | getFlags _ _ | cli _ _ | again _ _ _ | getWas _ _ | restore _ _ _ =>
    rw [hp] at h
    obtain ⟨_, rfl⟩ := Prod.mk.inj (Option.some.inj h)
    exact Or.inl rfl
  | exchange l' w b =>
    rw [hp] at h
    obtain ⟨_, rfl⟩ := Prod.mk.inj (Option.some.inj h)
    rcases eq_or_ne l l' with rfl | hne
    · rw [Function.update_self]
      exact Or.inr (Or.inl rfl)
    · rw [Function.update_of_ne hne]
      exact Or.inl rfl
  | setWas l' w b =>
    rw [hp] at h
    obtain ⟨_, rfl⟩ := Prod.mk.inj (Option.some.inj h)
    rcases eq_or_ne l l' with rfl | hne
    · right; right
      simp [Core.owned, hp]
    · rw [Function.update_of_ne hne]
      exact Or.inl rfl
  | clear l' w b =>
    rw [hp] at h hphase
    obtain ⟨_, rfl⟩ := Prod.mk.inj (Option.some.inj h)
    obtain ⟨_, rest, hheld⟩ := hphase
    rcases eq_or_ne l l' with rfl | hne
    · right; right
      simp [Core.owned, hheld]
    · rw [Function.update_of_ne hne]
      exact Or.inl rfl

/-- **What a step takes** was not taken. -/
theorem advance_owned (h : advance locks k = some (k', locks')) (hl : l ∈ k'.owned) :
    l ∈ k.owned ∨ (locks l).taken = false := by
  unfold advance at h
  cases hp : k.phase with
  | idle =>
    rw [hp] at h
    cases h
  | monitor _ _ | cli _ _ | again _ _ _ | getWas _ _ | restore _ _ _ | setWas _ _ _ =>
    rw [hp] at h
    obtain ⟨rfl, _⟩ := Prod.mk.inj (Option.some.inj h)
    left
    simpa [Core.owned, hp] using hl
  | getFlags _ _ =>
    rw [hp] at h
    obtain ⟨rfl, _⟩ := Prod.mk.inj (Option.some.inj h)
    left
    cases hd : k.disabled with
    | false => simpa [Core.owned, hp, hd] using hl
    | true => simpa [Core.owned, hp, hd] using hl
  | exchange l' w b =>
    rw [hp] at h
    obtain ⟨rfl, _⟩ := Prod.mk.inj (Option.some.inj h)
    cases ht : (locks l').taken with
    | false =>
      simp only [Core.owned, ht, Bool.false_eq_true, if_false, List.singleton_append, List.mem_cons] at hl
      rcases hl with rfl | hl
      · exact Or.inr ht
      · left
        simpa [Core.owned, hp] using hl
    | true =>
      left
      simpa [Core.owned, hp, ht] using hl
  | clear l' w b =>
    rw [hp] at h
    obtain ⟨rfl, _⟩ := Prod.mk.inj (Option.some.inj h)
    left
    simp only [Core.owned, hp, List.nil_append] at hl ⊢
    rw [List.map_tail] at hl
    exact List.mem_of_mem_tail hl

/-- A step that changes neither the locks nor what the core has of them. -/
theorem Kept.goOn (hk : Kept locks k) (howned : k'.owned = k.owned) (hheld : k'.held = k.held)
    (hdisabled : k.held ≠ [] → k'.disabled = true) (hphase : k'.PhaseOk) : Kept locks k' where
  taken := howned ▸ hk.taken
  nodup := howned ▸ hk.nodup
  was := hheld ▸ hk.was
  nested := hheld ▸ hk.nested
  disabled := hheld ▸ hdisabled
  phase := hphase

/-- **One step of a core** keeps its invariant. -/
theorem Kept.advance (hk : Kept locks k) (h : advance locks k = some (k', locks')) : Kept locks' k' := by
  have hphase := hk.phase
  unfold SpinLock.advance at h
  unfold Core.PhaseOk at hphase
  cases hp : k.phase with
  | idle =>
    rw [hp] at h
    cases h
  | monitor l before =>
    rw [hp] at h hphase
    obtain ⟨rfl, rfl⟩ := Prod.mk.inj (Option.some.inj h)
    exact hk.goOn (by simp [Core.owned, hp]) rfl hk.disabled hphase
  | getFlags l before =>
    rw [hp] at h hphase
    obtain ⟨rfl, rfl⟩ := Prod.mk.inj (Option.some.inj h)
    have hheld : k.held ≠ [] → before = true := fun hne => hphase ▸ hk.disabled hne
    cases hd : k.disabled with
    | false =>
      rw [hd] at hphase
      exact hk.goOn (by simp [Core.owned, hp]) rfl (fun hne => hd ▸ hk.disabled hne) ⟨rfl, hphase.symm⟩
    | true =>
      rw [hd] at hphase
      exact hk.goOn (by simp [Core.owned, hp]) rfl (fun _ => rfl) ⟨rfl, hphase, hheld⟩
  | cli l before =>
    rw [hp] at h hphase
    obtain ⟨rfl, rfl⟩ := Prod.mk.inj (Option.some.inj h)
    obtain ⟨hd, hbefore⟩ := hphase
    refine hk.goOn (by simp [Core.owned, hp]) rfl (fun _ => rfl) ⟨rfl, hbefore.symm, ?_⟩
    intro hne
    have htrue := hk.disabled hne
    rw [hd] at htrue
    cases htrue
  | exchange l w before =>
    rw [hp] at h hphase
    obtain ⟨rfl, rfl⟩ := Prod.mk.inj (Option.some.inj h)
    have howned : k.owned = k.held.map Prod.fst := by simp [Core.owned, hp]
    cases ht : (locks l).taken with
    | false =>
      -- the lock was free, so it is none of those that the core has
      have hnew : l ∉ k.owned := fun hl => by
        have htrue := hk.taken l hl
        rw [ht] at htrue
        cases htrue
      refine ⟨?_, ?_, ?_, hk.nested, hk.disabled, hphase⟩
      · intro l' hl'
        rcases eq_or_ne l' l with rfl | hne
        · rw [Function.update_self]
        · rw [Function.update_of_ne hne]
          refine hk.taken l' ?_
          rw [howned]
          simpa [Core.owned, hne] using hl'
      · rw [howned] at hnew
        exact List.nodup_cons.2 ⟨hnew, howned ▸ hk.nodup⟩
      · intro p hp'
        rw [Function.update_of_ne (ne_of_notMem (howned ▸ hnew) p hp')]
        exact hk.was p hp'
    | true =>
      have hsame : update locks l { locks l with taken := true } = locks := by
        rw [← ht]
        exact Function.update_eq_self l locks
      rw [hsame]
      exact hk.goOn (by simp [Core.owned, hp]) rfl hk.disabled hphase
  | again l w before =>
    rw [hp] at h hphase
    obtain ⟨rfl, rfl⟩ := Prod.mk.inj (Option.some.inj h)
    obtain ⟨hd, rfl, hheld⟩ := hphase
    have hback : restored k.disabled w = w := by rw [hd, restored_eq]
    exact hk.goOn (by simp [Core.owned, hp]) rfl (fun hne => hback.trans (hheld hne)) hback
  | setWas l w before =>
    rw [hp] at h hphase
    obtain ⟨rfl, rfl⟩ := Prod.mk.inj (Option.some.inj h)
    obtain ⟨hd, rfl, hheld⟩ := hphase
    have howned : k.owned = l :: k.held.map Prod.fst := by simp [Core.owned, hp]
    have hnodup : (l :: k.held.map Prod.fst).Nodup := howned ▸ hk.nodup
    have hother := ne_of_notMem (List.nodup_cons.1 hnodup).1
    refine ⟨?_, hnodup, ?_, ⟨hheld, hk.nested⟩, fun _ => hd, trivial⟩
    · intro l' hl'
      have htaken := hk.taken l' (howned ▸ hl')
      rcases eq_or_ne l' l with rfl | hne
      · rw [Function.update_self]
        exact htaken
      · rw [Function.update_of_ne hne]
        exact htaken
    · intro p hp'
      rcases List.mem_cons.1 hp' with rfl | hmem
      · rw [Function.update_self]
      · rw [Function.update_of_ne (hother p hmem)]
        exact hk.was p hmem
  | getWas l before =>
    rw [hp] at h hphase
    obtain ⟨rfl, rfl⟩ := Prod.mk.inj (Option.some.inj h)
    obtain ⟨rest, hheld⟩ := hphase
    have hwas : (locks l).was = before := hk.was (l, before) (hheld ▸ List.mem_cons_self)
    exact hk.goOn (by simp [Core.owned, hp]) rfl hk.disabled ⟨hwas, rest, hheld⟩
  | clear l w before =>
    rw [hp] at h hphase
    obtain ⟨rfl, rfl⟩ := Prod.mk.inj (Option.some.inj h)
    obtain ⟨rfl, rest, hheld⟩ := hphase
    have howned : k.owned = l :: rest.map Prod.fst := by simp [Core.owned, hp, hheld]
    have hnodup : (l :: rest.map Prod.fst).Nodup := howned ▸ hk.nodup
    have hnew := (List.nodup_cons.1 hnodup).1
    have hd := hk.disabled (by rw [hheld]; exact List.cons_ne_nil _ _)
    have hnested := hk.nested
    rw [hheld] at hnested
    rw [hheld, List.tail_cons]
    refine ⟨?_, (List.nodup_cons.1 hnodup).2, ?_, hnested.2, fun _ => hd, ⟨hd, rfl, hnested.1⟩⟩
    · intro l' hl'
      have hne : l' ≠ l := fun heq => hnew (heq ▸ hl')
      rw [Function.update_of_ne hne]
      exact hk.taken l' (howned ▸ List.mem_cons_of_mem _ hl')
    · intro p hp'
      rw [Function.update_of_ne (ne_of_notMem hnew p hp')]
      exact hk.was p (hheld ▸ List.mem_cons_of_mem _ hp')
  | restore l w before =>
    rw [hp] at h hphase
    obtain ⟨rfl, rfl⟩ := Prod.mk.inj (Option.some.inj h)
    obtain ⟨hd, rfl, hheld⟩ := hphase
    have hback : restored k.disabled w = w := by rw [hd, restored_eq]
    exact hk.goOn (by simp [Core.owned, hp]) rfl (fun hne => hback.trans (hheld hne)) trivial

/-! ## All cores -/

/-- The invariant. -/
structure Safe (s : Cores) : Prop where
  kept : ∀ c, Kept s.lock (s.core c)
  alone : ∀ c d l, l ∈ (s.core c).owned → l ∈ (s.core d).owned → c = d

theorem Initial.safe (h : Initial s) : Safe s := by
  have howned : ∀ c, (s.core c).owned = [] := by
    intro c
    simp [Core.owned, h.2 c]
  refine ⟨?_, ?_⟩
  · intro c
    obtain ⟨hphase, hheld⟩ := h.2 c
    refine ⟨?_, ?_, ?_, ?_, fun hne => absurd hheld hne, ?_⟩
    · intro l hl
      rw [howned] at hl
      cases hl
    · rw [howned]
      exact List.nodup_nil
    · intro p hp
      rw [hheld] at hp
      cases hp
    · rw [hheld]
      trivial
    · unfold Core.PhaseOk
      rw [hphase]
      trivial
  · intro c d l hc _
    rw [howned] at hc
    cases hc

/-- What a core does without the locks. -/
theorem Safe.withCore (hs : Safe s) (hk : Kept s.lock k) (howned : k.owned = (s.core c).owned) :
    Safe { s with core := update s.core c k } := by
  have hsame : ∀ d, (Function.update s.core c k d).owned = (s.core d).owned := by
    intro d
    rcases eq_or_ne d c with rfl | hne
    · rw [Function.update_self, howned]
    · rw [Function.update_of_ne hne]
  refine ⟨?_, ?_⟩
  · intro d
    show Kept s.lock (Function.update s.core c k d)
    rcases eq_or_ne d c with rfl | hne
    · rw [Function.update_self]
      exact hk
    · rw [Function.update_of_ne hne]
      exact hs.kept d
  · intro d e l hd he
    exact hs.alone d e l ((hsame d) ▸ hd) ((hsame e) ▸ he)

/-- **One step of a function**: the other cores do not notice it, and a lock that is taken was nobody's. -/
theorem Safe.advance (hs : Safe s) (h : advance s.lock (s.core c) = some (k, locks)) :
    Safe { core := update s.core c k, lock := locks } := by
  have hother : ∀ d l, d ≠ c → l ∈ (s.core d).owned → l ∉ k.owned := by
    intro d l hne hd hl
    rcases advance_owned h hl with hmine | hfree
    · exact hne (hs.alone d c l hd hmine)
    · have htaken := (hs.kept d).taken l hd
      rw [hfree] at htaken
      cases htaken
  refine ⟨?_, ?_⟩
  · intro d
    show Kept locks (Function.update s.core c k d)
    rcases eq_or_ne d c with rfl | hne
    · rw [Function.update_self]
      exact (hs.kept d).advance h
    · rw [Function.update_of_ne hne]
      have hlock : ∀ l ∈ (s.core d).owned, locks l = s.lock l ∨ locks l = { s.lock l with taken := true } := by
        intro l hl
        rcases advance_lock (hs.kept c) h l with hsame | htake | hmine
        · exact Or.inl hsame
        · exact Or.inr htake
        · exact absurd (hs.alone d c l hl hmine) hne
      refine (hs.kept d).congr ?_ ?_
      · intro l hl
        rcases hlock l hl with heq | heq
        · rw [heq]
        · rw [heq, (hs.kept d).taken l hl]
      · intro l hl
        rcases hlock l hl with heq | heq
        · rw [heq]
        · rw [heq]
  · intro d e l hd he
    show d = e
    change l ∈ (Function.update s.core c k d).owned at hd
    change l ∈ (Function.update s.core c k e).owned at he
    rcases eq_or_ne d c with rfl | hdc
    · rcases eq_or_ne e d with rfl | hec
      · rfl
      · rw [Function.update_self] at hd
        rw [Function.update_of_ne hec] at he
        exact absurd hd (hother e l hec he)
    · rw [Function.update_of_ne hdc] at hd
      rcases eq_or_ne e c with rfl | hec
      · rw [Function.update_self] at he
        exact absurd he (hother d l hdc hd)
      · rw [Function.update_of_ne hec] at he
        exact hs.alone d e l hd he

theorem Safe.step (hs : Safe s) (h : step s a = some t) : Safe t := by
  cases a with
  | lock c l =>
    rw [SpinLock.step] at h
    by_cases hidle : (s.core c).phase = .idle
    · rw [if_pos hidle] at h
      obtain rfl := Option.some.inj h
      have howned : (s.core c).owned = (s.core c).held.map Prod.fst := by simp [Core.owned, hidle]
      exact hs.withCore ((hs.kept c).goOn howned.symm rfl (hs.kept c).disabled rfl) howned.symm
    · rw [if_neg hidle] at h
      cases h
  | unlock c =>
    rw [SpinLock.step] at h
    split at h
    · rename_i l before rest hidle hheld
      obtain rfl := Option.some.inj h
      have howned : (s.core c).owned = (s.core c).held.map Prod.fst := by simp [Core.owned, hidle]
      exact hs.withCore ((hs.kept c).goOn howned.symm rfl (hs.kept c).disabled ⟨rest, hheld⟩) howned.symm
    · cases h
  | go c =>
    rw [SpinLock.step, Option.map_eq_some_iff] at h
    obtain ⟨⟨k, locks⟩, hgo, rfl⟩ := h
    exact hs.advance hgo
  | setFlag c disabled =>
    rw [SpinLock.step] at h
    by_cases hidle : (s.core c).phase = .idle ∧ (s.core c).held = []
    · rw [if_pos hidle] at h
      obtain rfl := Option.some.inj h
      have hphase : Core.PhaseOk { s.core c with disabled := disabled } := by
        unfold Core.PhaseOk
        rw [hidle.1]
        trivial
      exact hs.withCore ((hs.kept c).goOn rfl rfl (fun hne => absurd hidle.2 hne) hphase) rfl
    · rw [if_neg hidle] at h
      cases h

theorem Reached.safe (h : Reached s) : Safe s :=
  Runs.Reached.invariant (fun _ hi => hi.safe) (fun _ _ _ _ hs hstep => hs.step hstep) h

/-- **The laws of a spin lock**: one core has it at a time; a core that has one runs with its interrupts
    disabled; and the last step of `unlock` leaves the flag as it was before the `lock` that it belongs to. -/
theorem spinLock_laws (h : Reached s) :
    (∀ c d l, l ∈ (s.core c).held.map Prod.fst → l ∈ (s.core d).held.map Prod.fst → c = d) ∧
    (∀ c, (s.core c).held ≠ [] → (s.core c).disabled = true) ∧
    (∀ c l wasDisabled before t, (s.core c).phase = .restore l wasDisabled before → step s (.go c) = some t →
      (t.core c).phase = .idle ∧ (t.core c).disabled = before) := by
  have hs := h.safe
  refine ⟨?_, fun c => (hs.kept c).disabled, ?_⟩
  · intro c d l hc hd
    exact hs.alone c d l (List.mem_append_right _ hc) (List.mem_append_right _ hd)
  · intro c l w before t hphase hstep
    have hok := (hs.kept c).phase
    unfold Core.PhaseOk at hok
    rw [hphase] at hok
    obtain ⟨hd, rfl, _⟩ := hok
    rw [SpinLock.step, SpinLock.advance, hphase] at hstep
    obtain rfl := Option.some.inj hstep
    show (Function.update s.core c _ c).phase = _ ∧ (Function.update s.core c _ c).disabled = _
    rw [Function.update_self]
    refine ⟨rfl, ?_⟩
    show restored (s.core c).disabled w = w
    rw [hd, restored_eq]

/-- Core 1 fails to get the lock that core 0 has, and gets it after that. -/
def contention : Option Cores :=
  [.lock 0 7, .go 0, .go 0, .go 0, .go 0, .go 0, .lock 1 7, .go 1, .go 1, .go 1, .go 1, .unlock 0, .go 0, .go 1,
    .go 0, .go 1, .go 1, .go 1, .go 1, .go 1].foldlM step
    { core := fun _ => { disabled := false, phase := .idle, held := [] }
      lock := fun _ => { taken := false, was := true } }

/-- Core 1 has the lock, and core 0 is about to restore its flag. -/
theorem spinLock_laws_contention : ∃ s, contention = some s ∧
    ((s.core 1).held = [(7, false)] ∧ (s.core 0).phase = .restore 7 false false) ∧
    (∀ c d l, l ∈ (s.core c).held.map Prod.fst → l ∈ (s.core d).held.map Prod.fst → c = d) ∧
    (∀ c, (s.core c).held ≠ [] → (s.core c).disabled = true) ∧
    (∀ c l wasDisabled before t, (s.core c).phase = .restore l wasDisabled before → step s (.go c) = some t →
      (t.core c).phase = .idle ∧ (t.core c).disabled = before) := by
  have hrun : contention.map (fun s => decide ((s.core 1).held = [(7, false)] ∧
      (s.core 0).phase = .restore 7 false false)) = some true := by decide +kernel
  obtain ⟨s, hs, hfacts⟩ := Option.map_eq_some_iff.1 hrun
  have hreached : Reached s := Runs.Reached.foldlM (Runs.Reached.start ⟨fun _ => rfl, fun _ => ⟨rfl, rfl⟩⟩) hs
  exact ⟨s, hs, of_decide_eq_true hfacts, spinLock_laws hreached⟩

end SpinLock

end BadApple
