/-
  A sleep queue and the clock (kernel/threads.cc, kernel/pit.h).

  1. **Steps** — `add`, `remove` and ticks, in any order.  `Pit::jiffies` and the times to wake up are 32-bit
     words, and so are the product and the sum that they are computed with.
  2. **Ghosts** — the number of ticks, which does not wrap around and is that of `jiffies` at the start; an
     `Entry` for each call of `add`, with the tick at which its time comes; and which entries were removed.
     No step depends on them, except that `add` is not called for a TCB that is on the queue.
  3. **The result** — `Laws`: what is on the queue and what was removed is what was added, in the order of
     the times and, among equal ones, of the calls; and `remove` takes an entry just if the time of one has
     come.  It holds as long as nothing wraps around: neither the product nor the sum in `add`, nor the
     clock while there are TCBs on the queue (`sleepQueue_laws`).
-/
import BadApple.Lib.Runs
import BadApple.Threads.Places
import BadApple.Threads.Queue

namespace BadApple.Threads

open Function (update)
open Links (Reads)

namespace Sleeping

/-! ## Steps -/

/-- A call of `add`: the TCB, the tick at which its time comes, and how many calls there were before. -/
structure Entry where
  tcb : Nat
  due : Nat
  number : Nat
deriving DecidableEq, Repr

/-- The queue and the clock, and what has happened. -/
structure Sleepers where
  first : Option Nat
  next : Nat → Option Nat
  atJiffies : Nat → Nat
  jiffies : Nat
  ticks : Nat
  entry : Nat → Entry
  queued : List Nat
  added : List Entry
  removed : List Entry

/-- What happens. -/
inductive Action where
  | add (tcb secs : Nat)
  | remove
  | tick
deriving DecidableEq, Repr

/-- `Pit::secondsToJiffies`. -/
def secondsToJiffies (jiffiesPerSecond secs : Nat) : Nat := u32 (jiffiesPerSecond * secs)

/-- `SleepQueue::add(tcb, secs)`; the ghosts are brought up to date. -/
def add (jiffiesPerSecond : Nat) (s : Sleepers) (tcb secs : Nat) : Option Sleepers :=
  let atJiffies := update s.atJiffies tcb (u32 (s.jiffies + secondsToJiffies jiffiesPerSecond secs))
  let e : Entry := { tcb := tcb, due := s.ticks + jiffiesPerSecond * secs, number := s.added.length }
  (SleepQueue.add s.next atJiffies s.first (s.queued.length + 1) tcb).map fun r =>
    { s with
      first := r.1
      next := r.2
      atJiffies := atJiffies
      entry := update s.entry tcb e
      queued := tcb :: s.queued
      added := s.added ++ [e] }

/-- What `SleepQueue::remove()` returns. -/
def removeResult (s : Sleepers) : Option Nat := (SleepQueue.remove s.next s.atJiffies s.jiffies s.first).1

/-- `SleepQueue::remove()`. -/
def remove (s : Sleepers) : Sleepers :=
  let r := SleepQueue.remove s.next s.atJiffies s.jiffies s.first
  { s with
    first := r.2.1
    next := r.2.2
    queued := s.queued.filter fun t => r.1 ≠ some t
    removed := s.removed ++ (r.1.map s.entry).toList }

/-- `Pit::jiffies ++`. -/
def tick (s : Sleepers) : Sleepers := { s with jiffies := u32 (s.jiffies + 1), ticks := s.ticks + 1 }

def step (jiffiesPerSecond : Nat) (s : Sleepers) : Action → Option Sleepers
  | .add tcb secs => if tcb ∈ s.queued ∨ 4294967296 ≤ secs then none else add jiffiesPerSecond s tcb secs
  | .remove => some (remove s)
  | .tick => some (tick s)

/-- Nothing is on the queue, and the clock has any value. -/
def Initial (s : Sleepers) : Prop :=
  s.first = none ∧ s.jiffies < 4294967296 ∧ s.ticks = s.jiffies ∧ s.queued = [] ∧ s.added = [] ∧ s.removed = []

/-- The states of all runs. -/
def Reached (jiffiesPerSecond : Nat) : Sleepers → Prop :=
  Runs.Reached Initial fun s a t => step jiffiesPerSecond s a = some t

/-- Nothing wraps around in this step, or nothing that matters. -/
def NoWrap (jiffiesPerSecond : Nat) (s : Sleepers) : Action → Prop
  | .add _ secs => jiffiesPerSecond * secs < 4294967296 ∧ s.jiffies + jiffiesPerSecond * secs < 4294967296
  | .remove => True
  | .tick => s.jiffies + 1 < 4294967296 ∨ s.queued = []

instance (jiffiesPerSecond : Nat) (s : Sleepers) : (a : Action) → Decidable (NoWrap jiffiesPerSecond s a)
  | .add _ _ => inferInstanceAs (Decidable (_ ∧ _))
  | .remove => inferInstanceAs (Decidable True)
  | .tick => inferInstanceAs (Decidable (_ ∨ _))

/-- The states of the runs in which nothing wraps around. -/
def Unwrapped (jiffiesPerSecond : Nat) : Sleepers → Prop :=
  Runs.Guarded Initial (fun s a t => step jiffiesPerSecond s a = some t) (NoWrap jiffiesPerSecond)

/-! ## The laws -/

/-- One entry comes before another one: its time does, or the times are equal and it was added before. -/
def Before (e f : Entry) : Prop := e.due < f.due ∨ (e.due = f.due ∧ e.number < f.number)

/-- What holds when the TCBs of `l` are on the queue. -/
structure LawsOf (s : Sleepers) (l : List Nat) : Prop where
  /-- They are, each of them once. -/
  reads : Reads s.next s.first l
  nodup : l.Nodup
  /-- Nothing is lost, and nothing is there twice. -/
  kept : s.added.Perm (s.removed ++ l.map s.entry)
  /-- Entries are removed in their order, and will be. -/
  ordered : (s.removed ++ l.map s.entry).Pairwise Before
  /-- `remove` returns no TCB too early. -/
  timely : ∀ p, removeResult s = some p → p ∈ l ∧ (s.entry p).tcb = p ∧ (s.entry p).due ≤ s.ticks
  /-- It returns null only if no time has come. -/
  empty : removeResult s = none → ∀ p ∈ l, s.ticks < (s.entry p).due

/-- The laws of a sleep queue. -/
def Laws (s : Sleepers) : Prop := ∃ l, LawsOf s l

/-! ## The invariant -/

/-- The invariant: the ticks are ahead of `jiffies` by as much as the times are ahead of the words for them. -/
structure Inv (s : Sleepers) (l : List Nat) (base : Nat) : Prop where
  reads : Reads s.next s.first l
  nodup : l.Nodup
  queued : s.queued.Perm l
  kept : s.added.Perm (s.removed ++ l.map s.entry)
  ordered : (s.removed ++ l.map s.entry).Pairwise Before
  past : ∀ e ∈ s.removed, e.due ≤ s.ticks
  numbers : ∀ e ∈ s.added, e.number < s.added.length
  names : ∀ p ∈ l, (s.entry p).tcb = p
  clock : s.ticks = s.jiffies + base
  due : ∀ p ∈ l, (s.entry p).due = s.atJiffies p + base

variable {s t : Sleepers} {l : List Nat} {jps base tcb secs p : Nat} {a : Action}

/-- **The place of a new TCB**: behind all whose words are not greater, before the others. -/
theorem insertSleep_split (atJiffies : Nat → Nat) (tcb : Nat) (l : List Nat) :
    ∃ before after, l = before ++ after ∧ insertSleep atJiffies tcb l = before ++ tcb :: after ∧
      (∀ u ∈ before, atJiffies u ≤ atJiffies tcb) ∧ ∀ u, after.head? = some u → atJiffies tcb < atJiffies u := by
  induction l with
  | nil => exact ⟨[], [], rfl, rfl, by simp, by simp⟩
  | cons x l ih =>
    rw [insertSleep]
    by_cases hx : atJiffies x ≤ atJiffies tcb
    · obtain ⟨before, after, rfl, hinsert, hbefore, hafter⟩ := ih
      rw [if_pos hx]
      refine ⟨x :: before, after, rfl, by rw [hinsert]; rfl, ?_, hafter⟩
      intro u hu
      rcases List.mem_cons.1 hu with rfl | hu
      · exact hx
      · exact hbefore u hu
    · rw [if_neg hx]
      refine ⟨[], x :: l, rfl, rfl, by simp, ?_⟩
      intro u hu
      obtain rfl := Option.some.inj hu
      omega

theorem Before.due_le {e f : Entry} (h : Before e f) : e.due ≤ f.due := by
  rcases h with h | ⟨h, _⟩
  · exact Nat.le_of_lt h
  · exact Nat.le_of_eq h

theorem Initial.inv (h : Initial s) : Inv s [] 0 := by
  obtain ⟨hfirst, _, hticks, hqueued, hadded, hremoved⟩ := h
  refine ⟨hfirst, List.nodup_nil, ?_, ?_, ?_, ?_, ?_, ?_, hticks, ?_⟩
  · rw [hqueued]
  · rw [hadded, hremoved]
    exact List.Perm.nil
  · rw [hremoved]
    exact List.Pairwise.nil
  · rw [hremoved]
    simp
  · rw [hadded]
    simp
  · simp
  · simp

/-- A tick that does not wrap around; or one that does while nothing is on the queue. -/
theorem Inv.tick (h : Inv s l base) (hok : NoWrap jps s .tick) : ∃ base', Inv (tick s) l base' := by
  have hclock := h.clock
  have hpast : ∀ e ∈ s.removed, e.due ≤ s.ticks + 1 := fun e he => Nat.le_succ_of_le (h.past e he)
  rcases hok with hlt | hnone
  · refine ⟨base, h.reads, h.nodup, h.queued, h.kept, h.ordered, hpast, h.numbers, h.names, ?_, h.due⟩
    show s.ticks + 1 = u32 (s.jiffies + 1) + base
    rw [u32_of_lt hlt]
    omega
  · obtain rfl : l = [] := List.perm_nil.1 (hnone ▸ h.queued).symm
    have hle : u32 (s.jiffies + 1) ≤ s.jiffies + 1 := by
      rw [u32_eq]
      exact Nat.mod_le _ _
    refine ⟨s.ticks + 1 - u32 (s.jiffies + 1), h.reads, h.nodup, h.queued, h.kept, h.ordered, hpast, h.numbers,
      h.names, ?_, fun p hp => absurd hp List.not_mem_nil⟩
    show s.ticks + 1 = u32 (s.jiffies + 1) + (s.ticks + 1 - u32 (s.jiffies + 1))
    omega

/-- An entry that is put among those that are there, behind those whose times are not later and before those
    whose times are. -/
theorem ordered_insert {R A : List Entry} {e : Entry} (h : (R ++ A).Pairwise Before)
    (hbefore : ∀ x ∈ R, x.due ≤ e.due ∧ x.number < e.number) (hafter : ∀ y ∈ A, e.due < y.due) :
    (R ++ e :: A).Pairwise Before := by
  obtain ⟨hR, hA, hcross⟩ := List.pairwise_append.1 h
  refine List.pairwise_append.2 ⟨hR, List.pairwise_cons.2 ⟨fun y hy => Or.inl (hafter y hy), hA⟩, ?_⟩
  intro x hx y hy
  rcases List.mem_cons.1 hy with rfl | hy
  · obtain ⟨hdue, hnumber⟩ := hbefore x hx
    rcases Nat.lt_or_eq_of_le hdue with hlt | heq
    · exact Or.inl hlt
    · exact Or.inr ⟨heq, hnumber⟩
  · exact hcross x hx y hy

/-- **`add`** where nothing wraps around: the new entry comes behind all whose times come before it or with
    it. -/
theorem Inv.add (h : Inv s l base) (hnew : tcb ∉ s.queued) (hok : NoWrap jps s (.add tcb secs)) :
    ∃ s' l', add jps s tcb secs = some s' ∧ Inv s' l' base := by
  obtain ⟨hproduct, hsum⟩ := hok
  have hl : tcb ∉ l := fun hmem => hnew (h.queued.mem_iff.2 hmem)
  have hclock := h.clock
  have hword : u32 (s.jiffies + secondsToJiffies jps secs) = s.jiffies + jps * secs := by
    rw [secondsToJiffies, u32_of_lt hproduct, u32_of_lt hsum]
  unfold Sleeping.add
  simp only [hword]
  have hfuel : l.length < s.queued.length + 1 := by
    rw [h.queued.length_eq]
    exact Nat.lt_succ_self _
  obtain ⟨before, after, rfl, hinsert, hbefore, hafter⟩ :=
    insertSleep_split (update s.atJiffies tcb (s.jiffies + jps * secs)) tcb l
  obtain ⟨first', next', hadd, hreads, _⟩ : ∃ first' next', SleepQueue.add s.next
      (update s.atJiffies tcb (s.jiffies + jps * secs)) s.first (s.queued.length + 1) tcb = some (first', next') ∧
      Reads next' first' (insertSleep (update s.atJiffies tcb (s.jiffies + jps * secs)) tcb (before ++ after)) ∧
      ∀ u, u ≠ tcb → u ∉ before ++ after → next' u = s.next u := SleepQueue.add_eq h.reads h.nodup hl hfuel
  rw [hinsert] at hreads
  rw [hadd]
  -- the new entry is none of those on the queue, whose words stay
  have hne : ∀ u ∈ before ++ after, u ≠ tcb := fun u hu heq => hl (heq ▸ hu)
  have hat : ∀ u ∈ before ++ after, update s.atJiffies tcb (s.jiffies + jps * secs) u = s.atJiffies u :=
    fun u hu => Function.update_of_ne (hne u hu) _ _
  have hentry : ∀ (e : Entry), ∀ u ∈ before ++ after, update s.entry tcb e u = s.entry u :=
    fun e u hu => Function.update_of_ne (hne u hu) _ _
  have hmap : ∀ e : Entry, (before ++ tcb :: after).map (update s.entry tcb e) =
      before.map s.entry ++ e :: after.map s.entry := by
    intro e
    rw [List.map_append, List.map_cons, Function.update_self]
    congr 1
    · exact List.map_congr_left fun u hu => hentry e u (List.mem_append_left _ hu)
    · congr 1
      exact List.map_congr_left fun u hu => hentry e u (List.mem_append_right _ hu)
  have hkept := h.kept
  have hordered := h.ordered
  rw [List.map_append, ← List.append_assoc] at hkept hordered
  have hnumbers : ∀ x ∈ s.removed ++ before.map s.entry, x.number < s.added.length := by
    intro x hx
    exact h.numbers x (hkept.mem_iff.2 (List.mem_append_left _ hx))
  refine ⟨_, before ++ tcb :: after, rfl, hreads, ?_, ?_, ?_, ?_, ?_, ?_, ?_, hclock, ?_⟩
  · exact List.nodup_middle.2 (List.nodup_cons.2 ⟨hl, h.nodup⟩)
  · exact (h.queued.cons tcb).trans List.perm_middle.symm
  · show (s.added ++ [_]).Perm (s.removed ++ (before ++ tcb :: after).map _)
    rw [hmap, ← List.append_assoc]
    exact (List.perm_append_singleton _ _).trans ((hkept.cons _).trans List.perm_middle.symm)
  · show (s.removed ++ (before ++ tcb :: after).map _).Pairwise Before
    rw [hmap, ← List.append_assoc]
    refine ordered_insert hordered (fun x hx => ⟨?_, hnumbers x hx⟩) ?_
    · rcases List.mem_append.1 hx with hmem | hmem
      · exact Nat.le_trans (h.past x hmem) (Nat.le_add_right _ _)
      · obtain ⟨u, hu, rfl⟩ := List.mem_map.1 hmem
        have hin := List.mem_append_left after hu
        have hle := hbefore u hu
        rw [hat u hin, Function.update_self] at hle
        rw [h.due u hin]
        show _ ≤ s.ticks + jps * secs
        omega
    · intro y hy
      obtain ⟨u, hu, rfl⟩ := List.mem_map.1 hy
      -- the first of those behind it is later, and the others are later than that
      cases after with
      | nil => cases hu
      | cons v after =>
        have hlt := hafter v rfl
        have hin : v ∈ before ++ v :: after := List.mem_append_right _ List.mem_cons_self
        rw [hat v hin, Function.update_self] at hlt
        have hv : s.ticks + jps * secs < (s.entry v).due := by
          rw [h.due v hin]
          omega
        have hpair := (List.pairwise_append.1 hordered).2.1
        rw [List.map_cons] at hpair
        rcases List.mem_cons.1 hu with rfl | hu
        · exact hv
        · have hle := ((List.pairwise_cons.1 hpair).1 (s.entry u) (List.mem_map_of_mem hu)).due_le
          exact Nat.lt_of_lt_of_le hv hle
  · exact h.past
  · intro e he
    show e.number < (s.added ++ [_]).length
    rw [List.length_append]
    rcases List.mem_append.1 he with hmem | hmem
    · exact Nat.lt_succ_of_lt (h.numbers e hmem)
    · obtain rfl := List.mem_singleton.1 hmem
      exact Nat.lt_succ_self _
  · intro u hu
    show (update s.entry tcb _ u).tcb = u
    rcases eq_or_ne u tcb with rfl | hne'
    · rw [Function.update_self]
    · rw [Function.update_of_ne hne']
      exact h.names u (by simpa [hne'] using hu)
  · intro u hu
    show (update s.entry tcb _ u).due = update s.atJiffies tcb _ u + base
    rcases eq_or_ne u tcb with rfl | hne'
    · rw [Function.update_self, Function.update_self]
      show s.ticks + jps * secs = _
      omega
    · rw [Function.update_of_ne hne', Function.update_of_ne hne']
      exact h.due u (by simpa [hne'] using hu)

/-- **`remove`** takes the first TCB if its word is not above `jiffies`, and does nothing otherwise. -/
theorem remove_cases (h : Inv s l base) :
    (removeResult s = none ∧ remove s = s ∧ ∀ p rest, l = p :: rest → s.jiffies < s.atJiffies p) ∨
    ∃ p rest, l = p :: rest ∧ removeResult s = some p ∧ s.atJiffies p ≤ s.jiffies ∧ Inv (remove s) rest base := by
  have hboth : (removeSleep s.atJiffies s.jiffies l = none ∧
      SleepQueue.remove s.next s.atJiffies s.jiffies s.first = (none, s.first, s.next)) ∨
      ∃ p rest first' next', removeSleep s.atJiffies s.jiffies l = some (p, rest) ∧
        SleepQueue.remove s.next s.atJiffies s.jiffies s.first = (some p, first', next') ∧
        Reads next' first' rest ∧ ∀ u, u ≠ p → next' u = s.next u := SleepQueue.remove_eq h.reads h.nodup
  rcases hboth with
    ⟨hnone, hremove⟩ | ⟨p, rest, first', next', hsome, hremove, hreads, _⟩
  · left
    refine ⟨by rw [removeResult, hremove], ?_, ?_⟩
    · unfold remove
      rw [hremove]
      have hall : s.queued.filter (fun t => (none : Option Nat) ≠ some t) = s.queued := by
        simp
      show { s with queued := s.queued.filter _, removed := s.removed ++ [] } = s
      rw [hall, List.append_nil]
    · rintro p rest rfl
      rw [removeSleep] at hnone
      by_contra hnot
      rw [if_neg hnot] at hnone
      cases hnone
  · right
    have hl := removeSleep_eq hsome
    simp only at hl
    subst hl
    have hle : s.atJiffies p ≤ s.jiffies := by
      rw [removeSleep] at hsome
      by_contra hnot
      rw [if_pos (by omega)] at hsome
      cases hsome
    have hnodup := List.nodup_cons.1 h.nodup
    have hkept := h.kept
    have hordered := h.ordered
    rw [List.map_cons, ← List.singleton_append, ← List.append_assoc] at hkept hordered
    have hdue : (s.entry p).due ≤ s.ticks := by
      have hclock := h.clock
      rw [h.due p List.mem_cons_self]
      omega
    refine ⟨p, rest, rfl, by rw [removeResult, hremove], hle, ?_⟩
    unfold remove
    rw [hremove]
    refine ⟨hreads, hnodup.2, ?_, hkept, hordered, ?_, h.numbers, ?_, h.clock, ?_⟩
    · show (s.queued.filter fun t => some p ≠ some t).Perm rest
      refine (h.queued.filter _).trans (List.Perm.of_eq ?_)
      rw [List.filter_cons_of_neg (by simp), List.filter_eq_self]
      intro u hu
      have hne : p ≠ u := fun heq => hnodup.1 (heq ▸ hu)
      simpa using hne
    · intro e he
      rcases List.mem_append.1 he with hmem | hmem
      · exact h.past e hmem
      · obtain rfl := List.mem_singleton.1 hmem
        exact hdue
    · exact fun u hu => h.names u (List.mem_cons_of_mem p hu)
    · exact fun u hu => h.due u (List.mem_cons_of_mem p hu)

/-- **Every step that does not wrap around** keeps the invariant. -/
theorem Inv.step (h : Inv s l base) (hok : NoWrap jps s a) (hstep : step jps s a = some t) :
    ∃ l' base', Inv t l' base' := by
  cases a with
  | add tcb secs =>
    rw [Sleeping.step] at hstep
    by_cases hbad : tcb ∈ s.queued ∨ 4294967296 ≤ secs
    · rw [if_pos hbad] at hstep
      cases hstep
    · rw [if_neg hbad] at hstep
      obtain ⟨s', l', hadd, hinv⟩ := h.add (fun hmem => hbad (Or.inl hmem)) hok
      rw [hadd] at hstep
      obtain rfl := Option.some.inj hstep
      exact ⟨l', base, hinv⟩
  | remove =>
    obtain rfl := Option.some.inj hstep
    rcases remove_cases h with ⟨_, hsame, _⟩ | ⟨_, rest, _, _, _, hinv⟩
    · rw [hsame]
      exact ⟨l, base, h⟩
    · exact ⟨rest, base, hinv⟩
  | tick =>
    obtain rfl := Option.some.inj hstep
    obtain ⟨base', hinv⟩ := h.tick hok
    exact ⟨l, base', hinv⟩

theorem Unwrapped.inv (h : Unwrapped jps s) : ∃ l base, Inv s l base :=
  Runs.Guarded.invariant (I := fun s => ∃ l base, Inv s l base) (fun _ hi => ⟨[], 0, hi.inv⟩)
    (fun _ _ _ _ ⟨_, _, hinv⟩ hok hstep => hinv.step hok hstep) h

/-! ## The result -/

theorem Inv.laws (h : Inv s l base) : LawsOf s l := by
  have hclock := h.clock
  refine ⟨h.reads, h.nodup, h.kept, h.ordered, ?_, ?_⟩
  · intro p hp
    rcases remove_cases h with ⟨hnone, _⟩ | ⟨p', rest, rfl, hsome, hle, _⟩
    · rw [hp] at hnone
      cases hnone
    · rw [hp] at hsome
      obtain rfl := Option.some.inj hsome
      refine ⟨List.mem_cons_self, h.names p List.mem_cons_self, ?_⟩
      rw [h.due p List.mem_cons_self]
      omega
  · intro hnone p hp
    rcases remove_cases h with ⟨_, _, hlater⟩ | ⟨p', rest, _, hsome, _⟩
    · -- the time of the first one has not come, and the others are not earlier
      cases l with
      | nil => cases hp
      | cons q rest =>
        have hq : s.ticks < (s.entry q).due := by
          have hlt := hlater q rest rfl
          rw [h.due q List.mem_cons_self]
          omega
        have hpair := (List.pairwise_append.1 h.ordered).2.1
        rw [List.map_cons] at hpair
        rcases List.mem_cons.1 hp with rfl | hmem
        · exact hq
        · have hle := ((List.pairwise_cons.1 hpair).1 (s.entry p) (List.mem_map_of_mem hmem)).due_le
          exact Nat.lt_of_lt_of_le hq hle
    · rw [hsome] at hnone
      cases hnone

/-- **`add` returns**: its loop comes to an end. -/
theorem add_returns (h : Unwrapped jps s) (hnew : tcb ∉ s.queued) (hok : NoWrap jps s (.add tcb secs)) :
    ∃ s', add jps s tcb secs = some s' := by
  obtain ⟨l, base, hinv⟩ := h.inv
  obtain ⟨s', _, hadd, _⟩ := hinv.add hnew hok
  exact ⟨s', hadd⟩

/-- **The laws hold** in all runs in which nothing wraps around. -/
theorem sleepQueue_laws (h : Unwrapped jps s) : Laws s := by
  obtain ⟨l, base, hinv⟩ := h.inv
  exact ⟨l, hinv.laws⟩

/-- At the start, with a clock that stands at `jiffies`. -/
def start (jiffies : Nat) : Sleepers where
  first := none
  next := fun _ => none
  atJiffies := fun _ => 0
  jiffies := jiffies
  ticks := jiffies
  entry := fun _ => { tcb := 0, due := 0, number := 0 }
  queued := []
  added := []
  removed := []

theorem start_initial {jiffies : Nat} (h : jiffies < 4294967296) : Initial (start jiffies) :=
  ⟨rfl, h, rfl, rfl, rfl, rfl⟩

/-- At 1000 ticks a second, a TCB that is to sleep for 2²⁹ seconds is returned at once: the product is a
    multiple of 2³². -/
theorem sleep_too_short : ∃ s, Reached 1000 s ∧ ¬ Laws s := by
  have hrun : (step 1000 (start 0) (.add 7 536870912)).map (fun s => decide (removeResult s = some 7 ∧
      (s.entry 7).due = 536870912000 ∧ s.ticks = 0)) = some true := by decide +kernel
  obtain ⟨s, hstep, hfacts⟩ := Option.map_eq_some_iff.1 hrun
  obtain ⟨hresult, hdue, hticks⟩ := of_decide_eq_true hfacts
  refine ⟨s, Runs.Reached.next (a := Action.add 7 536870912)
    (Runs.Reached.start (start_initial (by decide))) hstep, ?_⟩
  rintro ⟨l, hlaws⟩
  have htimely := (hlaws.timely 7 hresult).2.2
  omega

/-- Two TCBs, of which the second one is woken up first; the first one sleeps on. -/
def twoSleepers : Option Sleepers :=
  [.add 7 2, .add 8 1, .remove, .tick, .remove].foldlM
    (fun s a => if decide (NoWrap 1 s a) then step 1 s a else none) (start 5)

/-- What the laws say there. -/
theorem sleepQueue_laws_two : ∃ s, twoSleepers = some s ∧ (s.removed.map Entry.tcb = [8] ∧ s.queued = [7]) ∧ Laws s := by
  have hrun : twoSleepers.map (fun s => decide (s.removed.map Entry.tcb = [8] ∧ s.queued = [7])) = some true := by
    decide +kernel
  obtain ⟨s, hs, hfacts⟩ := Option.map_eq_some_iff.1 hrun
  have hstart : Runs.Guarded Initial (fun s a t => step 1 s a = some t) (fun s a => decide (NoWrap 1 s a) = true)
      (start 5) := Runs.Guarded.start (start_initial (by decide))
  have hguarded := hstart.foldlM hs
  exact ⟨s, hs, of_decide_eq_true hfacts, sleepQueue_laws (hguarded.mono fun _ _ => of_decide_eq_true)⟩

end Sleeping

end BadApple.Threads
