/-
  `Semaphore` — counting semaphores, and `BlockingLock` (kernel/semaphore.h, kernel/blocking_lock.h).

  1. **Data** — the count and the queue of waiting threads, which are named by numbers.  The count is a
     64-bit word; no machine runs long enough to fill it.
  2. **Sections** — `down` checks the count under the spin lock; if it is `0`, the thread blocks, and the
     helper of its core checks once more before it puts the thread on the queue.  `up` takes the first
     thread from the queue, or adds to the count.  A section is one step; between two sections of a `down`
     any others may run.
  3. **History** — `events` says what the sections have done, in order.
  4. **The result** — `semaphore_laws`: nothing is lost and nothing is made up, threads are released in the
     order in which they came, and a lock has one holder.
-/
import Mathlib.Data.List.Nodup
import Mathlib.Logic.Function.Basic
import Mathlib.Tactic.ByContra
import BadApple.Lib.Runs

namespace BadApple

open Function (update)

/-! ## The semaphore -/

/-- `Semaphore`. -/
structure Semaphore where
  n : Nat
  waiting : List Nat
deriving DecidableEq, Repr

namespace Semaphore

/-- `Semaphore(n)`. -/
def new (n : Nat) : Semaphore := ⟨n, []⟩

/-- The first section of `down`: whether there was one to take. -/
def check (s : Semaphore) : Bool × Semaphore :=
  if s.n > 0 then (true, { s with n := s.n - 1 }) else (false, s)

/-- The section of `down` in the helper: whether there was one to take; if not, the thread waits. -/
def recheck (s : Semaphore) (tcb : Nat) : Bool × Semaphore :=
  if s.n > 0 then (true, { s with n := s.n - 1 }) else (false, { s with waiting := s.waiting ++ [tcb] })

/-- The section of `up`: the thread to wake up, if one is waiting. -/
def up (s : Semaphore) : Option Nat × Semaphore :=
  match s.waiting with
  | [] => (none, { s with n := s.n + 1 })
  | wakeup :: rest => (some wakeup, { s with waiting := rest })

end Semaphore

/-! ## Runs -/

/-- Where a thread is: outside; in `down`, between its two sections; on the queue; or granted by the helper
    or by an `up`, but not yet back from `down`. -/
inductive DownPhase where
  | outside
  | checked
  | queued
  | granted
deriving DecidableEq, Repr

/-- What a section did: `down` of a thread was granted, or the thread was queued; an `up` of a thread added
    to the count, or released a waiting thread, whose `down` is granted by that. -/
inductive SemaphoreEvent where
  | granted (t : Nat)
  | queued (t : Nat)
  | posted (u : Nat)
  | released (u t : Nat)
deriving DecidableEq, Repr

/-- The sections of `down` and `up`, and the return of a thread that was granted what it waited for. -/
inductive Section where
  | down (t : Nat)
  | recheck (t : Nat)
  | up (t : Nat)
  | back (t : Nat)
deriving DecidableEq, Repr

/-- A semaphore, the threads that use it, and what has happened. -/
structure Users where
  sem : Semaphore
  phase : Nat → DownPhase
  events : List SemaphoreEvent

namespace Users

/-- Nobody has used the semaphore yet. -/
def start (initial : Nat) : Users := ⟨.new initial, fun _ => .outside, []⟩

/-- One section. -/
def step (s : Users) : Section → Option Users
  | .down t =>
    if s.phase t = .outside then
      match s.sem.check with
      | (true, sem) => some { s with sem := sem, events := s.events ++ [.granted t] }
      | (false, sem) => some { s with sem := sem, phase := update s.phase t .checked }
    else none
  | .recheck t =>
    if s.phase t = .checked then
      match s.sem.recheck t with
      | (true, sem) => some ⟨sem, update s.phase t .granted, s.events ++ [.granted t]⟩
      | (false, sem) => some ⟨sem, update s.phase t .queued, s.events ++ [.queued t]⟩
    else none
  | .up u =>
    if s.phase u = .outside then
      match s.sem.up with
      | (none, sem) => some { s with sem := sem, events := s.events ++ [.posted u] }
      | (some t, sem) => some ⟨sem, update s.phase t .granted, s.events ++ [.released u t]⟩
    else none
  | .back t =>
    if s.phase t = .granted then some { s with phase := update s.phase t .outside } else none

end Users

/-! ## History -/

def SemaphoreEvent.isUp : SemaphoreEvent → Bool
  | .posted _ | .released _ _ => true
  | _ => false

def SemaphoreEvent.isGrant : SemaphoreEvent → Bool
  | .granted _ | .released _ _ => true
  | _ => false

/-- The threads put on the queue, in order. -/
def queuedOf (es : List SemaphoreEvent) : List Nat :=
  es.filterMap fun e => match e with
    | .queued t => some t
    | _ => none

/-- The threads released by an `up`, in order. -/
def releasedOf (es : List SemaphoreEvent) : List Nat :=
  es.filterMap fun e => match e with
    | .released _ t => some t
    | _ => none

/-- Who holds a lock after one more event: whose `down` was granted, and who has not called `up` since. -/
def holdersAfter (hs : List Nat) : SemaphoreEvent → List Nat
  | .granted t => t :: hs
  | .queued _ => hs
  | .posted u => hs.erase u
  | .released u t => t :: hs.erase u

/-- Who holds a lock. -/
def holders (es : List SemaphoreEvent) : List Nat := es.foldl holdersAfter []

/-- `BlockingLock`: `up` is `unlock`, and is called by a thread that holds the lock. -/
def unlocksHeld (s : Users) : Section → Bool
  | .up u => (holders s.events).contains u
  | _ => true

/-! ## The invariant -/

variable {s s' : Users} {initial t u : Nat} {a : Section}

/-- **The laws of a semaphore**, in one state. -/
structure SemaphoreOk (initial : Nat) (s : Users) : Prop where
  /-- A thread waits only while the count is `0`. -/
  noneWaits : 0 < s.sem.n → s.sem.waiting = []
  /-- What was there at first and what `up`s have added is in the count or was granted. -/
  conserved : initial + s.events.countP SemaphoreEvent.isUp = s.sem.n + s.events.countP SemaphoreEvent.isGrant
  /-- Of the threads that were queued the first ones have been released, each once, in their order; the
      others are waiting. -/
  fifo : queuedOf s.events = releasedOf s.events ++ s.sem.waiting
  /-- On the queue are the threads that were queued and not released, once each. -/
  waiting_iff : ∀ t, t ∈ s.sem.waiting ↔ s.phase t = .queued
  nodup : s.sem.waiting.Nodup

theorem semaphoreOk_start (initial : Nat) : SemaphoreOk initial (.start initial) := by
  refine ⟨fun _ => rfl, rfl, rfl, fun t => ?_, List.nodup_nil⟩
  simp [Users.start, Semaphore.new]

/-- **All that a section can do.** -/
theorem Users.step_cases (h : s.step a = some s') :
    (∃ t, a = .down t ∧ s.phase t = .outside ∧ 0 < s.sem.n ∧
      s' = ⟨{ s.sem with n := s.sem.n - 1 }, s.phase, s.events ++ [.granted t]⟩) ∨
    (∃ t, a = .down t ∧ s.phase t = .outside ∧ s.sem.n = 0 ∧
      s' = ⟨s.sem, update s.phase t .checked, s.events⟩) ∨
    (∃ t, a = .recheck t ∧ s.phase t = .checked ∧ 0 < s.sem.n ∧
      s' = ⟨{ s.sem with n := s.sem.n - 1 }, update s.phase t .granted,
        s.events ++ [.granted t]⟩) ∨
    (∃ t, a = .recheck t ∧ s.phase t = .checked ∧ s.sem.n = 0 ∧
      s' = ⟨{ s.sem with waiting := s.sem.waiting ++ [t] }, update s.phase t .queued,
        s.events ++ [.queued t]⟩) ∨
    (∃ u, a = .up u ∧ s.phase u = .outside ∧ s.sem.waiting = [] ∧
      s' = ⟨{ s.sem with n := s.sem.n + 1 }, s.phase, s.events ++ [.posted u]⟩) ∨
    (∃ u t rest, a = .up u ∧ s.phase u = .outside ∧ s.sem.waiting = t :: rest ∧
      s' = ⟨{ s.sem with waiting := rest }, update s.phase t .granted,
        s.events ++ [.released u t]⟩) ∨
    (∃ t, a = .back t ∧ s.phase t = .granted ∧
      s' = ⟨s.sem, update s.phase t .outside, s.events⟩) := by
  cases a with
  | down t =>
    rw [Users.step] at h
    by_cases hp : s.phase t = .outside
    · rw [if_pos hp] at h
      unfold Semaphore.check at h
      by_cases hn : s.sem.n > 0
      · rw [if_pos hn] at h
        exact Or.inl ⟨t, rfl, hp, hn, (Option.some.inj h).symm⟩
      · rw [if_neg hn] at h
        exact Or.inr (Or.inl ⟨t, rfl, hp, by omega, (Option.some.inj h).symm⟩)
    · rw [if_neg hp] at h
      simp at h
  | recheck t =>
    rw [Users.step] at h
    by_cases hp : s.phase t = .checked
    · rw [if_pos hp] at h
      unfold Semaphore.recheck at h
      by_cases hn : s.sem.n > 0
      · rw [if_pos hn] at h
        exact Or.inr (Or.inr (Or.inl ⟨t, rfl, hp, hn, (Option.some.inj h).symm⟩))
      · rw [if_neg hn] at h
        exact Or.inr (Or.inr (Or.inr (Or.inl ⟨t, rfl, hp, by omega, (Option.some.inj h).symm⟩)))
    · rw [if_neg hp] at h
      simp at h
  | up u =>
    rw [Users.step] at h
    by_cases hp : s.phase u = .outside
    · rw [if_pos hp] at h
      unfold Semaphore.up at h
      cases hw : s.sem.waiting with
      | nil =>
        rw [hw] at h
        refine Or.inr (Or.inr (Or.inr (Or.inr (Or.inl ⟨u, rfl, hp, rfl, ?_⟩))))
        rw [← Option.some.inj h]
        simp only [hw]
      | cons t rest =>
        rw [hw] at h
        exact Or.inr (Or.inr (Or.inr (Or.inr (Or.inr (Or.inl
          ⟨u, t, rest, rfl, hp, rfl, (Option.some.inj h).symm⟩)))))
    · rw [if_neg hp] at h
      simp at h
  | back t =>
    rw [Users.step] at h
    by_cases hp : s.phase t = .granted
    · rw [if_pos hp] at h
      exact Or.inr (Or.inr (Or.inr (Or.inr (Or.inr (Or.inr ⟨t, rfl, hp, (Option.some.inj h).symm⟩)))))
    · rw [if_neg hp] at h
      simp at h

theorem queuedOf_append (es : List SemaphoreEvent) (e : SemaphoreEvent) :
    queuedOf (es ++ [e]) = queuedOf es ++ queuedOf [e] := List.filterMap_append ..

theorem releasedOf_append (es : List SemaphoreEvent) (e : SemaphoreEvent) :
    releasedOf (es ++ [e]) = releasedOf es ++ releasedOf [e] := List.filterMap_append ..

theorem countP_snoc (p : SemaphoreEvent → Bool) (es : List SemaphoreEvent) (e : SemaphoreEvent) :
    (es ++ [e]).countP p = es.countP p + if p e then 1 else 0 := by
  rw [List.countP_append, List.countP_cons, List.countP_nil, Nat.zero_add]

/-- A thread that is not queued changes its phase. -/
theorem waiting_iff_update {ts : List Nat} {phase : Nat → DownPhase} {p : DownPhase}
    (h : ∀ u, u ∈ ts ↔ phase u = .queued) (ht : phase t ≠ .queued) (hp : p ≠ .queued) :
    ∀ u, u ∈ ts ↔ update phase t p u = .queued := by
  intro u
  by_cases hu : u = t
  · subst hu
    rw [Function.update_self, h u]
    exact ⟨fun hq => absurd hq ht, fun hq => absurd hq hp⟩
  · rw [Function.update_of_ne hu]
    exact h u

/-- **One section keeps the laws.** -/
theorem SemaphoreOk.step (h : SemaphoreOk initial s) (hs : s.step a = some s') : SemaphoreOk initial s' := by
  obtain ⟨hnone, hcons, hfifo, hwait, hnodup⟩ := h
  rcases Users.step_cases hs with ⟨t, -, hp, hn, rfl⟩ | ⟨t, -, hp, hn, rfl⟩ | ⟨t, -, hp, hn, rfl⟩ |
    ⟨t, -, hp, hn, rfl⟩ | ⟨u, -, hp, hw, rfl⟩ | ⟨u, t, rest, -, hp, hw, rfl⟩ | ⟨t, -, hp, rfl⟩
  · -- granted at the first check
    refine ⟨fun _ => hnone hn, ?_, ?_, hwait, hnodup⟩
    · rw [countP_snoc, countP_snoc]
      simp only [SemaphoreEvent.isUp, SemaphoreEvent.isGrant, if_true, Bool.false_eq_true, if_false]
      omega
    · rw [queuedOf_append, releasedOf_append, hfifo]
      simp [queuedOf, releasedOf]
  · exact ⟨hnone, hcons, hfifo, waiting_iff_update hwait (by rw [hp]; decide) (by decide), hnodup⟩
  · -- granted in the helper
    refine ⟨fun _ => hnone hn, ?_, ?_, waiting_iff_update hwait (by rw [hp]; decide) (by decide), hnodup⟩
    · rw [countP_snoc, countP_snoc]
      simp only [SemaphoreEvent.isUp, SemaphoreEvent.isGrant, if_true, Bool.false_eq_true, if_false]
      omega
    · rw [queuedOf_append, releasedOf_append, hfifo]
      simp [queuedOf, releasedOf]
  · -- the thread has to wait
    have hnot : t ∉ s.sem.waiting := by
      rw [hwait t, hp]
      decide
    refine ⟨fun hpos => absurd hn (Nat.ne_of_gt hpos), ?_, ?_, fun u => ?_, ?_⟩
    · rw [countP_snoc, countP_snoc]
      simp only [SemaphoreEvent.isUp, SemaphoreEvent.isGrant, Bool.false_eq_true, if_false]
      exact hcons
    · rw [queuedOf_append, releasedOf_append, hfifo]
      simp [queuedOf, releasedOf]
    · show u ∈ s.sem.waiting ++ [t] ↔ update s.phase t DownPhase.queued u = .queued
      rw [List.mem_append, List.mem_singleton]
      by_cases hu : u = t
      · subst hu
        rw [Function.update_self]
        exact ⟨fun _ => rfl, fun _ => Or.inr rfl⟩
      · rw [Function.update_of_ne hu, hwait u]
        exact ⟨fun hor => hor.resolve_right hu, Or.inl⟩
    · show (s.sem.waiting ++ [t]).Nodup
      rw [← List.concat_eq_append, List.nodup_concat]
      exact ⟨hnot, hnodup⟩
  · -- an `up` with nobody waiting
    refine ⟨fun _ => hw, ?_, ?_, hwait, hnodup⟩
    · rw [countP_snoc, countP_snoc]
      simp only [SemaphoreEvent.isUp, SemaphoreEvent.isGrant, if_true, Bool.false_eq_true, if_false]
      omega
    · rw [queuedOf_append, releasedOf_append, hfifo]
      simp [queuedOf, releasedOf]
  · -- an `up` that releases the first thread
    have hzero : s.sem.n = 0 := by
      by_contra hne
      rw [hnone (Nat.pos_of_ne_zero hne)] at hw
      simp at hw
    rw [hw] at hnodup hwait hfifo
    obtain ⟨hnot, hnodup'⟩ := List.nodup_cons.1 hnodup
    refine ⟨fun hpos => absurd hzero (Nat.ne_of_gt hpos), ?_, ?_, fun v => ?_, hnodup'⟩
    · rw [countP_snoc, countP_snoc]
      simp only [SemaphoreEvent.isUp, SemaphoreEvent.isGrant, if_true]
      omega
    · rw [queuedOf_append, releasedOf_append, hfifo]
      simp [queuedOf, releasedOf]
    · show v ∈ rest ↔ update s.phase t DownPhase.granted v = .queued
      by_cases hv : v = t
      · subst hv
        rw [Function.update_self]
        exact ⟨fun hin => absurd hin hnot, fun hq => by simp at hq⟩
      · rw [Function.update_of_ne hv, ← hwait v, List.mem_cons]
        exact ⟨Or.inr, fun hor => hor.resolve_left hv⟩
  · exact ⟨hnone, hcons, hfifo, waiting_iff_update hwait (by rw [hp]; decide) (by decide), hnodup⟩

theorem holders_append (es : List SemaphoreEvent) (e : SemaphoreEvent) :
    holders (es ++ [e]) = holdersAfter (holders es) e := by
  unfold holders
  rw [List.foldl_append, List.foldl_cons, List.foldl_nil]

/-- **A lock**: there is one holder, or the count is `1`. -/
theorem holders_step (hold : (holders s.events).length + s.sem.n = 1)
    (hok : unlocksHeld s a = true) (hs : s.step a = some s') :
    (holders s'.events).length + s'.sem.n = 1 := by
  rcases Users.step_cases hs with ⟨t, -, -, hn, rfl⟩ | ⟨t, -, -, hn, rfl⟩ | ⟨t, -, -, hn, rfl⟩ |
    ⟨t, -, -, hn, rfl⟩ | ⟨u, rfl, -, hw, rfl⟩ | ⟨u, t, rest, rfl, -, hw, rfl⟩ | ⟨t, -, -, rfl⟩
  · rw [holders_append]
    show (holders s.events).length + 1 + (s.sem.n - 1) = 1
    omega
  · exact hold
  · rw [holders_append]
    show (holders s.events).length + 1 + (s.sem.n - 1) = 1
    omega
  · rw [holders_append]
    exact hold
  · have hu : u ∈ holders s.events := List.contains_iff_mem.1 hok
    have hlen := List.length_erase_of_mem hu
    have hpos := List.length_pos_of_mem hu
    rw [holders_append]
    show ((holders s.events).erase u).length + (s.sem.n + 1) = 1
    omega
  · have hu : u ∈ holders s.events := List.contains_iff_mem.1 hok
    have hlen := List.length_erase_of_mem hu
    have hpos := List.length_pos_of_mem hu
    rw [holders_append]
    show ((holders s.events).erase u).length + 1 + s.sem.n = 1
    omega
  · exact hold

/-! ## The result -/

/-- The states reached by any number of threads in any order of sections. -/
def SemaphoreRuns (initial : Nat) : Users → Prop :=
  Runs.Reached (fun s => s = .start initial) fun s a s' => s.step a = some s'

/-- The states reached when the semaphore is used as a lock. -/
def LockRuns : Users → Prop :=
  Runs.Guarded (fun s => s = .start 1) (fun s a s' => s.step a = some s') fun s a => unlocksHeld s a = true

theorem SemaphoreRuns.ok (h : SemaphoreRuns initial s) : SemaphoreOk initial s := by
  apply Runs.Reached.invariant (I := SemaphoreOk initial) ?_ ?_ h
  · rintro s rfl
    exact semaphoreOk_start initial
  · exact fun s a s' _ hok hs => hok.step hs

theorem LockRuns.one (h : LockRuns s) : (holders s.events).length + s.sem.n = 1 := by
  apply Runs.Guarded.invariant (I := fun s => (holders s.events).length + s.sem.n = 1) ?_ ?_ h
  · rintro s rfl
    rfl
  · exact fun s a s' _ hold hlock hs => holders_step hold hlock hs

/-- **Semaphores**: whatever the initial count, the threads and the order of their sections, the laws hold
    in every state reached; a thread between its two sections is never stuck; no thread waits while what
    was there at first and what has been added is not all granted; and a semaphore used as a lock never has
    two holders. -/
theorem semaphore_laws :
    (∀ initial s, SemaphoreRuns initial s → SemaphoreOk initial s ∧
      (∀ t, s.phase t = .checked → (s.step (.recheck t)).isSome = true) ∧
      (∀ t, s.phase t = .queued → s.sem.n = 0 ∧
        initial + s.events.countP SemaphoreEvent.isUp = s.events.countP SemaphoreEvent.isGrant)) ∧
    ∀ s, LockRuns s → (holders s.events).length ≤ 1 := by
  refine ⟨fun initial s hr => ⟨hr.ok, fun t ht => ?_, fun t ht => ?_⟩, fun s hr => ?_⟩
  · rw [Users.step, if_pos ht]
    rcases s.sem.recheck t with ⟨_ | _, sem⟩ <;> rfl
  · have hmem := (hr.ok.waiting_iff t).2 ht
    have hzero : s.sem.n = 0 := by
      by_contra hne
      rw [hr.ok.noneWaits (Nat.pos_of_ne_zero hne)] at hmem
      simp at hmem
    have hcons := hr.ok.conserved
    exact ⟨hzero, by omega⟩
  · have h := hr.one
    omega

/-- A semaphore with one unit, taken by a thread while another one waits; the first one gives it back. -/
theorem semaphore_laws_handOver : ∃ s, SemaphoreRuns 1 s ∧ SemaphoreOk 1 s ∧ LockRuns s ∧
    (holders s.events).length ≤ 1 ∧ s.events = [.granted 0, .queued 1, .released 0 1] := by
  have h₀ : LockRuns (.start 1) := Runs.Guarded.start rfl
  have h₁ := h₀.next (a := .down 0) rfl rfl
  have h₂ := h₁.next (a := .down 1) rfl rfl
  have h₃ := h₂.next (a := .recheck 1) rfl rfl
  have h₄ := h₃.next (a := .up 0) (by decide) rfl
  have hr : SemaphoreRuns 1 _ := h₄.mono fun _ _ _ => trivial
  exact ⟨_, hr, (semaphore_laws.1 1 _ hr).1, h₄, semaphore_laws.2 _ h₄, rfl⟩

end BadApple
