/-
  Threads whose code uses semaphores (kernel/semaphore.h).

  1. **Tasks** — several semaphores, a shared state, and any number of threads, each of which is at a place of
     a program (`Tokens.Program`).  A section of `down` or `up` is one step, and so is an action; a thread in
     `down` goes through the phases of a `Semaphore`'s user.
  2. **Refinement** — to a thread that was granted what it waits for, `down` has happened.  Seen so, a step is
     none, one or two steps of the program whose semaphores are counters (`Tokens.Step`): an `up` that wakes a
     thread is one `up` and one `down`.
  3. **Nothing left to do** — when no thread has a step of its own, each one rests or waits in `down` for a
     count that is `0`.
-/
import BadApple.Lib.Tokens
import BadApple.Threads.Semaphore

namespace BadApple

open Function (update)

open Tokens (Program Instr)

universe u v w x y

variable {ι : Type u} {σ : Type v} {π : Type w} {κ : Type x}

/-! ## Tasks -/

/-- Semaphores, a shared state, and the threads: where each one is, and how far it is in `down`. -/
structure Tasks (ι : Type u) (σ : Type v) (π : Type w) where
  sem : ι → Semaphore
  mem : σ
  pc : Nat → π
  phase : Nat → DownPhase

/-- A thread starts a call, or takes a step of its own. -/
inductive TaskStep (κ : Type x) where
  | call (t : Nat) (c : κ)
  | step (t : Nat)
deriving DecidableEq, Repr

namespace Tasks

/-- Nobody has begun to wait. -/
def start (initial : ι → Nat) (mem : σ) (pc : Nat → π) : Tasks ι σ π :=
  ⟨fun i => .new (initial i), mem, pc, fun _ => .outside⟩

variable [DecidableEq ι]

/-- A section of `down` of semaphore `i`, or the return from it to `next`. -/
def downStep (s : Tasks ι σ π) (t : Nat) (i : ι) (next : π) : Option (Tasks ι σ π) :=
  match s.phase t with
  | .outside =>
    match (s.sem i).check with
    | (true, sem) => some { s with sem := update s.sem i sem, pc := update s.pc t next }
    | (false, _) => some { s with phase := update s.phase t .checked }
  | .checked =>
    match (s.sem i).recheck t with
    | (true, sem) => some { s with sem := update s.sem i sem, phase := update s.phase t .granted }
    | (false, sem) => some { s with sem := update s.sem i sem, phase := update s.phase t .queued }
  | .queued => none
  | .granted => some { s with pc := update s.pc t next, phase := update s.phase t .outside }

/-- The section of `up` of semaphore `i`. -/
def upStep (s : Tasks ι σ π) (t : Nat) (i : ι) (next : π) : Tasks ι σ π :=
  match (s.sem i).up with
  | (none, sem) => { s with sem := update s.sem i sem, pc := update s.pc t next }
  | (some wakeup, sem) => ⟨update s.sem i sem, s.mem, update s.pc t next, update s.phase wakeup .granted⟩

/-- One step of one of the first `threads` threads. -/
def step (P : Program ι σ π κ) (threads : Nat) (s : Tasks ι σ π) : TaskStep κ → Option (Tasks ι σ π)
  | .call t c =>
    if t < threads then
      match P.code (s.pc t) with
      | .rest => (P.call c s.mem (s.pc t)).map fun r => { s with mem := r.1, pc := update s.pc t r.2 }
      | _ => none
    else none
  | .step t =>
    if t < threads then
      match P.code (s.pc t) with
      | .rest => none
      | .down i next => s.downStep t i next
      | .up i next => some (s.upStep t i next)
      | .act f => some { s with mem := (f t s.mem).1, pc := update s.pc t (f t s.mem).2 }
    else none

/-- A thread takes an action only where the condition holds. -/
def Allowed (P : Program ι σ π κ) (ok : Nat → σ → π → Prop) (s : Tasks ι σ π) : TaskStep κ → Prop
  | .call _ _ => True
  | .step t => ∀ f, P.code (s.pc t) = .act f → ok t s.mem (s.pc t)

/-- The states reached from `start` when each action meets `ok`. -/
def Guarded (P : Program ι σ π κ) (threads : Nat) (ok : Nat → σ → π → Prop) (start : Tasks ι σ π) :
    Tasks ι σ π → Prop :=
  Runs.Guarded (fun s => s = start) (fun s a s' => s.step P threads a = some s') (Allowed P ok)

/-- The states reached from `start`. -/
def Reached (P : Program ι σ π κ) (threads : Nat) (start : Tasks ι σ π) : Tasks ι σ π → Prop :=
  Guarded P threads (fun _ _ _ => True) start

/-- No thread has a step of its own. -/
def Stuck (P : Program ι σ π κ) (threads : Nat) (s : Tasks ι σ π) : Prop :=
  ∀ t, s.step P threads (.step t) = none

/-- A run without a condition goes on with any step. -/
theorem Reached.next {P : Program ι σ π κ} {threads : Nat} {start s s' : Tasks ι σ π}
    (h : Reached P threads start s) (a : TaskStep κ) (hs : s.step P threads a = some s') :
    Reached P threads start s' := by
  refine Runs.Guarded.next h ?_ hs
  cases a with
  | call t c => trivial
  | step t => exact fun _ _ => trivial

end Tasks

/-! ## The places of the threads -/

section Places

variable {P : Program ι σ π κ} {threads : Nat} {ok : Nat → σ → π → Prop} {s s' : Tasks ι σ π} {t : Nat} {i : ι}
  {next : π}

namespace Tasks

/-- Where a thread is when what was granted counts as taken. -/
def place (P : Program ι σ π κ) (s : Tasks ι σ π) (t : Nat) : π :=
  match P.code (s.pc t), s.phase t with
  | .down _ next, .granted => next
  | _, _ => s.pc t

/-- The counts, the shared state and the places. -/
def view (P : Program ι σ π κ) (s : Tasks ι σ π) : Tokens.State ι σ π :=
  ⟨fun i => (s.sem i).n, s.mem, s.place P⟩

/-- How many of the first `threads` threads are at a place of a kind. -/
def countAt (P : Program ι σ π κ) (threads : Nat) (s : Tasks ι σ π) (w : π → Nat) : Nat :=
  Tokens.tally w (s.place P) threads

theorem place_of_ne (h : s.phase t ≠ .granted) : s.place P t = s.pc t := by
  unfold place
  split
  · exact absurd ‹_› h
  · rfl

theorem place_at {p : π} (h : s.phase t ≠ .granted) (hpc : s.pc t = p) : s.place P t = p :=
  (place_of_ne h).trans hpc

theorem place_granted (hcode : P.code (s.pc t) = .down i next) (h : s.phase t = .granted) :
    s.place P t = next := by
  unfold place
  rw [hcode, h]

/-- What is the same in front of each `down` and behind it is the same at both places of a thread. -/
theorem place_same {β : Type y} {w : π → β}
    (h : ∀ p i next, P.code p = .down i next → w next = w p) : w (s.place P t) = w (s.pc t) := by
  unfold place
  split
  · exact h _ _ _ ‹_›
  · rfl

/-- A thread whose place and phase stay. -/
theorem place_congr (hpc : s'.pc t = s.pc t) (hphase : s'.phase t = s.phase t) :
    s'.place P t = s.place P t := by
  unfold place
  rw [hpc, hphase]

/-- The places after one thread has moved to `p`. -/
theorem place_update {p : π} (hself : s'.place P t = p)
    (hother : ∀ u, u ≠ t → s'.pc u = s.pc u ∧ s'.phase u = s.phase u) :
    s'.place P = update (s.place P) t p := by
  funext u
  by_cases hu : u = t
  · subst hu
    rw [Function.update_self, hself]
  · rw [Function.update_of_ne hu]
    exact place_congr (hother u hu).1 (hother u hu).2

/-- A thread that goes on in `down` without getting anything. -/
theorem place_inDown (hpc : s'.pc t = s.pc t) (hphase : s.phase t ≠ .granted)
    (hphase' : s'.phase t ≠ .granted) :
    s'.place P t = s.place P t := by
  rw [place_of_ne hphase, place_of_ne hphase', hpc]

/-- The places after `t` has moved to `p` and `w`, which waits in `down`, has been granted it. -/
theorem place_released {w : Nat} {p : π} (hwt : w ≠ t) (hphase : s.phase t ≠ .granted)
    (hwcode : P.code (s.pc w) = .down i next) (hpc : s'.pc = update s.pc t p)
    (hphase' : s'.phase = update s.phase w .granted) :
    s'.place P = update (update (s.place P) t p) w next := by
  have hgranted : s'.phase w = .granted := by rw [hphase', Function.update_self]
  have hother : ∀ u, u ≠ w → s'.phase u = s.phase u := by
    intro u hu
    rw [hphase', Function.update_of_ne hu]
  funext u
  by_cases huw : u = w
  · subst huw
    rw [Function.update_self]
    refine place_granted (i := i) ?_ hgranted
    rw [hpc, Function.update_of_ne hwt, hwcode]
  · rw [Function.update_of_ne huw]
    by_cases hut : u = t
    · subst hut
      rw [Function.update_self]
      refine place_at ?_ ?_
      · rw [hother u huw]
        exact hphase
      · rw [hpc, Function.update_self]
    · rw [Function.update_of_ne hut]
      refine place_congr ?_ (hother u huw)
      rw [hpc, Function.update_of_ne hut]

/-- The view after one thread has moved to `p`. -/
theorem view_moved {p : π} (hself : s'.place P t = p)
    (hother : ∀ u, u ≠ t → s'.pc u = s.pc u ∧ s'.phase u = s.phase u) :
    s'.view P = ⟨fun j => (s'.sem j).n, s'.mem, update (s.view P).pc t p⟩ := by
  unfold view
  rw [place_update hself hother]

end Tasks

/-- A step that is no action is always allowed. -/
theorem allowed_of_code {v : Tokens.State ι σ π} {c : Instr ι σ π} (hcode : P.code (v.pc t) = c)
    (hne : ∀ f, c ≠ .act f) : Tokens.Allowed P ok v t :=
  fun f hf => absurd (hcode.symm.trans hf) (hne f)

/-! ## The invariant -/

/-- **What holds of the semaphores and the phases.** -/
structure TasksOk (P : Program ι σ π κ) (threads : Nat) (s : Tasks ι σ π) : Prop where
  /-- A thread waits only while the count is `0`. -/
  noneWaits : ∀ i, 0 < (s.sem i).n → (s.sem i).waiting = []
  nodup : ∀ i, (s.sem i).waiting.Nodup
  /-- On the queue of a semaphore are the threads that wait in its `down`. -/
  waiting_iff : ∀ i t, t ∈ (s.sem i).waiting ↔
    s.phase t = .queued ∧ ∃ next, P.code (s.pc t) = .down i next
  /-- A thread that has begun to wait is in `down`. -/
  inDown : ∀ t, s.phase t ≠ .outside → t < threads ∧ ∃ i next, P.code (s.pc t) = .down i next

theorem tasksOk_start (initial : ι → Nat) (mem : σ) (pc : Nat → π) :
    TasksOk P threads (.start initial mem pc) := by
  refine ⟨fun _ _ => rfl, fun _ => List.nodup_nil, fun i t => ?_, fun t h => absurd rfl h⟩
  simp [Tasks.start, Semaphore.new]

/-- A thread that is not on a queue moves, and stays off the queues. -/
theorem TasksOk.moved (h : TasksOk P threads s) (hself : s.phase t ≠ .queued) (hself' : s'.phase t ≠ .queued)
    (hother : ∀ u, u ≠ t → s'.pc u = s.pc u ∧ s'.phase u = s.phase u)
    (hdown : s'.phase t ≠ .outside → t < threads ∧ ∃ i next, P.code (s'.pc t) = .down i next)
    (hsem : ∀ j, (s'.sem j).waiting = (s.sem j).waiting ∧
      (0 < (s'.sem j).n → 0 < (s.sem j).n ∨ (s.sem j).waiting = [])) :
    TasksOk P threads s' := by
  refine ⟨fun j hj => ?_, fun j => ?_, fun j u => ?_, fun u hu => ?_⟩
  · rw [(hsem j).1]
    exact ((hsem j).2 hj).elim (h.noneWaits j) id
  · rw [(hsem j).1]
    exact h.nodup j
  · rw [(hsem j).1, h.waiting_iff j u]
    by_cases hut : u = t
    · subst hut
      exact ⟨fun hq => absurd hq.1 hself, fun hq => absurd hq.1 hself'⟩
    · rw [(hother u hut).1, (hother u hut).2]
  · by_cases hut : u = t
    · subst hut
      exact hdown hu
    · rw [(hother u hut).2] at hu
      rw [(hother u hut).1]
      exact h.inDown u hu

/-- A thread that is not in `down` has not begun to wait. -/
theorem TasksOk.outside (h : TasksOk P threads s) (hcode : ∀ i next, P.code (s.pc t) ≠ .down i next) :
    s.phase t = .outside := by
  by_contra hne
  obtain ⟨-, i, next, hdown⟩ := h.inDown t hne
  exact hcode i next hdown

end Places

/-! ## Steps -/

variable [DecidableEq ι]

/-- What a step does. -/
inductive TaskMove (P : Program ι σ π κ) (threads : Nat) (s : Tasks ι σ π) :
    TaskStep κ → Tasks ι σ π → Prop
  | call {t : Nat} {c : κ} {mem : σ} {p : π} (ht : t < threads) (hcode : P.code (s.pc t) = .rest)
      (hcall : P.call c s.mem (s.pc t) = some (mem, p)) :
      TaskMove P threads s (.call t c) { s with mem := mem, pc := update s.pc t p }
  | act {t : Nat} {f : Nat → σ → σ × π} (ht : t < threads) (hcode : P.code (s.pc t) = .act f) :
      TaskMove P threads s (.step t) { s with mem := (f t s.mem).1, pc := update s.pc t (f t s.mem).2 }
  | taken {t : Nat} {i : ι} {next : π} (ht : t < threads) (hcode : P.code (s.pc t) = .down i next)
      (hphase : s.phase t = .outside) (hpos : 0 < (s.sem i).n) :
      TaskMove P threads s (.step t)
        { s with sem := update s.sem i ⟨(s.sem i).n - 1, (s.sem i).waiting⟩, pc := update s.pc t next }
  | checked {t : Nat} {i : ι} {next : π} (ht : t < threads) (hcode : P.code (s.pc t) = .down i next)
      (hphase : s.phase t = .outside) (hzero : (s.sem i).n = 0) :
      TaskMove P threads s (.step t) { s with phase := update s.phase t .checked }
  | granted {t : Nat} {i : ι} {next : π} (ht : t < threads) (hcode : P.code (s.pc t) = .down i next)
      (hphase : s.phase t = .checked) (hpos : 0 < (s.sem i).n) :
      TaskMove P threads s (.step t)
        { s with sem := update s.sem i ⟨(s.sem i).n - 1, (s.sem i).waiting⟩
                 phase := update s.phase t .granted }
  | queued {t : Nat} {i : ι} {next : π} (ht : t < threads) (hcode : P.code (s.pc t) = .down i next)
      (hphase : s.phase t = .checked) (hzero : (s.sem i).n = 0) :
      TaskMove P threads s (.step t)
        { s with sem := update s.sem i ⟨(s.sem i).n, (s.sem i).waiting ++ [t]⟩
                 phase := update s.phase t .queued }
  | back {t : Nat} {i : ι} {next : π} (ht : t < threads) (hcode : P.code (s.pc t) = .down i next)
      (hphase : s.phase t = .granted) :
      TaskMove P threads s (.step t) { s with pc := update s.pc t next, phase := update s.phase t .outside }
  | posted {t : Nat} {i : ι} {next : π} (ht : t < threads) (hcode : P.code (s.pc t) = .up i next)
      (hnone : (s.sem i).waiting = []) :
      TaskMove P threads s (.step t)
        { s with sem := update s.sem i ⟨(s.sem i).n + 1, (s.sem i).waiting⟩, pc := update s.pc t next }
  | released {t w : Nat} {i : ι} {next : π} {rest : List Nat} (ht : t < threads)
      (hcode : P.code (s.pc t) = .up i next) (hsome : (s.sem i).waiting = w :: rest) :
      TaskMove P threads s (.step t)
        ⟨update s.sem i ⟨(s.sem i).n, rest⟩, s.mem, update s.pc t next, update s.phase w .granted⟩

variable {P : Program ι σ π κ} {threads : Nat} {ok : Nat → σ → π → Prop} {s s' start : Tasks ι σ π}
  {t : Nat} {i : ι}
  {next : π} {a : TaskStep κ}

/-- The sections of `down`. -/
theorem Tasks.downStep_move (ht : t < threads) (hcode : P.code (s.pc t) = .down i next)
    (h : s.downStep t i next = some s') : TaskMove P threads s (.step t) s' := by
  unfold Tasks.downStep at h
  cases hphase : s.phase t with
  | outside =>
    rw [hphase] at h
    unfold Semaphore.check at h
    by_cases hn : (s.sem i).n > 0
    · rw [if_pos hn] at h
      obtain rfl := Option.some.inj h
      exact .taken ht hcode hphase hn
    · rw [if_neg hn] at h
      obtain rfl := Option.some.inj h
      exact .checked ht hcode hphase (by omega)
  | checked =>
    rw [hphase] at h
    unfold Semaphore.recheck at h
    by_cases hn : (s.sem i).n > 0
    · rw [if_pos hn] at h
      obtain rfl := Option.some.inj h
      exact .granted ht hcode hphase hn
    · rw [if_neg hn] at h
      obtain rfl := Option.some.inj h
      exact .queued ht hcode hphase (by omega)
  | queued =>
    rw [hphase] at h
    simp at h
  | granted =>
    rw [hphase] at h
    obtain rfl := Option.some.inj h
    exact .back ht hcode hphase

/-- The section of `up`. -/
theorem Tasks.upStep_move (ht : t < threads) (hcode : P.code (s.pc t) = .up i next) :
    TaskMove P threads s (.step t) (s.upStep t i next) := by
  unfold Tasks.upStep Semaphore.up
  cases hw : (s.sem i).waiting with
  | nil =>
    have hmove := TaskMove.posted ht hcode hw
    rw [hw] at hmove
    exact hmove
  | cons w rest => exact .released ht hcode hw

/-- **All that a step can do.** -/
theorem Tasks.step_move (h : s.step P threads a = some s') : TaskMove P threads s a s' := by
  cases a with
  | call t c =>
    rw [Tasks.step] at h
    by_cases ht : t < threads
    · rw [if_pos ht] at h
      cases hcode : P.code (s.pc t) with
      | rest =>
        rw [hcode] at h
        obtain ⟨r, hr, rfl⟩ := Option.map_eq_some_iff.1 h
        exact .call ht hcode hr
      | down i next =>
        rw [hcode] at h
        cases h
      | up i next =>
        rw [hcode] at h
        cases h
      | act f =>
        rw [hcode] at h
        cases h
    · rw [if_neg ht] at h
      cases h
  | step t =>
    rw [Tasks.step] at h
    by_cases ht : t < threads
    · rw [if_pos ht] at h
      cases hcode : P.code (s.pc t) with
      | rest =>
        rw [hcode] at h
        cases h
      | down i next =>
        rw [hcode] at h
        exact Tasks.downStep_move ht hcode h
      | up i next =>
        rw [hcode] at h
        obtain rfl := Option.some.inj h
        exact Tasks.upStep_move ht hcode
      | act f =>
        rw [hcode] at h
        obtain rfl := Option.some.inj h
        exact .act ht hcode
    · rw [if_neg ht] at h
      cases h

/-! ## The invariant is kept -/

/-- One count changes, and no queue. -/
theorem sem_update {sem : ι → Semaphore} {n : Nat} (hn : 0 < n → 0 < (sem i).n ∨ (sem i).waiting = []) (j : ι) :
    (update sem i ⟨n, (sem i).waiting⟩ j).waiting = (sem j).waiting ∧
      (0 < (update sem i ⟨n, (sem i).waiting⟩ j).n → 0 < (sem j).n ∨ (sem j).waiting = []) := by
  by_cases hj : j = i
  · subst hj
    rw [Function.update_self]
    exact ⟨rfl, hn⟩
  · rw [Function.update_of_ne hj]
    exact ⟨rfl, Or.inl⟩

/-- What the other threads have, when one of them has moved. -/
theorem other_update {pc : Nat → π} {phase : Nat → DownPhase} {p : π} {d : DownPhase} {u : Nat} (hu : u ≠ t) :
    update pc t p u = pc u ∧ update phase t d u = phase u :=
  ⟨Function.update_of_ne hu _ _, Function.update_of_ne hu _ _⟩

/-- A post with a thread waiting: the first one leaves the queue, with what was posted. -/
theorem TasksOk.released (h : TasksOk P threads s) {w : Nat} {rest : List Nat} {p : π}
    (hw : (s.sem i).waiting = w :: rest) (hphase : s.phase t = .outside) :
    TasksOk P threads
      ⟨update s.sem i ⟨(s.sem i).n, rest⟩, s.mem, update s.pc t p, update s.phase w .granted⟩ := by
  obtain ⟨hwphase, nextw, hwcode⟩ := (h.waiting_iff i w).1 (by rw [hw]; exact List.mem_cons_self)
  have hwt : w ≠ t := by
    rintro rfl
    rw [hphase] at hwphase
    cases hwphase
  have hzero : ¬ 0 < (s.sem i).n := by
    intro hpos
    rw [h.noneWaits i hpos] at hw
    cases hw
  have hnodup := h.nodup i
  rw [hw] at hnodup
  obtain ⟨hnot, hnodup'⟩ := List.nodup_cons.1 hnodup
  refine ⟨fun j hj => ?_, fun j => ?_, fun j u => ?_, fun u hu => ?_⟩
  · simp only at hj ⊢
    by_cases hji : j = i
    · subst hji
      rw [Function.update_self] at hj
      exact absurd hj hzero
    · rw [Function.update_of_ne hji] at hj ⊢
      exact h.noneWaits j hj
  · simp only
    by_cases hji : j = i
    · subst hji
      rw [Function.update_self]
      exact hnodup'
    · rw [Function.update_of_ne hji]
      exact h.nodup j
  · -- the woken thread leaves its queue, and was on no other one
    simp only
    by_cases huw : u = w
    · subst huw
      rw [Function.update_self]
      refine ⟨fun hin => ?_, fun hq => absurd hq.1 (by decide)⟩
      by_cases hji : j = i
      · subst hji
        rw [Function.update_self] at hin
        exact absurd hin hnot
      · rw [Function.update_of_ne hji] at hin
        obtain ⟨-, next', hcode'⟩ := (h.waiting_iff j u).1 hin
        rw [hwcode] at hcode'
        exact absurd (Instr.down.inj hcode').1.symm hji
    · rw [Function.update_of_ne huw]
      have hmem : u ∈ (update s.sem i ⟨(s.sem i).n, rest⟩ j).waiting ↔ u ∈ (s.sem j).waiting := by
        by_cases hji : j = i
        · subst hji
          rw [Function.update_self, hw, List.mem_cons]
          exact ⟨Or.inr, fun hor => hor.resolve_left huw⟩
        · rw [Function.update_of_ne hji]
      rw [hmem, h.waiting_iff j u]
      by_cases hut : u = t
      · subst hut
        rw [hphase]
        exact ⟨fun hq => absurd hq.1 (by decide), fun hq => absurd hq.1 (by decide)⟩
      · rw [Function.update_of_ne hut]
  · simp only at hu ⊢
    by_cases huw : u = w
    · subst huw
      rw [Function.update_of_ne hwt]
      exact ⟨(h.inDown u (by rw [hwphase]; decide)).1, i, nextw, hwcode⟩
    · rw [Function.update_of_ne huw] at hu
      have hut : u ≠ t := by
        rintro rfl
        exact hu hphase
      rw [Function.update_of_ne hut]
      exact h.inDown u hu

/-- A thread begins to wait on a queue. -/
theorem TasksOk.queued (h : TasksOk P threads s) (hcode : P.code (s.pc t) = .down i next)
    (hphase : s.phase t = .checked) (hzero : (s.sem i).n = 0) :
    TasksOk P threads { s with sem := update s.sem i ⟨(s.sem i).n, (s.sem i).waiting ++ [t]⟩
                               phase := update s.phase t .queued } := by
  have hnot : ∀ j, t ∉ (s.sem j).waiting := by
    intro j hin
    have hq := ((h.waiting_iff j t).1 hin).1
    rw [hphase] at hq
    cases hq
  refine ⟨fun j hj => ?_, fun j => ?_, fun j u => ?_, fun u hu => ?_⟩
  · simp only at hj ⊢
    by_cases hji : j = i
    · subst hji
      rw [Function.update_self] at hj
      exact absurd hzero (Nat.ne_of_gt hj)
    · rw [Function.update_of_ne hji] at hj ⊢
      exact h.noneWaits j hj
  · simp only
    by_cases hji : j = i
    · subst hji
      rw [Function.update_self]
      show ((s.sem j).waiting ++ [t]).Nodup
      rw [← List.concat_eq_append, List.nodup_concat]
      exact ⟨hnot j, h.nodup j⟩
    · rw [Function.update_of_ne hji]
      exact h.nodup j
  · simp only
    by_cases hut : u = t
    · subst hut
      rw [Function.update_self]
      by_cases hji : j = i
      · subst hji
        rw [Function.update_self]
        exact ⟨fun _ => ⟨rfl, next, hcode⟩, fun _ => List.mem_append_right _ (List.mem_singleton.2 rfl)⟩
      · rw [Function.update_of_ne hji]
        refine ⟨fun hin => absurd hin (hnot j), fun hq => ?_⟩
        obtain ⟨-, next', hcode'⟩ := hq
        rw [hcode] at hcode'
        exact absurd (Instr.down.inj hcode').1.symm hji
    · rw [Function.update_of_ne hut, ← h.waiting_iff j u]
      by_cases hji : j = i
      · subst hji
        rw [Function.update_self, List.mem_append, List.mem_singleton]
        exact ⟨fun hor => hor.resolve_right hut, Or.inl⟩
      · rw [Function.update_of_ne hji]
  · simp only at hu ⊢
    by_cases hut : u = t
    · subst hut
      exact ⟨(h.inDown u (by rw [hphase]; decide)).1, i, next, hcode⟩
    · rw [Function.update_of_ne hut] at hu
      exact h.inDown u hu

/-- **A step keeps the invariant.** -/
theorem TasksOk.step (h : TasksOk P threads s) (hs : s.step P threads a = some s') :
    TasksOk P threads s' := by
  have hsame : ∀ j, (s.sem j).waiting = (s.sem j).waiting ∧
      (0 < (s.sem j).n → 0 < (s.sem j).n ∨ (s.sem j).waiting = []) := fun _ => ⟨rfl, Or.inl⟩
  cases Tasks.step_move hs with
  | @call t c mem p ht hcode hcall =>
    have hphase := h.outside (t := t) (by rw [hcode]; exact fun _ _ he => by cases he)
    exact h.moved (t := t) (by rw [hphase]; decide) (by rw [hphase]; decide)
      (fun u hu => ⟨Function.update_of_ne hu _ _, rfl⟩) (fun hne => absurd hphase hne) hsame
  | @act t f ht hcode =>
    have hphase := h.outside (t := t) (by rw [hcode]; exact fun _ _ he => by cases he)
    exact h.moved (t := t) (by rw [hphase]; decide) (by rw [hphase]; decide)
      (fun u hu => ⟨Function.update_of_ne hu _ _, rfl⟩) (fun hne => absurd hphase hne) hsame
  | @taken t i next ht hcode hphase hpos =>
    exact h.moved (t := t) (by rw [hphase]; decide) (by rw [hphase]; decide)
      (fun u hu => ⟨Function.update_of_ne hu _ _, rfl⟩) (fun hne => absurd hphase hne)
      (sem_update fun _ => Or.inl hpos)
  | @checked t i next ht hcode hphase hzero =>
    refine h.moved (t := t) (by rw [hphase]; decide) ?_ (fun u hu => ⟨rfl, Function.update_of_ne hu _ _⟩)
      (fun _ => ⟨ht, i, next, hcode⟩) hsame
    simp only
    rw [Function.update_self]
    decide
  | @granted t i next ht hcode hphase hpos =>
    refine h.moved (t := t) (by rw [hphase]; decide) ?_ (fun u hu => ⟨rfl, Function.update_of_ne hu _ _⟩)
      (fun _ => ⟨ht, i, next, hcode⟩) (sem_update fun _ => Or.inl hpos)
    simp only
    rw [Function.update_self]
    decide
  | queued ht hcode hphase hzero => exact h.queued hcode hphase hzero
  | @back t i next ht hcode hphase =>
    refine h.moved (t := t) (by rw [hphase]; decide) ?_ (fun u hu => other_update hu) (fun hne => ?_) hsame
    · simp only
      rw [Function.update_self]
      decide
    · simp only at hne
      rw [Function.update_self] at hne
      exact absurd rfl hne
  | @posted t i next ht hcode hnone =>
    have hphase := h.outside (t := t) (by rw [hcode]; exact fun _ _ he => by cases he)
    exact h.moved (t := t) (by rw [hphase]; decide) (by rw [hphase]; decide)
      (fun u hu => ⟨Function.update_of_ne hu _ _, rfl⟩) (fun hne => absurd hphase hne)
      (sem_update fun _ => Or.inr hnone)
  | @released t w i next rest ht hcode hsome =>
    exact h.released hsome (h.outside (by rw [hcode]; exact fun _ _ he => by cases he))

/-! ## Refinement -/

/-- The view of one count that is changed. -/
theorem n_update {sem : ι → Semaphore} {n : Nat} {waiting : List Nat} :
    (fun j => (update sem i ⟨n, waiting⟩ j).n) = update (fun j => (sem j).n) i n := by
  funext j
  by_cases hj : j = i
  · subst hj
    rw [Function.update_self, Function.update_self]
  · rw [Function.update_of_ne hj, Function.update_of_ne hj]

/-- A thread goes on in `down` without getting anything. -/
theorem Tasks.guarded_same {v : Tokens.State ι σ π} (hr : Tokens.Guarded P threads ok v (s.view P))
    (hself : s'.place P t = s.place P t)
    (hother : ∀ u, u ≠ t → s'.pc u = s.pc u ∧ s'.phase u = s.phase u) (hmem : s'.mem = s.mem)
    (hsem : ∀ j, (s'.sem j).n = (s.sem j).n) : Tokens.Guarded P threads ok v (s'.view P) := by
  have hview : s'.view P = s.view P := by
    rw [Tasks.view_moved hself hother, hmem]
    unfold Tasks.view
    simp only [hsem, Function.update_eq_self]
  rw [hview]
  exact hr

/-- A thread goes on to `p` by a step of the program with counters. -/
theorem Tasks.guarded_moved {v : Tokens.State ι σ π} (hr : Tokens.Guarded P threads ok v (s.view P)) {p : π}
    (hself : s'.place P t = p) (hother : ∀ u, u ≠ t → s'.pc u = s.pc u ∧ s'.phase u = s.phase u)
    (hallowed : Tokens.Allowed P ok (s.view P) t)
    (hstep : Tokens.Step P threads (s.view P) t ⟨fun j => (s'.sem j).n, s'.mem, update (s.view P).pc t p⟩) :
    Tokens.Guarded P threads ok v (s'.view P) := by
  rw [Tasks.view_moved hself hother]
  exact Runs.Guarded.next hr hallowed hstep

/-- A thread takes from a count, in either of its two sections. -/
theorem Tasks.guarded_down {v : Tokens.State ι σ π} (hr : Tokens.Guarded P threads ok v (s.view P))
    (ht : t < threads) (hcode : P.code (s.pc t) = .down i next) (hphase : s.phase t ≠ .granted)
    (hpos : 0 < (s.sem i).n) (hself : s'.place P t = next)
    (hother : ∀ u, u ≠ t → s'.pc u = s.pc u ∧ s'.phase u = s.phase u) (hmem : s'.mem = s.mem)
    (hsem : s'.sem = update s.sem i ⟨(s.sem i).n - 1, (s.sem i).waiting⟩) :
    Tokens.Guarded P threads ok v (s'.view P) := by
  have hcode' : P.code ((s.view P).pc t) = .down i next := by
    show P.code (s.place P t) = _
    rw [Tasks.place_of_ne hphase, hcode]
  refine Tasks.guarded_moved hr hself hother (allowed_of_code hcode' fun f he => by cases he) ?_
  rw [hsem, hmem, n_update]
  exact .down ht hcode' hpos

/-- **A step is none, one or two steps of the program with counters.** -/
theorem TasksOk.view_step (h : TasksOk P threads s) (hok : s.Allowed P ok a)
    (hs : s.step P threads a = some s') {v : Tokens.State ι σ π}
    (hr : Tokens.Guarded P threads ok v (s.view P)) : Tokens.Guarded P threads ok v (s'.view P) := by
  -- a thread that is not in `down` is at its place
  have hat : ∀ {t c}, P.code (s.pc t) = c → (∀ i next, c ≠ .down i next) →
      s.phase t = .outside ∧ P.code ((s.view P).pc t) = c := by
    intro t c hcode hne
    have hphase := h.outside (t := t) (by rw [hcode]; exact hne)
    refine ⟨hphase, ?_⟩
    show P.code (s.place P t) = c
    rw [Tasks.place_of_ne (by rw [hphase]; decide), hcode]
  cases Tasks.step_move hs with
  | @call t c mem p ht hcode hcall =>
    obtain ⟨hphase, hcode'⟩ := hat hcode fun _ _ he => by cases he
    have hne : s.phase t ≠ .granted := by rw [hphase]; decide
    refine Tasks.guarded_moved hr (p := p) (Tasks.place_at hne (Function.update_self _ _ _))
      (fun u hu => ⟨Function.update_of_ne hu _ _, rfl⟩) (allowed_of_code hcode' fun f he => by cases he)
      (.call (c := c) ht hcode' ?_)
    show P.call c s.mem (s.place P t) = _
    rw [Tasks.place_of_ne hne, hcall]
  | @act t f ht hcode =>
    obtain ⟨hphase, hcode'⟩ := hat hcode fun _ _ he => by cases he
    have hne : s.phase t ≠ .granted := by rw [hphase]; decide
    refine Tasks.guarded_moved hr (p := (f t s.mem).2) (Tasks.place_at hne (Function.update_self _ _ _))
      (fun u hu => ⟨Function.update_of_ne hu _ _, rfl⟩) (fun g hg => ?_) (.act ht hcode')
    show ok t s.mem (s.place P t)
    rw [Tasks.place_of_ne hne]
    exact hok f hcode
  | @taken t i next ht hcode hphase hpos =>
    have hne : s.phase t ≠ .granted := by rw [hphase]; decide
    exact Tasks.guarded_down hr ht hcode hne hpos (Tasks.place_at hne (Function.update_self _ _ _))
      (fun u hu => ⟨Function.update_of_ne hu _ _, rfl⟩) rfl rfl
  | @checked t i next ht hcode hphase hzero =>
    refine Tasks.guarded_same (t := t) hr ?_ (fun u hu => ⟨rfl, Function.update_of_ne hu _ _⟩) rfl fun _ => rfl
    exact Tasks.place_inDown rfl (by rw [hphase]; decide) (by simp only [Function.update_self]; decide)
  | @granted t i next ht hcode hphase hpos =>
    exact Tasks.guarded_down hr ht hcode (by rw [hphase]; decide) hpos
      (Tasks.place_granted hcode (Function.update_self _ _ _)) (fun u hu => ⟨rfl, Function.update_of_ne hu _ _⟩)
      rfl rfl
  | @queued t i next ht hcode hphase hzero =>
    refine Tasks.guarded_same (t := t) hr ?_ (fun u hu => ⟨rfl, Function.update_of_ne hu _ _⟩) rfl fun j => ?_
    · exact Tasks.place_inDown rfl (by rw [hphase]; decide) (by simp only [Function.update_self]; decide)
    · by_cases hj : j = i
      · subst hj
        simp only [Function.update_self]
      · simp only [Function.update_of_ne hj]
  | @back t i next ht hcode hphase =>
    refine Tasks.guarded_same (t := t) hr ?_ (fun u hu => other_update hu) rfl fun _ => rfl
    rw [Tasks.place_granted hcode hphase]
    refine Tasks.place_at ?_ (Function.update_self _ _ _)
    simp only [Function.update_self]
    decide
  | @posted t i next ht hcode hnone =>
    obtain ⟨hphase, hcode'⟩ := hat hcode fun _ _ he => by cases he
    have hne : s.phase t ≠ .granted := by rw [hphase]; decide
    refine Tasks.guarded_moved hr (p := next) (Tasks.place_at hne (Function.update_self _ _ _))
      (fun u hu => ⟨Function.update_of_ne hu _ _, rfl⟩) (allowed_of_code hcode' fun f he => by cases he) ?_
    simp only [n_update]
    exact .up ht hcode'
  | @released t w i next rest ht hcode hsome =>
    -- one adds to the count, and the woken thread takes it
    obtain ⟨hphase, hcode'⟩ := hat hcode fun _ _ he => by cases he
    obtain ⟨hwphase, nextw, hwcode⟩ := (h.waiting_iff i w).1 (by rw [hsome]; exact List.mem_cons_self)
    have hwthreads := (h.inDown w (by rw [hwphase]; decide)).1
    have hwt : w ≠ t := by
      rintro rfl
      rw [hphase] at hwphase
      cases hwphase
    have h₁ := Runs.Guarded.next hr (allowed_of_code hcode' fun f he => by cases he) (.up ht hcode')
    have hwplace : update (s.view P).pc t next w = s.pc w := by
      rw [Function.update_of_ne hwt]
      exact Tasks.place_of_ne (by rw [hwphase]; decide)
    have hcodew : P.code (update (s.view P).pc t next w) = .down i nextw := by rw [hwplace, hwcode]
    have hpos : 0 < update (s.view P).count i ((s.view P).count i + 1) i := by
      rw [Function.update_self]
      exact Nat.succ_pos _
    have h₂ := Runs.Guarded.next h₁ (allowed_of_code hcodew fun f he => by cases he)
      (.down hwthreads hcodew hpos)
    have hview : Tasks.view P
        ⟨update s.sem i ⟨(s.sem i).n, rest⟩, s.mem, update s.pc t next, update s.phase w .granted⟩
        = ⟨update (update (s.view P).count i ((s.view P).count i + 1)) i
            (update (s.view P).count i ((s.view P).count i + 1) i - 1), (s.view P).mem,
            update (update (s.view P).pc t next) w nextw⟩ := by
      unfold Tasks.view
      simp only [n_update, Function.update_self, Function.update_idem, Nat.add_sub_cancel]
      rw [Tasks.place_released hwt (by rw [hphase]; decide) hwcode rfl rfl]
    rw [hview]
    exact h₂

/-! ## Runs -/

section Runs

variable {initial : ι → Nat} {mem : σ} {pc : Nat → π}

theorem Tasks.Guarded.tasksOk (h : Tasks.Guarded P threads ok (.start initial mem pc) s) :
    TasksOk P threads s := by
  apply Runs.Guarded.invariant (I := TasksOk P threads) ?_ ?_ h
  · rintro s rfl
    exact tasksOk_start initial mem pc
  · exact fun s a s' _ hI _ hs => hI.step hs

/-- **Refinement**: a run of threads that use semaphores is a run of the program with counters. -/
theorem Tasks.Guarded.view (h : Tasks.Guarded P threads ok (.start initial mem pc) s) :
    Tokens.Guarded P threads ok ⟨initial, mem, pc⟩ (s.view P) := by
  apply Runs.Guarded.invariant (I := fun s => Tokens.Guarded P threads ok ⟨initial, mem, pc⟩ (s.view P)) ?_ ?_ h
  · rintro s rfl
    apply Runs.Guarded.start
    unfold Tasks.view
    congr 1
    exact funext fun t => Tasks.place_of_ne DownPhase.noConfusion
  · intro s a s' hr hI hok hs
    exact TasksOk.view_step (Tasks.Guarded.tasksOk hr) hok hs hI

/-- **Nothing left to do**: each thread rests, or it is on the queue of a semaphore whose count is `0`. -/
theorem TasksOk.stuck (h : TasksOk P threads s) (hs : s.Stuck P threads) (ht : t < threads) :
    s.place P t = s.pc t ∧ (P.code (s.pc t) = .rest ∨
      s.phase t = .queued ∧ ∃ i next, P.code (s.pc t) = .down i next ∧ (s.sem i).n = 0) := by
  have hnone := hs t
  rw [Tasks.step, if_pos ht] at hnone
  cases hcode : P.code (s.pc t) with
  | rest =>
    have hphase := h.outside (t := t) (by rw [hcode]; exact fun _ _ he => by cases he)
    exact ⟨Tasks.place_of_ne (by rw [hphase]; decide), Or.inl rfl⟩
  | up i next =>
    rw [hcode] at hnone
    cases hnone
  | act f =>
    rw [hcode] at hnone
    cases hnone
  | down i next =>
    rw [hcode] at hnone
    simp only [Tasks.downStep] at hnone
    cases hphase : s.phase t with
    | outside =>
      rw [hphase] at hnone
      rcases hcheck : (s.sem i).check with ⟨_ | _, sem⟩ <;> simp [hcheck] at hnone
    | checked =>
      rw [hphase] at hnone
      rcases hcheck : (s.sem i).recheck t with ⟨_ | _, sem⟩ <;> simp [hcheck] at hnone
    | granted =>
      rw [hphase] at hnone
      cases hnone
    | queued =>
      have hin := (h.waiting_iff i t).2 ⟨hphase, next, hcode⟩
      refine ⟨Tasks.place_of_ne (by rw [hphase]; decide), Or.inr ⟨rfl, i, next, rfl, ?_⟩⟩
      by_contra hne
      rw [h.noneWaits i (Nat.pos_of_ne_zero hne)] at hin
      cases hin

end Runs

end BadApple
