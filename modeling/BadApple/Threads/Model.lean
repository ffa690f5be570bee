/-
  Threads, cores and helpers: who has each TCB (kernel/threads.h, kernel/threads.cc).

  1. **Data** — TCBs are named by numbers, in the order in which they are created.  The ready queue, the
     reaper queue, the sleep queues and the queues of semaphores are the lists of the TCBs on them, from the
     first to the last.
  2. **Routines** — what a thread, or the helper of a core, is in the middle of, as a stack of `Frame`s.  One
     locked section, or one hand-over, is one step; anything may run on other cores in between.  A thread
     may start a routine at any time, also in the middle of another one, as the locks of the heap do; only
     `stop` is called from outside, since it never returns.
  3. **Blocking** — `block` takes the thread off its core, posts a request, and switches to the helper, which
     does what the request says and then runs the next thread that is ready.
-/
import BadApple.Word
import BadApple.Threads.Semaphore

namespace BadApple

open Function (update)

namespace Threads

/-! ## Data -/

/-- What a thread that blocks asks the helper to do with it: the functions given to `block`. -/
inductive Work where
  | yield
  | sleep (secs : Nat)
  | stop
  | down (s : Nat)
deriving DecidableEq, Repr

/-- What a routine still has to do. -/
inductive Frame where
  /-- `new TCBWithWork`, then `state.ready_queue.add(tcb)`. -/
  | create
  /-- `state.ready_queue.add(u)`. -/
  | ready (u : Nat)
  /-- `state.reaper_queue->remove_all()` in `reap`. -/
  | reapAll
  /-- The loop of `reap`, with the rest of the chain. -/
  | reaping (us : List Nat)
  /-- `state.reaper_queue->add(u)`. -/
  | reaperAdd (u : Nat)
  /-- `Semaphore::up`. -/
  | up (s : Nat)
  /-- `Semaphore::down`. -/
  | down (s : Nat)
  /-- `data.remove()` in `BlockingQueue::remove` of the reaper thread. -/
  | take
  /-- `delete u`. -/
  | delete (u : Nat)
  /-- `if (state.ready_queue.isEmpty()) return;` in `yield`. -/
  | yieldCheck
  /-- `state.block(..)`. -/
  | block (w : Work)
  /-- The section of `down` in the helper. -/
  | recheck (s t : Nat)
  /-- `state.sleep_queues[SMP::me()].add(t, secs)`. -/
  | sleepAdd (t secs : Nat)
deriving DecidableEq, Repr

/-- Where a core is when none of its routines is under way: in `block`, after `active_thread[id] = nullptr`;
    or in the loop of `helper`: at the first `wakeup()`, at `help_requests[id]`, at `ready_queue.remove()`, at
    the `wakeup()` after that, or before `active_thread[id] = next`. -/
inductive HelperPhase where
  | blocking (t : Nat) (w : Work)
  | top
  | serve
  | pick
  | idle
  | dispatch (u : Nat)
deriving DecidableEq, Repr

/-- One core: `active_thread[id]`, `help_requests[id]`, `sleep_queues[id]`, and its helper. -/
structure Core where
  active : Option Nat
  request : Option (Nat × Work)
  sleeping : List Nat
  todo : List Frame
  phase : HelperPhase
deriving DecidableEq, Repr

/-- The threading state of the kernel, its semaphores, of which there are `nSems`, and what each thread is
    in the middle of. -/
structure Kernel where
  cores : Nat → Core
  ready : List Nat
  reaper : List Nat
  nSems : Nat
  sems : Nat → Semaphore
  frames : Nat → List Frame
  created : Nat
  alive : Nat → Bool
  atJiffies : Nat → Nat
  jiffies : Nat
  jiffiesPerSecond : Nat

/-- The semaphore of the reaper queue. -/
def reaperSem : Nat := 0

/-- Who runs a routine: the thread `t` on core `c`, or the helper of core `c`. -/
inductive Party where
  | thread (c t : Nat)
  | helper (c : Nat)
deriving DecidableEq, Repr

/-- A routine that a thread can call. -/
inductive Routine where
  | thread
  | yield
  | sleep (secs : Nat)
  | stop
  | down (s : Nat)
  | up (s : Nat)
  | reapOne
deriving DecidableEq, Repr

/-- What can happen next: the thread on core `c` calls a routine; core `c` goes on with what it is doing,
    where `keep` says whether the parent of a thread that is reaped waits; or the clock ticks. -/
inductive Action where
  | call (c : Nat) (r : Routine)
  | run (c : Nat) (keep : Bool)
  | tick
deriving DecidableEq, Repr

/-- What a routine has to do. -/
def Routine.frames : Routine → List Frame
  | .thread => [.reapAll, .create]
  | .yield => [.reapAll, .yieldCheck]
  | .sleep secs => [.reapAll, .block (.sleep secs)]
  | .stop => [.reapAll, .block .stop]
  | .down s => [.down s]
  | .up s => [.up s]
  | .reapOne => [.down reaperSem, .take]

/-- What the helper does with a thread. -/
def Work.frame (t : Nat) : Work → Frame
  | .yield => .ready t
  | .sleep secs => .sleepAdd t secs
  | .stop => .reaperAdd t
  | .down s => .recheck s t

/-! ## Steps -/

/-- The loop of `SleepQueue::add`: the TCB goes before the first one that is to be woken up later. -/
def insertSleep (atJiffies : Nat → Nat) (tcb : Nat) : List Nat → List Nat
  | [] => [tcb]
  | p :: rest =>
    if atJiffies p ≤ atJiffies tcb then p :: insertSleep atJiffies tcb rest else tcb :: p :: rest

/-- `SleepQueue::remove`: the first TCB, if its time has come. -/
def removeSleep (atJiffies : Nat → Nat) (jiffies : Nat) : List Nat → Option (Nat × List Nat)
  | [] => none
  | p :: rest => if jiffies < atJiffies p then none else some (p, rest)

namespace Kernel

/-- Change one core. -/
def setCore (k : Kernel) (c : Nat) (x : Core) : Kernel := { k with cores := update k.cores c x }

/-- Change one semaphore. -/
def setSem (k : Kernel) (s : Nat) (x : Semaphore) : Kernel := { k with sems := update k.sems s x }

/-- Replace what a party has to do. -/
def setFrames (k : Kernel) (fs : List Frame) : Party → Kernel
  | .thread _ t => { k with frames := update k.frames t fs }
  | .helper c => k.setCore c { k.cores c with todo := fs }

/-- The next step of a routine, with what comes after it; `none` is a failed assertion, or the use of a
    semaphore that does not exist. -/
def runFrame (k : Kernel) (who : Party) (keep : Bool) (rest : List Frame) : Frame → Option Kernel
  | .create =>
    let u := k.created
    some ({ k with created := u + 1, alive := update k.alive u true }.setFrames (.ready u :: rest) who)
  | .ready u => some ({ k with ready := k.ready ++ [u] }.setFrames rest who)
  | .reapAll => some ({ k with reaper := [] }.setFrames (.reaping k.reaper :: rest) who)
  | .reaping [] => some (k.setFrames rest who)
  | .reaping (u :: us) =>
    some (k.setFrames ((if keep then .reaperAdd u else .delete u) :: .reaping us :: rest) who)
  | .reaperAdd u => some ({ k with reaper := k.reaper ++ [u] }.setFrames (.up reaperSem :: rest) who)
  | .up s =>
    if s < k.nSems then
      match (k.sems s).up with
      | (none, sem) => some ((k.setSem s sem).setFrames rest who)
      | (some wakeup, sem) => some ((k.setSem s sem).setFrames (.ready wakeup :: rest) who)
    else none
  | .down s =>
    if s < k.nSems then
      match (k.sems s).check with
      | (true, sem) => some ((k.setSem s sem).setFrames rest who)
      | (false, sem) => some ((k.setSem s sem).setFrames (.block (.down s) :: rest) who)
    else none
  | .take =>
    match k.reaper with
    | [] => some (k.setFrames (.down reaperSem :: .take :: rest) who)
    | u :: us => some ({ k with reaper := us }.setFrames (.delete u :: rest) who)
  | .delete u => some ({ k with alive := update k.alive u false }.setFrames rest who)
  | .yieldCheck =>
    if k.ready = [] then some (k.setFrames rest who) else some (k.setFrames (.block .yield :: rest) who)
  | .block w =>
    match who with
    | .thread c t =>
      some ((k.setCore c { k.cores c with active := none, phase := .blocking t w }).setFrames rest who)
    | .helper _ => none
  | .recheck s t =>
    if s < k.nSems then
      match (k.sems s).recheck t with
      | (true, sem) => some ((k.setSem s sem).setFrames (.ready t :: rest) who)
      | (false, sem) => some ((k.setSem s sem).setFrames rest who)
    else none
  | .sleepAdd t secs =>
    match who with
    | .thread _ _ => none
    | .helper c =>
      let at_ := update k.atJiffies t (u32 (k.jiffies + u32 (k.jiffiesPerSecond * secs)))
      some ({ k with atJiffies := at_ }.setCore c
        { k.cores c with sleeping := insertSleep at_ t (k.cores c).sleeping, todo := rest })

/-- The next step of `block`, or of the loop of `helper`. -/
def runHelper (k : Kernel) (c : Nat) : Kernel :=
  let core := k.cores c
  match core.phase with
  | .blocking t w => k.setCore c { core with request := some (t, w), phase := .top }
  | .top =>
    match removeSleep k.atJiffies k.jiffies core.sleeping with
    | none => k.setCore c { core with phase := .serve }
    | some (p, rest) => k.setCore c { core with sleeping := rest, todo := [.ready p] }
  | .serve =>
    match core.request with
    | none => k.setCore c { core with phase := .pick }
    | some (t, w) => k.setCore c { core with request := none, todo := [w.frame t], phase := .pick }
  | .pick =>
    match k.ready with
    | [] => k.setCore c { core with phase := .idle }
    | u :: us => { k with ready := us }.setCore c { core with phase := .dispatch u }
  | .idle =>
    match removeSleep k.atJiffies k.jiffies core.sleeping with
    | none => k.setCore c { core with phase := .pick }
    | some (p, rest) => k.setCore c { core with sleeping := rest, todo := [.ready p] }
  | .dispatch u => k.setCore c { core with active := some u, phase := .top }

/-- Core `c` goes on. -/
def run (k : Kernel) (c : Nat) (keep : Bool) : Option Kernel :=
  match (k.cores c).active with
  | some t =>
    match k.frames t with
    | [] => none
    | f :: rest => k.runFrame (.thread c t) keep rest f
  | none =>
    match (k.cores c).todo with
    | [] => some (k.runHelper c)
    | f :: rest => k.runFrame (.helper c) keep rest f

/-- Any routine can be called at any time, but `stop` only from outside of all others. -/
def callable (k : Kernel) (t : Nat) : Routine → Bool
  | .stop => decide (k.frames t = [])
  | _ => true

/-- One step of a machine with `n` cores. -/
def step (n : Nat) (k : Kernel) : Action → Option Kernel
  | .call c r =>
    if c < n then
      match (k.cores c).active with
      | none => none
      | some t =>
        if k.callable t r then some { k with frames := update k.frames t (r.frames ++ k.frames t) }
        else none
    else none
  | .run c keep => if c < n then k.run c keep else none
  | .tick => some { k with jiffies := u32 (k.jiffies + 1) }

/-- At start no TCB exists; each core makes some threads (the reaper thread, the first thread), and then
    becomes its helper. -/
def Start (k : Kernel) : Prop :=
  k.ready = [] ∧ k.reaper = [] ∧ k.created = 0 ∧
    (∀ s, ∃ initial, k.sems s = .new initial) ∧ (∀ t, k.frames t = [] ∧ k.alive t = false) ∧
    ∀ c, ∃ m, k.cores c = ⟨none, none, [], (List.replicate m Routine.thread.frames).flatten, .top⟩

end Kernel

/-- The states of runs of a machine with `n` cores, in any order of steps. -/
def Machine (n : Nat) : Kernel → Prop :=
  Runs.Reached Kernel.Start fun k a k' => k.step n a = some k'

end Threads

end BadApple
