/-
  `BlockingQueue` (kernel/blocking_queue.h): a queue whose `remove` waits for an element.

  1. **Code** — `add` adds to the queue, then adds one to the semaphore; `remove` takes one from the
     semaphore, then from the queue, and tries again if it was empty; `remove_all` takes the whole chain and
     leaves the semaphore as it is.  What is done under the lock of the queue is one action, and so is a
     `return`; the caller of `remove_all` then follows the chain.
  2. **Callers** — an element is linked into a queue through its own `next`, and so one that is queued or
     about to be, or in a chain that is being returned, is not added; with the others their owners do what
     they like.
  3. **The inequality** — there are at least as many tokens, in the count, with removers or with adders, as
     there are elements in the queue.
  4. **Returned values** — what a section has taken is carried to the `return`, and a chain stays as it is on
     the way, although others go on adding.
  5. **The result** — `blockingQueue_laws`.
-/
import BadApple.Lib.Receipts
import BadApple.Threads.Queue
import BadApple.Threads.Tasks

namespace BadApple

namespace Threads

open Function (update)

open Tokens (Program Instr tally)

open Receipts (gather Settled)

/-! ## The code -/

/-- What a call has returned: the pointer of `remove`, or the elements that the caller of `remove_all` finds
    in its chain. -/
inductive BlockingQueueResult where
  | element (p : Option Nat)
  | chain (ps : List Nat)
deriving DecidableEq, Repr

/-- The elements that a caller was given. -/
def BlockingQueueResult.elements : BlockingQueueResult → List Nat
  | .element p => p.toList
  | .chain ps => ps

/-- `BlockingQueue` and the links of the elements; which elements have been passed to `add` and not given back
    since; what was added, what each section that took something took, and what calls have returned, with the
    number of their section. -/
structure BlockingQueue where
  data : Queue
  next : Nat → Option Nat
  busy : List Nat
  addedLog : List Nat
  takenLog : List (List Nat)
  returned : List (BlockingQueueResult × Nat)

/-- Where a thread is: between calls, before a step of one, or at a null pointer that was used.  Before a
    `return` it has a pointer, and its section was the one with number `k`; of the elements `ps` that
    `remove_all` has taken it has only the first. -/
inductive BlockingQueuePlace where
  | idle
  | addData (p : Nat)
  | addUp
  | removeDown
  | removeData
  | removeReturn (p : Option Nat) (k : Nat)
  | removeAllData
  | removeAllReturn (p : Option Nat) (ps : List Nat) (k : Nat)
  | fault
deriving DecidableEq, Repr

/-- The calls of a `BlockingQueue`; and the owner of an element links it to something. -/
inductive BlockingQueueCall where
  | add (p : Nat)
  | remove
  | removeAll
  | link (p : Nat) (q : Option Nat)
deriving DecidableEq, Repr

namespace BlockingQueue

/-- `BlockingQueue()`, and elements that are linked in some way. -/
def new (next : Nat → Option Nat) : BlockingQueue := ⟨⟨none, none⟩, next, [], [], [], []⟩

/-- `data.add`, in `add`. -/
def addData (b : BlockingQueue) (p : Nat) : Option BlockingQueue :=
  (b.data.add b.next p).map fun r => { b with data := r.1, next := r.2, addedLog := b.addedLog ++ [p] }

/-- Some elements are given back to their owners. -/
def release (b : BlockingQueue) (ps : List Nat) : BlockingQueue :=
  { b with busy := b.busy.filter fun p => decide (p ∉ ps) }

/-- `data.remove`, in `remove`: the element, if there was one. -/
def removeData (b : BlockingQueue) : Option Nat × BlockingQueue :=
  let r := b.data.remove b.next
  (r.1, { b with data := r.2, takenLog := b.takenLog ++ (r.1.map fun p => [p]).toList }.release r.1.toList)

/-- `data.remove_all`, in `remove_all`: the first element. -/
def removeAllData (b : BlockingQueue) : Option Nat × BlockingQueue :=
  let r := b.data.removeAll
  (r.1, { b with data := r.2, takenLog := b.takenLog ++ [Links.walk b.next b.addedLog.length r.1] })

/-- `remove` returns. -/
def removeReturn (b : BlockingQueue) (p : Option Nat) (k : Nat) : BlockingQueue :=
  { b with returned := b.returned ++ [(BlockingQueueResult.element p, k)] }

/-- `remove_all` returns, and the caller follows the chain. -/
def removeAllReturn (b : BlockingQueue) (p : Option Nat) (k : Nat) : BlockingQueue :=
  let ps := Links.walk b.next b.addedLog.length p
  { b with returned := b.returned ++ [(BlockingQueueResult.chain ps, k)] }.release ps

/-- The steps of `add`, `remove` and `remove_all`. -/
def code : BlockingQueuePlace → Instr Unit BlockingQueue BlockingQueuePlace
  | .idle => .rest
  | .addData p => .act fun _ b =>
    match b.addData p with
    | some b => (b, .addUp)
    | none => (b, .fault)
  | .addUp => .up () .idle
  | .removeDown => .down () .removeData
  | .removeData => .act fun _ b =>
    let r := b.removeData
    (r.2, if r.1 = none then .removeDown else .removeReturn r.1 b.takenLog.length)
  | .removeReturn p k => .act fun _ b => (b.removeReturn p k, .idle)
  | .removeAllData => .act fun _ b =>
    let r := b.removeAllData
    (r.2, .removeAllReturn r.1 (Links.walk b.next b.addedLog.length r.1) b.takenLog.length)
  | .removeAllReturn p _ k => .act fun _ b => (b.removeAllReturn p k, .idle)
  | .fault => .rest

/-- How a thread starts a call. -/
def call :
    BlockingQueueCall → BlockingQueue → BlockingQueuePlace → Option (BlockingQueue × BlockingQueuePlace)
  | .add p, b, .idle => if p ∈ b.busy then none else some ({ b with busy := p :: b.busy }, .addData p)
  | .remove, b, .idle => some (b, .removeDown)
  | .removeAll, b, .idle => some (b, .removeAllData)
  | .link p q, b, .idle => if p ∈ b.busy then none else some ({ b with next := update b.next p q }, .idle)
  | _, _, _ => none

/-- The code of a `BlockingQueue`. -/
def program : Program Unit BlockingQueue BlockingQueuePlace BlockingQueueCall := ⟨code, call⟩

/-- A `BlockingQueue` that nobody has used: its semaphore is `Semaphore n{0}`. -/
def start (next : Nat → Option Nat) : Tasks Unit BlockingQueue BlockingQueuePlace :=
  .start (fun _ => 0) (new next) fun _ => .idle

end BlockingQueue

/-- The states reached by any number of threads in any order of steps. -/
def BlockingQueueRuns (threads : Nat) (next : Nat → Option Nat) :
    Tasks Unit BlockingQueue BlockingQueuePlace → Prop :=
  Tasks.Reached BlockingQueue.program threads (BlockingQueue.start next)

/-! ## Places -/

namespace BlockingQueuePlace

/-- A remover that has passed `down` and has not taken yet. -/
def taking : BlockingQueuePlace → Nat
  | .removeData => 1
  | _ => 0

/-- An adder between `data.add` and `n.up`. -/
def posting : BlockingQueuePlace → Nat
  | .addUp => 1
  | _ => 0

/-- The elements that a thread has and that nobody else may have. -/
def holding : BlockingQueuePlace → List Nat
  | .addData p => [p]
  | .removeAllReturn _ ps _ => ps
  | _ => []

/-- What a thread is about to return, with the number of its section. -/
def inHand : BlockingQueuePlace → List (List Nat × Nat)
  | .removeReturn p k => [(p.toList, k)]
  | .removeAllReturn _ ps k => [(ps, k)]
  | _ => []

/-- The pointers that a thread has are the right ones: `remove` has one, the chain of `remove_all` is still
    the one taken, and no null pointer was used. -/
def Right (next : Nat → Option Nat) : BlockingQueuePlace → Prop
  | .removeReturn p _ => p ≠ none
  | .removeAllReturn p ps _ => Links.Reads next p ps
  | .fault => False
  | _ => True

end BlockingQueuePlace

namespace BlockingQueue

variable {p : BlockingQueuePlace} {i : Unit} {next : BlockingQueuePlace}

theorem code_rest (h : code p = .rest) : p = .idle ∨ p = .fault := by
  cases p <;> first | exact Or.inl rfl | exact Or.inr rfl | cases h

theorem code_down (h : code p = .down i next) : p = .removeDown ∧ next = .removeData := by
  cases p <;> cases h
  exact ⟨rfl, rfl⟩

theorem code_up (h : code p = .up i next) : p = .addUp ∧ next = .idle := by
  cases p <;> cases h
  exact ⟨rfl, rfl⟩

end BlockingQueue

/-! ## The invariant -/

/-- **An element is in one place**: queued, or with the thread that adds it or that has taken it in a chain;
    and all these are busy. -/
structure BlockingQueueOwners (threads : Nat) (l busy : List Nat) (pc : Nat → BlockingQueuePlace) : Prop where
  nodup : (l ++ gather (fun t => (pc t).holding) threads).Nodup
  busy : ∀ p ∈ l ++ gather (fun t => (pc t).holding) threads, p ∈ busy

/-- **What is in the queue, who has the other elements, and where the tokens are.** -/
structure BlockingQueueOk (threads : Nat) (l : List Nat)
    (s : Tokens.State Unit BlockingQueue BlockingQueuePlace) : Prop where
  onQueue : OnQueue s.mem.next s.mem.data l
  log : s.mem.takenLog.flatten ++ l = s.mem.addedLog
  owners : BlockingQueueOwners threads l s.mem.busy s.pc
  right : ∀ t, t < threads → (s.pc t).Right s.mem.next
  receipts : Settled BlockingQueuePlace.inHand s.pc threads
    (s.mem.returned.map fun r => (r.1.elements, r.2)) s.mem.takenLog
  notNull : ∀ r ∈ s.mem.returned, r.1 ≠ .element none
  tokens : l.length ≤ s.count () + tally BlockingQueuePlace.taking s.pc threads
    + tally BlockingQueuePlace.posting s.pc threads

variable {threads t : Nat} {l l' busy busy' : List Nat} {pc : Nat → BlockingQueuePlace} {p : BlockingQueuePlace}
  {s : Tokens.State Unit BlockingQueue BlockingQueuePlace} {next next' : Nat → Option Nat}

namespace BlockingQueueOwners

/-- What is queued and held when a thread moves, and some elements come in and others go out. -/
theorem moved (pc : Nat → BlockingQueuePlace) {ps qs : List Nat} (ht : t < threads)
    (hperm : (l' ++ p.holding ++ ps).Perm (l ++ (pc t).holding ++ qs)) :
    (l' ++ gather (fun u => (update pc t p u).holding) threads ++ ps).Perm
      (l ++ gather (fun u => (pc u).holding) threads ++ qs) := by
  have hmove := Receipts.gather_move BlockingQueuePlace.holding pc p ht
  refine List.perm_iff_count.2 fun q => ?_
  have hcount := hperm.count_eq q
  have hcountMove := hmove.count_eq q
  simp only [List.count_append] at hcount hcountMove ⊢
  omega

/-- What a thread holds is busy, -/
theorem held_busy (h : BlockingQueueOwners threads l busy pc) (ht : t < threads) {q : Nat}
    (hq : q ∈ (pc t).holding) : q ∈ busy :=
  h.busy q (List.mem_append_right _ (Receipts.mem_gather.2 ⟨t, ht, hq⟩))

/-- and not queued. -/
theorem held_notQueued (h : BlockingQueueOwners threads l busy pc) (ht : t < threads) {q : Nat}
    (hq : q ∈ (pc t).holding) : q ∉ l := fun hl =>
  (List.nodup_append.1 h.nodup).2.2 q hl q (Receipts.mem_gather.2 ⟨t, ht, hq⟩) rfl

/-- Nor does another thread hold it. -/
theorem held_once (h : BlockingQueueOwners threads l busy pc) (ht : t < threads) {u : Nat} (hu : u < threads)
    (hut : u ≠ t) {q : Nat} (hq : q ∈ (pc t).holding) : q ∉ (pc u).holding := by
  intro hqu
  have hidle : (l ++ BlockingQueuePlace.idle.holding ++ (pc t).holding).Perm (l ++ (pc t).holding ++ []) := by
    rw [show BlockingQueuePlace.idle.holding = [] from rfl, List.append_nil, List.append_nil]
  have hall := moved pc ht hidle
  rw [List.append_nil] at hall
  refine (List.nodup_append.1 (hall.nodup_iff.2 h.nodup)).2.2 q (List.mem_append_right _ ?_) q hq rfl
  refine Receipts.mem_gather.2 ⟨u, hu, ?_⟩
  rwa [Function.update_of_ne hut]

/-- **Elements change hands** between the queue and a thread. -/
theorem handed (h : BlockingQueueOwners threads l busy pc) (ht : t < threads)
    (hperm : (l' ++ p.holding).Perm (l ++ (pc t).holding)) :
    BlockingQueueOwners threads l' busy (update pc t p) := by
  have hperm' : (l' ++ p.holding ++ []).Perm (l ++ (pc t).holding ++ []) := by
    rwa [List.append_nil, List.append_nil]
  have hall := moved pc ht hperm'
  rw [List.append_nil, List.append_nil] at hall
  exact ⟨hall.nodup_iff.2 h.nodup, fun q hq => h.busy q (hall.mem_iff.1 hq)⟩

/-- A thread moves, and takes nothing with it that it did not have. -/
theorem same (h : BlockingQueueOwners threads l busy pc) (ht : t < threads)
    (hp : p.holding = (pc t).holding) : BlockingQueueOwners threads l busy (update pc t p) :=
  h.handed ht (by rw [hp])

/-- **A thread takes an element** that was not busy. -/
theorem claimed (h : BlockingQueueOwners threads l busy pc) (ht : t < threads) {x : Nat} (hx : x ∉ busy)
    (hpc : (pc t).holding = []) (hp : p.holding = [x]) :
    BlockingQueueOwners threads l (x :: busy) (update pc t p) := by
  have hperm : (l ++ p.holding ++ []).Perm (l ++ (pc t).holding ++ [x]) := by
    rw [hpc, hp, List.append_nil, List.append_nil]
  have hall := moved pc ht hperm
  rw [List.append_nil] at hall
  refine ⟨hall.nodup_iff.2 ?_, fun q hq => ?_⟩
  · rw [← List.concat_eq_append, List.nodup_concat]
    exact ⟨fun hin => hx (h.busy x hin), h.nodup⟩
  · rcases List.mem_append.1 (hall.mem_iff.1 hq) with hq | hq
    · exact List.mem_cons_of_mem _ (h.busy q hq)
    · rw [List.mem_singleton.1 hq]
      exact List.mem_cons_self

/-- **Elements are given back**: some of the queue, or what a thread has held. -/
theorem released (h : BlockingQueueOwners threads l busy pc) (ht : t < threads) {ps : List Nat}
    (hperm : (l' ++ p.holding ++ ps).Perm (l ++ (pc t).holding)) :
    BlockingQueueOwners threads l' (busy.filter fun q => decide (q ∉ ps)) (update pc t p) := by
  have hperm' : (l' ++ p.holding ++ ps).Perm (l ++ (pc t).holding ++ []) := by
    rwa [List.append_nil]
  have hall := moved pc ht hperm'
  rw [List.append_nil] at hall
  obtain ⟨hnodup, -, hapart⟩ := List.nodup_append.1 (hall.nodup_iff.2 h.nodup)
  refine ⟨hnodup, fun q hq => List.mem_filter.2 ⟨?_, decide_eq_true fun hps => hapart q hq q hps rfl⟩⟩
  exact h.busy q (hall.mem_iff.1 (List.mem_append_left _ hq))

end BlockingQueueOwners

/-- A thread that moves is right about its new pointers. -/
theorem BlockingQueuePlace.Right.moved (h : ∀ u, u < threads → u ≠ t → (pc u).Right next)
    (hp : p.Right next) : ∀ u, u < threads → (update pc t p u).Right next := by
  intro u hu
  by_cases hut : u = t
  · rw [hut, Function.update_self]
    exact hp
  · rw [Function.update_of_ne hut]
    exact h u hu hut

/-- Links may change that belong to no chain a thread holds. -/
theorem BlockingQueuePlace.Right.congr (h : p.Right next) (hn : ∀ q ∈ p.holding, next' q = next q) :
    p.Right next' := by
  cases p with
  | removeAllReturn first ps k => exact Links.Reads.congr h hn
  | removeReturn q k => exact h
  | fault => exact h
  | _ => trivial

namespace BlockingQueueOk

theorem start (next : Nat → Option Nat) :
    BlockingQueueOk threads [] ⟨fun _ => 0, BlockingQueue.new next, fun _ => BlockingQueuePlace.idle⟩ := by
  have hnobody : [] ++ gather (fun _ => BlockingQueuePlace.idle.holding) threads = [] :=
    Receipts.gather_nil threads
  refine ⟨OnQueue.empty, rfl, ⟨?_, fun p hp => ?_⟩, fun _ _ => trivial, Settled.start _ rfl,
    List.forall_mem_nil _, Nat.zero_le _⟩
  · rw [hnobody]
    exact List.nodup_nil
  · rw [hnobody] at hp
    cases hp

/-- What changes when a thread moves: who has the elements, what it is right about, what it is about to
    return and where the tokens are. -/
theorem goto (h : BlockingQueueOk threads l s) (ht : t < threads) {count : Unit → Nat} {mem : BlockingQueue}
    (hqueue : OnQueue mem.next mem.data l') (hlog : mem.takenLog.flatten ++ l' = mem.addedLog)
    (howners : BlockingQueueOwners threads l' mem.busy (update s.pc t p))
    (hnext : ∀ u, u < threads → u ≠ t → ∀ q ∈ (s.pc u).holding, mem.next q = s.mem.next q)
    (hp : p.Right mem.next)
    (hreceipts : Settled BlockingQueuePlace.inHand (update s.pc t p) threads
      (mem.returned.map fun r => (r.1.elements, r.2)) mem.takenLog)
    (hnotNull : ∀ r ∈ mem.returned, r.1 ≠ .element none)
    (htokens : l' = [] ∨ l'.length + s.count () + (s.pc t).taking + (s.pc t).posting
      ≤ l.length + count () + p.taking + p.posting) :
    BlockingQueueOk threads l' ⟨count, mem, update s.pc t p⟩ := by
  refine ⟨hqueue, hlog, howners, BlockingQueuePlace.Right.moved (fun u hu hut => ?_) hp, hreceipts, hnotNull, ?_⟩
  · exact (h.right u hu).congr (hnext u hu hut)
  · have htaking := Tokens.tally_update BlockingQueuePlace.taking s.pc p ht
    have hposting := Tokens.tally_update BlockingQueuePlace.posting s.pc p ht
    have hold := h.tokens
    rcases htokens with rfl | htokens
    · exact Nat.zero_le _
    · simp only
      omega

/-- **A call** keeps the invariant. -/
theorem call (h : BlockingQueueOk threads l s) (ht : t < threads) (hpc : s.pc t = .idle)
    {c : BlockingQueueCall} {mem : BlockingQueue} (hcall : BlockingQueue.call c s.mem .idle = some (mem, p)) :
    BlockingQueueOk threads l ⟨s.count, mem, update s.pc t p⟩ := by
  cases c with
  | add x =>
    simp only [BlockingQueue.call] at hcall
    by_cases hx : x ∈ s.mem.busy
    · rw [if_pos hx] at hcall
      cases hcall
    · rw [if_neg hx] at hcall
      obtain ⟨rfl, rfl⟩ := Prod.mk.inj (Option.some.inj hcall)
      refine h.goto ht h.onQueue h.log (h.owners.claimed ht hx (by rw [hpc]; rfl) rfl) (fun _ _ _ _ _ => rfl)
        trivial (h.receipts.move (by rw [hpc]; rfl)) h.notNull ?_
      rw [hpc]
      exact Or.inr (Nat.le_refl _)
  | remove =>
    obtain ⟨rfl, rfl⟩ := Prod.mk.inj (Option.some.inj hcall)
    refine h.goto ht h.onQueue h.log (h.owners.same ht (by rw [hpc]; rfl)) (fun _ _ _ _ _ => rfl)
      trivial (h.receipts.move (by rw [hpc]; rfl)) h.notNull ?_
    rw [hpc]
    exact Or.inr (Nat.le_refl _)
  | removeAll =>
    obtain ⟨rfl, rfl⟩ := Prod.mk.inj (Option.some.inj hcall)
    refine h.goto ht h.onQueue h.log (h.owners.same ht (by rw [hpc]; rfl)) (fun _ _ _ _ _ => rfl)
      trivial (h.receipts.move (by rw [hpc]; rfl)) h.notNull ?_
    rw [hpc]
    exact Or.inr (Nat.le_refl _)
  | link x q =>
    simp only [BlockingQueue.call] at hcall
    by_cases hx : x ∈ s.mem.busy
    · rw [if_pos hx] at hcall
      cases hcall
    · rw [if_neg hx] at hcall
      obtain ⟨rfl, rfl⟩ := Prod.mk.inj (Option.some.inj hcall)
      -- neither the queue nor a chain has `x` in it
      have hne : ∀ y, y ∈ s.mem.busy → update s.mem.next x q y = s.mem.next y := by
        intro y hy
        refine Function.update_of_ne ?_ _ _
        rintro rfl
        exact hx hy
      refine h.goto ht (h.onQueue.congr fun y hy => hne y (h.owners.busy y (List.mem_append_left _ hy))) h.log
        (h.owners.same ht (by rw [hpc])) (fun u hu _ y hy => hne y (h.owners.held_busy hu hy)) trivial
        (h.receipts.move (by rw [hpc])) h.notNull ?_
      rw [hpc]
      exact Or.inr (Nat.le_refl _)

/-- **`data.add`** puts the element behind the others, and its `n.up` is to come. -/
theorem addData (h : BlockingQueueOk threads l s) (ht : t < threads) {x : Nat} (hpc : s.pc t = .addData x) :
    ∃ b, s.mem.addData x = some b ∧ BlockingQueueOk threads (l ++ [x]) ⟨s.count, b, update s.pc t .addUp⟩ := by
  have hheld : x ∈ (s.pc t).holding := by
    rw [hpc]
    exact List.mem_singleton_self x
  obtain ⟨q', next', hadd, hqueue', hsame⟩ :=
    h.onQueue.add (List.nodup_append.1 h.owners.nodup).1 (h.owners.held_notQueued ht hheld)
  refine ⟨{ s.mem with data := q', next := next', addedLog := s.mem.addedLog ++ [x] },
    by rw [BlockingQueue.addData, hadd]; rfl, ?_⟩
  refine h.goto ht hqueue' ?_ (h.owners.handed ht ?_) (fun u hu hut y hy => hsame y ?_ ?_) trivial
    (h.receipts.move (by rw [hpc]; rfl)) h.notNull ?_
  · show s.mem.takenLog.flatten ++ (l ++ [x]) = s.mem.addedLog ++ [x]
    rw [← List.append_assoc, h.log]
  · rw [hpc, show BlockingQueuePlace.addUp.holding = [] from rfl, List.append_nil]
    rfl
  · rintro rfl
    exact h.owners.held_once ht hu hut hheld hy
  · exact h.owners.held_notQueued hu hy
  · right
    simp only [hpc, BlockingQueuePlace.taking, BlockingQueuePlace.posting, List.length_append,
      List.length_singleton]
    omega

/-- **`data.remove`** takes the first element, if there is one; otherwise nothing is lost with the token. -/
theorem removeData (h : BlockingQueueOk threads l s) (ht : t < threads) (hpc : s.pc t = .removeData) :
    BlockingQueueOk threads l.tail ⟨s.count, s.mem.removeData.2, update s.pc t
      (if s.mem.removeData.1 = none then .removeDown
        else .removeReturn s.mem.removeData.1 s.mem.takenLog.length)⟩ := by
  obtain ⟨hhead, hrest⟩ := h.onQueue.remove
  have hmem : s.mem.removeData.2 = { s.mem with
      data := (s.mem.data.remove s.mem.next).2
      takenLog := s.mem.takenLog ++ (l.head?.map fun p => [p]).toList }.release l.head?.toList := by
    rw [BlockingQueue.removeData, hhead]
  rw [hmem]
  cases l with
  | nil =>
    have hfst : s.mem.removeData.1 = none := hhead
    rw [hfst, if_pos rfl]
    refine h.goto ht hrest ?_ (h.owners.released ht ?_) (fun _ _ _ _ _ => rfl) trivial ?_ h.notNull
      (Or.inl rfl)
    · show (s.mem.takenLog ++ []).flatten ++ [] = s.mem.addedLog
      rw [List.append_nil s.mem.takenLog]
      exact h.log
    · rw [hpc]
      exact List.Perm.refl _
    · show Settled _ _ _ _ (s.mem.takenLog ++ [])
      rw [List.append_nil]
      exact h.receipts.move (by rw [hpc]; rfl)
  | cons x l =>
    have hfst : s.mem.removeData.1 = some x := hhead
    rw [hfst, if_neg (Option.some_ne_none x)]
    refine h.goto ht hrest ?_ (h.owners.released ht ?_) (fun _ _ _ _ _ => rfl) (Option.some_ne_none x)
      (h.receipts.issue ht (by rw [hpc]; rfl) rfl) h.notNull ?_
    · show (s.mem.takenLog ++ [[x]]).flatten ++ l = s.mem.addedLog
      rw [← h.log, List.flatten_append, List.flatten_singleton, List.append_assoc]
      rfl
    · rw [hpc]
      exact List.perm_append_comm
    · right
      simp only [hpc, BlockingQueuePlace.taking, BlockingQueuePlace.posting, List.length_cons, List.tail_cons]
      omega

/-- **`remove_all`** takes all elements and no token. -/
theorem removeAllData (h : BlockingQueueOk threads l s) (ht : t < threads) (hpc : s.pc t = .removeAllData) :
    BlockingQueueOk threads [] ⟨s.count, s.mem.removeAllData.2, update s.pc t
      (.removeAllReturn s.mem.removeAllData.1
        (Links.walk s.mem.next s.mem.addedLog.length s.mem.removeAllData.1) s.mem.takenLog.length)⟩ := by
  obtain ⟨hreads, hrest⟩ := h.onQueue.removeAll
  have hwalk : Links.walk s.mem.next s.mem.addedLog.length s.mem.data.removeAll.1 = l := by
    apply hreads.walk_eq
    rw [← h.log, List.length_append]
    exact Nat.le_add_left _ _
  rw [BlockingQueue.removeAllData, hwalk]
  refine h.goto ht hrest ?_ (h.owners.handed ht ?_) (fun _ _ _ _ _ => rfl) hreads
    (h.receipts.issue ht (by rw [hpc]; rfl) rfl) h.notNull (Or.inl rfl)
  · show (s.mem.takenLog ++ [l]).flatten ++ [] = s.mem.addedLog
    rw [List.flatten_append, List.flatten_singleton, List.append_nil, h.log]
  · rw [hpc]
    exact List.perm_append_comm

/-- **`remove` returns** the element that it has taken. -/
theorem removeReturn (h : BlockingQueueOk threads l s) (ht : t < threads) {first : Option Nat} {k : Nat}
    (hpc : s.pc t = .removeReturn first k) :
    BlockingQueueOk threads l ⟨s.count, s.mem.removeReturn first k, update s.pc t .idle⟩ := by
  have hright : (s.pc t).Right s.mem.next := h.right t ht
  rw [hpc] at hright
  refine h.goto ht h.onQueue h.log (h.owners.same ht (by rw [hpc]; rfl)) (fun _ _ _ _ _ => rfl) trivial ?_ ?_ ?_
  · show Settled _ _ _ ((s.mem.returned ++ [(BlockingQueueResult.element first, k)]).map _) _
    rw [List.map_append]
    exact h.receipts.give ht (by rw [hpc]; rfl) rfl
  · intro r hr
    rcases List.mem_append.1 hr with hr | hr
    · exact h.notNull r hr
    · rw [List.mem_singleton.1 hr]
      exact fun heq => hright (BlockingQueueResult.element.inj heq)
  · rw [hpc]
    exact Or.inr (Nat.le_refl _)

/-- **`remove_all` returns**, and its caller finds what was taken in the chain. -/
theorem removeAllReturn (h : BlockingQueueOk threads l s) (ht : t < threads) {first : Option Nat}
    {ps : List Nat} {k : Nat} (hpc : s.pc t = .removeAllReturn first ps k) :
    BlockingQueueOk threads l ⟨s.count, s.mem.removeAllReturn first k, update s.pc t .idle⟩ := by
  have hreads : (s.pc t).Right s.mem.next := h.right t ht
  rw [hpc] at hreads
  have htaken : s.mem.takenLog[k]? = some ps := by
    refine h.receipts.of_hand (x := (ps, k)) ht ?_
    rw [hpc]
    exact List.mem_singleton_self _
  have hwalk : Links.walk s.mem.next s.mem.addedLog.length first = ps := by
    apply Links.Reads.walk_eq hreads
    rw [← h.log, List.length_append]
    have hle := (List.sublist_flatten_of_mem (List.mem_of_getElem? htaken)).length_le
    omega
  rw [BlockingQueue.removeAllReturn, hwalk]
  refine h.goto ht h.onQueue h.log (h.owners.released ht ?_) (fun _ _ _ _ _ => rfl) trivial ?_ ?_ ?_
  · rw [hpc, show BlockingQueuePlace.idle.holding = [] from rfl, List.append_nil]
    exact List.Perm.refl _
  · show Settled _ _ _ ((s.mem.returned ++ [(BlockingQueueResult.chain ps, k)]).map _) _
    rw [List.map_append]
    exact h.receipts.give ht (by rw [hpc]; rfl) rfl
  · intro r hr
    rcases List.mem_append.1 hr with hr | hr
    · exact h.notNull r hr
    · rw [List.mem_singleton.1 hr]
      exact BlockingQueueResult.noConfusion
  · rw [hpc]
    exact Or.inr (Nat.le_refl _)

/-- **The actions** keep the invariant. -/
theorem act (h : BlockingQueueOk threads l s) (ht : t < threads)
    {f : Nat → BlockingQueue → BlockingQueue × BlockingQueuePlace}
    (hcode : BlockingQueue.code (s.pc t) = .act f) :
    ∃ l', BlockingQueueOk threads l' ⟨s.count, (f t s.mem).1, update s.pc t (f t s.mem).2⟩ := by
  cases hpc : s.pc t with
  | addData p =>
    rw [hpc] at hcode
    obtain rfl := Instr.act.inj hcode
    obtain ⟨b, hadd, hok⟩ := h.addData ht hpc
    simp only [hadd]
    exact ⟨_, hok⟩
  | removeData =>
    rw [hpc] at hcode
    obtain rfl := Instr.act.inj hcode
    exact ⟨_, h.removeData ht hpc⟩
  | removeReturn p k =>
    rw [hpc] at hcode
    obtain rfl := Instr.act.inj hcode
    exact ⟨_, h.removeReturn ht hpc⟩
  | removeAllData =>
    rw [hpc] at hcode
    obtain rfl := Instr.act.inj hcode
    exact ⟨_, h.removeAllData ht hpc⟩
  | removeAllReturn p ps k =>
    rw [hpc] at hcode
    obtain rfl := Instr.act.inj hcode
    exact ⟨_, h.removeAllReturn ht hpc⟩
  | idle =>
    rw [hpc] at hcode
    cases hcode
  | addUp =>
    rw [hpc] at hcode
    cases hcode
  | removeDown =>
    rw [hpc] at hcode
    cases hcode
  | fault =>
    rw [hpc] at hcode
    cases hcode

/-- `down` gives a token of the count to a remover. -/
theorem down (h : BlockingQueueOk threads l s) (ht : t < threads) (hpc : s.pc t = .removeDown)
    (hpos : 0 < s.count ()) :
    BlockingQueueOk threads l ⟨update s.count () (s.count () - 1), s.mem, update s.pc t .removeData⟩ := by
  refine h.goto ht h.onQueue h.log (h.owners.same ht (by rw [hpc]; rfl)) (fun _ _ _ _ _ => rfl) trivial
    (h.receipts.move (by rw [hpc]; rfl)) h.notNull (Or.inr ?_)
  simp only [hpc, BlockingQueuePlace.taking, BlockingQueuePlace.posting, Function.update_self]
  omega

/-- `up` gives the token of an adder to the count. -/
theorem up (h : BlockingQueueOk threads l s) (ht : t < threads) (hpc : s.pc t = .addUp) :
    BlockingQueueOk threads l ⟨update s.count () (s.count () + 1), s.mem, update s.pc t .idle⟩ := by
  refine h.goto ht h.onQueue h.log (h.owners.same ht (by rw [hpc]; rfl)) (fun _ _ _ _ _ => rfl) trivial
    (h.receipts.move (by rw [hpc]; rfl)) h.notNull (Or.inr ?_)
  simp only [hpc, BlockingQueuePlace.taking, BlockingQueuePlace.posting, Function.update_self]
  omega

end BlockingQueueOk

/-- **Every run** keeps the invariant. -/
theorem blockingQueueOk_of_reached (h : Tokens.Reached BlockingQueue.program threads
    ⟨fun _ => 0, BlockingQueue.new next, fun _ => BlockingQueuePlace.idle⟩ s) :
    ∃ l, BlockingQueueOk threads l s := by
  apply Tokens.Guarded.invariant (I := fun s => ∃ l, BlockingQueueOk threads l s)
    ⟨_, BlockingQueueOk.start next⟩ ?_ ?_ ?_ ?_ h
  · rintro s t c mem p ht ⟨l, hI⟩ hcode hcall
    rcases BlockingQueue.code_rest hcode with hpc | hpc
    · rw [hpc] at hcall
      exact ⟨l, hI.call ht hpc hcall⟩
    · have hright := hI.right t ht
      rw [hpc] at hright
      exact hright.elim
  · rintro s t i next ht ⟨l, hI⟩ hcode hpos
    obtain ⟨hpc, rfl⟩ := BlockingQueue.code_down hcode
    exact ⟨l, hI.down ht hpc hpos⟩
  · rintro s t i next ht ⟨l, hI⟩ hcode
    obtain ⟨hpc, rfl⟩ := BlockingQueue.code_up hcode
    exact ⟨l, hI.up ht hpc⟩
  · rintro s t f ht ⟨l, hI⟩ hcode -
    exact hI.act ht hcode

/-! ## The result -/

/-- **Blocking queues**: in every state reached, what has been taken, by one `remove` or in one chain of
    `remove_all`, and then what is queued, is what was added, in the same order; what calls have returned,
    and what they are about to return, is what was taken, each in its section and once; `remove` has never
    returned a null pointer and nobody has used one; the count, the removers that have passed `down` and not
    taken yet and the adders before their `up` are at least as many as the queued elements; and when no
    thread has a step left while one waits in `remove`, nothing is queued. -/
theorem blockingQueue_laws {threads : Nat} {next : Nat → Option Nat}
    {s : Tasks Unit BlockingQueue BlockingQueuePlace} (h : BlockingQueueRuns threads next s) :
    ∃ l, OnQueue s.mem.next s.mem.data l ∧ l.Nodup ∧ s.mem.takenLog.flatten ++ l = s.mem.addedLog ∧
      (s.mem.returned.map (fun r => (r.1.elements, r.2)) ++ gather (fun t => (s.pc t).inHand) threads).Perm
        s.mem.takenLog.zipIdx ∧
      (∀ r ∈ s.mem.returned, r.1 ≠ .element none) ∧ (∀ t, t < threads → s.pc t ≠ .fault) ∧
      l.length ≤ (s.sem ()).n + s.countAt BlockingQueue.program threads BlockingQueuePlace.taking
        + s.countAt BlockingQueue.program threads BlockingQueuePlace.posting ∧
      (s.Stuck BlockingQueue.program threads → ∀ t, t < threads → s.pc t = .removeDown → l = []) := by
  obtain ⟨l, hok⟩ := blockingQueueOk_of_reached (Tasks.Guarded.view h)
  have hphases := Tasks.Guarded.tasksOk h
  refine ⟨l, hok.onQueue, (List.nodup_append.1 hok.owners.nodup).1, hok.log, ?_, hok.notNull,
    fun t ht hpc => ?_, hok.tokens, fun hstuck t ht hpc => ?_⟩
  · -- a thread in `down` has nothing in hand, whether or not it was granted what it waits for
    refine hok.receipts.congr fun t _ => (Tasks.place_same fun p i next hcode => ?_).symm
    obtain ⟨rfl, rfl⟩ := BlockingQueue.code_down hcode
    rfl
  · have hright : (s.place BlockingQueue.program t).Right s.mem.next := hok.right t ht
    have hplace : s.place BlockingQueue.program t = .fault := by
      refine Tasks.place_at ?_ hpc
      rw [hphases.outside fun i next hcode => by rw [hpc] at hcode; cases hcode]
      decide
    rw [hplace] at hright
    exact hright
  · -- the count is `0`, nobody takes and nobody adds
    have hnobody : ∀ w : BlockingQueuePlace → Nat, w .idle = 0 → w .fault = 0 → w .removeDown = 0 →
        tally w (s.place BlockingQueue.program) threads = 0 := by
      intro w hidle hfault hdown
      refine Tokens.tally_eq_zero fun u hu => ?_
      obtain ⟨hplace, hrest | ⟨-, i, next, hcode, -⟩⟩ := hphases.stuck hstuck hu
      · rcases BlockingQueue.code_rest hrest with hpc | hpc
        · rw [hplace, hpc, hidle]
        · rw [hplace, hpc, hfault]
      · rw [hplace, (BlockingQueue.code_down hcode).1, hdown]
    have hzero : (s.sem ()).n = 0 := by
      obtain ⟨-, hrest | ⟨-, i, next, -, hzero⟩⟩ := hphases.stuck hstuck ht
      · rcases BlockingQueue.code_rest hrest with hpc' | hpc' <;> rw [hpc] at hpc' <;> cases hpc'
      · exact hzero
    have htokens : l.length ≤ (s.sem ()).n
        + tally BlockingQueuePlace.taking (s.place BlockingQueue.program) threads
        + tally BlockingQueuePlace.posting (s.place BlockingQueue.program) threads := hok.tokens
    rw [hnobody _ rfl rfl rfl, hnobody _ rfl rfl rfl, hzero] at htokens
    exact List.eq_nil_of_length_eq_zero (by omega)

/-- A remover is woken for an element that `remove_all` takes first, and waits again; the caller of `remove_all`
    finds the element in its chain. -/
theorem blockingQueue_laws_retry : ∃ s, BlockingQueueRuns 3 (fun _ => none) s ∧
    (∃ l, OnQueue s.mem.next s.mem.data l ∧ l.Nodup ∧ s.mem.takenLog.flatten ++ l = s.mem.addedLog ∧
      (s.mem.returned.map (fun r => (r.1.elements, r.2)) ++ gather (fun t => (s.pc t).inHand) 3).Perm
        s.mem.takenLog.zipIdx ∧
      (∀ r ∈ s.mem.returned, r.1 ≠ .element none) ∧ (∀ t, t < 3 → s.pc t ≠ .fault) ∧
      l.length ≤ (s.sem ()).n + s.countAt BlockingQueue.program 3 BlockingQueuePlace.taking
        + s.countAt BlockingQueue.program 3 BlockingQueuePlace.posting ∧
      (s.Stuck BlockingQueue.program 3 → ∀ t, t < 3 → s.pc t = .removeDown → l = [])) ∧
    s.mem.returned = [(.chain [5], 0)] ∧ s.pc 0 = .removeDown := by
  have h₀ : BlockingQueueRuns 3 (fun _ => none) (BlockingQueue.start fun _ => none) := Runs.Guarded.start rfl
  have h₁ := h₀.next (.call 0 .remove) rfl
  have h₂ := h₁.next (.step 0) rfl
  have h₃ := h₂.next (.step 0) rfl
  have h₄ := h₃.next (.call 1 (.add 5)) rfl
  have h₅ := h₄.next (.step 1) rfl
  have h₆ := h₅.next (.step 1) rfl
  have h₇ := h₆.next (.call 2 .removeAll) rfl
  have h₈ := h₇.next (.step 2) rfl
  have h₉ := h₈.next (.step 0) rfl
  have h₁₀ := h₉.next (.step 0) rfl
  have h₁₁ := h₁₀.next (.step 2) rfl
  exact ⟨_, h₁₁, blockingQueue_laws h₁₁, rfl, rfl⟩

end Threads

end BadApple
