/-
  `BB` (kernel/bb.h): a bounded buffer between producers and consumers.

  1. **Code** — `put` takes one from `n_empty`, writes the next slot, and adds one to `n_full`; `get` takes
     one from `n_full`, reads the next slot, and adds one to `n_empty`.  What is done under the spin lock is
     one action.  Beside the buffer we note what was put and taken, in the order of these actions, and what
     `get` has returned, with the number of the section in which the value was read.
  2. **Counts** — a slot is free (counted by `n_empty`), or claimed by a producer, or filled, or left by a
     consumer; and a value is announced (counted by `n_full`), or not yet, or claimed by a consumer.
  3. **Returned values** — a consumer carries its value from the section where it has read it to its
     `return`; what was returned and what is carried is what was taken.
  4. **The result** — `boundedBuffer_laws`.
-/
import BadApple.Lib.Receipts
import BadApple.Lib.Ring
import BadApple.Threads.Tasks
import BadApple.Word

namespace BadApple

namespace Threads

open Function (update)

open Ring (Holds)

open Tokens (Program Instr tally)

universe u

variable {α : Type u}

/-! ## The code -/

/-- The semaphores of a `BB`. -/
inductive BBSemaphore where
  | empty
  | full
deriving DecidableEq, Repr

/-- `BB`, what was put into it and taken out of it, and what `get` has returned: each value, and which of the
    sections of `get` has read it. -/
structure BB (α : Type u) where
  data : Nat → α
  n : Nat
  front : Nat
  back : Nat
  putLog : List α
  takenLog : List α
  returned : List (α × Nat)

/-- Where a thread is: between calls, before a step of `put`, or before a step of `get`, which has read `v` in
    its section `k`. -/
inductive BBPlace (α : Type u) where
  | idle
  | putDown (v : α)
  | putSlot (v : α)
  | putUp
  | getDown
  | getSlot
  | getUp (v : α) (k : Nat)
  | getReturn (v : α) (k : Nat)
deriving DecidableEq, Repr

/-- The calls of a `BB`. -/
inductive BBCall (α : Type u) where
  | put (v : α)
  | get
deriving DecidableEq, Repr

namespace BB

/-- `BB(n)`, whose slots hold `T()`. -/
def new (n : Nat) (initial : α) : BB α := ⟨fun _ => initial, n, 0, 0, [], [], []⟩

/-- What `put` does under the spin lock. -/
def putSlot (b : BB α) (v : α) : BB α :=
  { b with data := update b.data b.back v, back := u32 (b.back + 1) % b.n, putLog := b.putLog ++ [v] }

/-- What `get` does under the spin lock, and the value it has read. -/
def getSlot (b : BB α) : BB α × α :=
  let v := b.data b.front
  ({ b with front := u32 (b.front + 1) % b.n, takenLog := b.takenLog ++ [v] }, v)

/-- The steps of `put` and `get`. -/
def code : BBPlace α → Instr BBSemaphore (BB α) (BBPlace α)
  | .idle => .rest
  | .putDown v => .down .empty (.putSlot v)
  | .putSlot v => .act fun _ b => (b.putSlot v, .putUp)
  | .putUp => .up .full .idle
  | .getDown => .down .full .getSlot
  | .getSlot => .act fun _ b => (b.getSlot.1, .getUp b.getSlot.2 b.takenLog.length)
  | .getUp v k => .up .empty (.getReturn v k)
  | .getReturn v k => .act fun _ b => ({ b with returned := b.returned ++ [(v, k)] }, .idle)

/-- Any thread may call `put` and `get` at any time. -/
def call : BBCall α → BB α → BBPlace α → Option (BB α × BBPlace α)
  | .put v, b, _ => some (b, .putDown v)
  | .get, b, _ => some (b, .getDown)

/-- The code of a `BB`. -/
def program : Program BBSemaphore (BB α) (BBPlace α) (BBCall α) := ⟨code, call⟩

/-- The counts at first: `n_empty{n}, n_full{0}`. -/
def initialCount (n : Nat) : BBSemaphore → Nat
  | .empty => n
  | .full => 0

/-- A `BB` that nobody has used. -/
def start (n : Nat) (initial : α) : Tasks BBSemaphore (BB α) (BBPlace α) :=
  .start (initialCount n) (new n initial) fun _ => .idle

end BB

/-- The states reached by any number of threads in any order of steps. -/
def BBRuns (threads n : Nat) (initial : α) : Tasks BBSemaphore (BB α) (BBPlace α) → Prop :=
  Tasks.Reached BB.program threads (BB.start n initial)

/-! ## Places -/

namespace BBPlace

/-- Who has claimed a free slot and not filled it. -/
def claimsSlot : BBPlace α → Nat
  | .putSlot _ => 1
  | _ => 0

/-- Who has filled a slot and not announced it. -/
def filled : BBPlace α → Nat
  | .putUp => 1
  | _ => 0

/-- Who has claimed a value and not taken it. -/
def claimsValue : BBPlace α → Nat
  | .getSlot => 1
  | _ => 0

/-- Who has taken a value and not given its slot back. -/
def left : BBPlace α → Nat
  | .getUp _ _ => 1
  | _ => 0

/-- What a thread is about to return. -/
def inHand : BBPlace α → List (α × Nat)
  | .getUp v k => [(v, k)]
  | .getReturn v k => [(v, k)]
  | _ => []

end BBPlace

namespace BB

variable {p : BBPlace α} {i : BBSemaphore} {next : BBPlace α}

theorem code_rest (h : code p = .rest) : p = .idle := by
  cases p <;> first | rfl | cases h

theorem code_down (h : code p = .down i next) :
    (∃ v, p = .putDown v ∧ i = .empty ∧ next = .putSlot v) ∨ (p = .getDown ∧ i = .full ∧ next = .getSlot) := by
  cases p <;> cases h
  · exact Or.inl ⟨_, rfl, rfl, rfl⟩
  · exact Or.inr ⟨rfl, rfl, rfl⟩

theorem code_up (h : code p = .up i next) :
    (p = .putUp ∧ i = .full ∧ next = .idle) ∨
    (∃ v k, p = .getUp v k ∧ i = .empty ∧ next = .getReturn v k) := by
  cases p <;> cases h
  · exact Or.inl ⟨rfl, rfl, rfl⟩
  · exact Or.inr ⟨_, _, rfl, rfl, rfl⟩

theorem code_act {f : Nat → BB α → BB α × BBPlace α} (h : code p = .act f) :
    (∃ v, p = .putSlot v ∧ f = fun _ b => (b.putSlot v, .putUp)) ∨
    (p = .getSlot ∧ f = fun _ b => (b.getSlot.1, .getUp b.getSlot.2 b.takenLog.length)) ∨
    (∃ v k, p = .getReturn v k ∧ f = fun _ b => ({ b with returned := b.returned ++ [(v, k)] }, .idle)) := by
  cases p <;> cases h
  · exact Or.inl ⟨_, rfl, rfl⟩
  · exact Or.inr (Or.inl ⟨rfl, rfl⟩)
  · exact Or.inr (Or.inr ⟨_, _, rfl, rfl⟩)

end BB

/-! ## The invariant -/

/-- **The slots and the values are all accounted for**, and so is what was taken. -/
structure BBOk (threads n : Nat) (s : Tokens.State BBSemaphore (BB α) (BBPlace α)) : Prop where
  size : s.mem.n = n
  holds : Holds n s.mem.data s.mem.putLog s.mem.takenLog
  back : s.mem.back = s.mem.putLog.length % n
  front : s.mem.front = s.mem.takenLog.length % n
  slots : s.count .empty + tally BBPlace.claimsSlot s.pc threads + s.mem.putLog.length
    + tally BBPlace.left s.pc threads = n + s.mem.takenLog.length
  values : s.count .full + tally BBPlace.claimsValue s.pc threads + s.mem.takenLog.length
    + tally BBPlace.filled s.pc threads = s.mem.putLog.length
  receipts : Receipts.Settled BBPlace.inHand s.pc threads s.mem.returned s.mem.takenLog

variable {threads n t : Nat} {initial : α} {s : Tokens.State BBSemaphore (BB α) (BBPlace α)}

theorem bbOk_start (n : Nat) (initial : α) :
    BBOk threads n ⟨BB.initialCount n, BB.new n initial, fun _ => BBPlace.idle⟩ := by
  refine ⟨rfl, Holds.empty n _, (Nat.zero_mod n).symm, (Nat.zero_mod n).symm, ?_, ?_,
    Receipts.Settled.start BBPlace.inHand rfl⟩
  · rw [Tokens.tally_const, Tokens.tally_const]
    rfl
  · rw [Tokens.tally_const, Tokens.tally_const]
    rfl

/-- A producer that has claimed a slot has room. -/
theorem BBOk.room (h : BBOk threads n s) (ht : t < threads) {v : α} (hpc : s.pc t = .putSlot v) :
    s.mem.putLog.length < s.mem.takenLog.length + n := by
  have hle := Tokens.le_tally BBPlace.claimsSlot s.pc ht
  have hslots := h.slots
  rw [hpc, BBPlace.claimsSlot] at hle
  omega

/-- A consumer that has claimed a value finds one. -/
theorem BBOk.value (h : BBOk threads n s) (ht : t < threads) (hpc : s.pc t = .getSlot) :
    s.mem.takenLog.length < s.mem.putLog.length := by
  have hle := Tokens.le_tally BBPlace.claimsValue s.pc ht
  have hvalues := h.values
  rw [hpc, BBPlace.claimsValue] at hle
  omega

/-- The next index. -/
theorem BB.next_index (hn : 1 ≤ n) (hword : n < 4294967296) (j : Nat) :
    u32 (j % n + 1) % n = (j + 1) % n := by
  have hlt := Nat.mod_lt j hn
  rw [u32_of_lt (by omega), Nat.mod_add_mod]

/-- **A call** keeps the invariant. -/
theorem BBOk.call (h : BBOk threads n s) (ht : t < threads) (hpc : s.pc t = .idle) {c : BBCall α}
    {mem : BB α} {p : BBPlace α} (hcall : BB.call c s.mem .idle = .some (mem, p)) :
    BBOk threads n ⟨s.count, mem, update s.pc t p⟩ := by
  obtain ⟨hsize, hholds, hback, hfront, hslots, hvalues, hreceipts⟩ := h
  have hclaims := Tokens.tally_update BBPlace.claimsSlot s.pc p ht
  have hleft := Tokens.tally_update BBPlace.left s.pc p ht
  have hclaimsV := Tokens.tally_update BBPlace.claimsValue s.pc p ht
  have hfilled := Tokens.tally_update BBPlace.filled s.pc p ht
  rw [hpc] at hclaims hleft hclaimsV hfilled
  have hp : p.claimsSlot = 0 ∧ p.left = 0 ∧ p.claimsValue = 0 ∧ p.filled = 0 ∧ p.inHand = [] ∧
      mem = s.mem := by
    cases c <;> obtain ⟨rfl, rfl⟩ := Prod.mk.inj (Option.some.inj hcall) <;>
      exact ⟨rfl, rfl, rfl, rfl, rfl, rfl⟩
  obtain ⟨h1, h2, h3, h4, h5, rfl⟩ := hp
  rw [h1] at hclaims
  rw [h2] at hleft
  rw [h3] at hclaimsV
  rw [h4] at hfilled
  simp only [BBPlace.claimsSlot, BBPlace.left, BBPlace.claimsValue, BBPlace.filled]
    at hclaims hleft hclaimsV hfilled
  refine ⟨hsize, hholds, hback, hfront, ?_, ?_, hreceipts.move (by rw [h5, hpc]; rfl)⟩
  · simp only
    omega
  · simp only
    omega

/-- `down` claims a slot, or a value. -/
theorem BBOk.down (h : BBOk threads n s) (ht : t < threads) {i : BBSemaphore} {next : BBPlace α}
    (hpc : (∃ v, s.pc t = .putDown v ∧ i = .empty ∧ next = .putSlot v) ∨
      (s.pc t = .getDown ∧ i = .full ∧ next = .getSlot)) (hpos : 0 < s.count i) :
    BBOk threads n ⟨update s.count i (s.count i - 1), s.mem, update s.pc t next⟩ := by
  obtain ⟨hsize, hholds, hback, hfront, hslots, hvalues, hreceipts⟩ := h
  have hclaims := Tokens.tally_update BBPlace.claimsSlot s.pc next ht
  have hleft := Tokens.tally_update BBPlace.left s.pc next ht
  have hclaimsV := Tokens.tally_update BBPlace.claimsValue s.pc next ht
  have hfilled := Tokens.tally_update BBPlace.filled s.pc next ht
  rcases hpc with ⟨v, hpc, rfl, rfl⟩ | ⟨hpc, rfl, rfl⟩
  all_goals
    rw [hpc] at hclaims hleft hclaimsV hfilled
    simp only [BBPlace.claimsSlot, BBPlace.left, BBPlace.claimsValue, BBPlace.filled]
      at hclaims hleft hclaimsV hfilled
  · refine ⟨hsize, hholds, hback, hfront, ?_, ?_, hreceipts.move (by rw [hpc]; rfl)⟩
    · simp only [Function.update_self]
      omega
    · simp only [Function.update_of_ne (show BBSemaphore.full ≠ .empty by decide)]
      omega
  · refine ⟨hsize, hholds, hback, hfront, ?_, ?_, hreceipts.move (by rw [hpc]; rfl)⟩
    · simp only [Function.update_of_ne (show BBSemaphore.empty ≠ .full by decide)]
      omega
    · simp only [Function.update_self]
      omega

/-- `up` announces a value, or gives a slot back. -/
theorem BBOk.up (h : BBOk threads n s) (ht : t < threads) {i : BBSemaphore} {next : BBPlace α}
    (hpc : (s.pc t = .putUp ∧ i = .full ∧ next = .idle) ∨
      (∃ v k, s.pc t = .getUp v k ∧ i = .empty ∧ next = .getReturn v k)) :
    BBOk threads n ⟨update s.count i (s.count i + 1), s.mem, update s.pc t next⟩ := by
  obtain ⟨hsize, hholds, hback, hfront, hslots, hvalues, hreceipts⟩ := h
  have hclaims := Tokens.tally_update BBPlace.claimsSlot s.pc next ht
  have hleft := Tokens.tally_update BBPlace.left s.pc next ht
  have hclaimsV := Tokens.tally_update BBPlace.claimsValue s.pc next ht
  have hfilled := Tokens.tally_update BBPlace.filled s.pc next ht
  rcases hpc with ⟨hpc, rfl, rfl⟩ | ⟨v, k, hpc, rfl, rfl⟩
  all_goals
    rw [hpc] at hclaims hleft hclaimsV hfilled
    simp only [BBPlace.claimsSlot, BBPlace.left, BBPlace.claimsValue, BBPlace.filled]
      at hclaims hleft hclaimsV hfilled
  · refine ⟨hsize, hholds, hback, hfront, ?_, ?_, hreceipts.move (by rw [hpc]; rfl)⟩
    · simp only [Function.update_of_ne (show BBSemaphore.empty ≠ .full by decide)]
      omega
    · simp only [Function.update_self]
      omega
  · refine ⟨hsize, hholds, hback, hfront, ?_, ?_, hreceipts.move (by rw [hpc]; rfl)⟩
    · simp only [Function.update_self]
      omega
    · simp only [Function.update_of_ne (show BBSemaphore.full ≠ .empty by decide)]
      omega

/-- **Filling a slot** keeps the invariant. -/
theorem BBOk.putSlot (h : BBOk threads n s) (hn : 1 ≤ n) (hword : n < 4294967296) (ht : t < threads) {v : α}
    (hpc : s.pc t = .putSlot v) : BBOk threads n ⟨s.count, s.mem.putSlot v, update s.pc t .putUp⟩ := by
  have hroom := h.room ht hpc
  obtain ⟨hsize, hholds, hback, hfront, hslots, hvalues, hreceipts⟩ := h
  have hclaims := Tokens.tally_update BBPlace.claimsSlot s.pc .putUp ht
  have hleft := Tokens.tally_update BBPlace.left s.pc .putUp ht
  have hclaimsV := Tokens.tally_update BBPlace.claimsValue s.pc .putUp ht
  have hfilled := Tokens.tally_update BBPlace.filled s.pc .putUp ht
  rw [hpc] at hclaims hleft hclaimsV hfilled
  simp only [BBPlace.claimsSlot, BBPlace.left, BBPlace.claimsValue, BBPlace.filled]
    at hclaims hleft hclaimsV hfilled
  refine ⟨hsize, ?_, ?_, hfront, ?_, ?_, hreceipts.move (by rw [hpc]; rfl)⟩
  · simp only [BB.putSlot, hback]
    exact hholds.put hroom v
  · simp only [BB.putSlot, hback, hsize, List.length_append, List.length_singleton]
    exact BB.next_index hn hword _
  · simp only [BB.putSlot, List.length_append, List.length_singleton]
    omega
  · simp only [BB.putSlot, List.length_append, List.length_singleton]
    omega

/-- **Reading a slot** keeps the invariant. -/
theorem BBOk.getSlot (h : BBOk threads n s) (hn : 1 ≤ n) (hword : n < 4294967296) (ht : t < threads)
    (hpc : s.pc t = .getSlot) :
    BBOk threads n ⟨s.count, s.mem.getSlot.1,
      update s.pc t (.getUp s.mem.getSlot.2 s.mem.takenLog.length)⟩ := by
  have hsome := h.value ht hpc
  obtain ⟨hsize, hholds, hback, hfront, hslots, hvalues, hreceipts⟩ := h
  have hclaims := Tokens.tally_update BBPlace.claimsSlot s.pc (.getUp s.mem.getSlot.2 s.mem.takenLog.length) ht
  have hleft := Tokens.tally_update BBPlace.left s.pc (.getUp s.mem.getSlot.2 s.mem.takenLog.length) ht
  have hclaimsV := Tokens.tally_update BBPlace.claimsValue s.pc (.getUp s.mem.getSlot.2 s.mem.takenLog.length) ht
  have hfilled := Tokens.tally_update BBPlace.filled s.pc (.getUp s.mem.getSlot.2 s.mem.takenLog.length) ht
  rw [hpc] at hclaims hleft hclaimsV hfilled
  simp only [BBPlace.claimsSlot, BBPlace.left, BBPlace.claimsValue, BBPlace.filled]
    at hclaims hleft hclaimsV hfilled
  refine ⟨hsize, ?_, hback, ?_, ?_, ?_, hreceipts.issue ht (by rw [hpc]; rfl) rfl⟩
  · simp only [BB.getSlot, hfront]
    exact hholds.take hsome
  · simp only [BB.getSlot, hfront, hsize, List.length_append, List.length_singleton]
    exact BB.next_index hn hword _
  · simp only [BB.getSlot, List.length_append, List.length_singleton] at hclaims hleft ⊢
    omega
  · simp only [BB.getSlot, List.length_append, List.length_singleton] at hclaimsV hfilled ⊢
    omega

/-- **Returning a value** that was read keeps the invariant. -/
theorem BBOk.getReturn (h : BBOk threads n s) (ht : t < threads) {v : α} {k : Nat}
    (hpc : s.pc t = .getReturn v k) :
    BBOk threads n ⟨s.count, { s.mem with returned := s.mem.returned ++ [(v, k)] }, update s.pc t .idle⟩ := by
  obtain ⟨hsize, hholds, hback, hfront, hslots, hvalues, hreceipts⟩ := h
  have hclaims := Tokens.tally_update BBPlace.claimsSlot s.pc .idle ht
  have hleft := Tokens.tally_update BBPlace.left s.pc .idle ht
  have hclaimsV := Tokens.tally_update BBPlace.claimsValue s.pc .idle ht
  have hfilled := Tokens.tally_update BBPlace.filled s.pc .idle ht
  rw [hpc] at hclaims hleft hclaimsV hfilled
  simp only [BBPlace.claimsSlot, BBPlace.left, BBPlace.claimsValue, BBPlace.filled]
    at hclaims hleft hclaimsV hfilled
  refine ⟨hsize, hholds, hback, hfront, ?_, ?_, hreceipts.give ht (by rw [hpc]; rfl) rfl⟩
  · simp only
    omega
  · simp only
    omega

/-- **Every run** keeps the invariant. -/
theorem bbOk_of_reached (hn : 1 ≤ n) (hword : n < 4294967296)
    (h : Tokens.Reached BB.program threads ⟨BB.initialCount n, BB.new n initial, fun _ => BBPlace.idle⟩ s) :
    BBOk threads n s := by
  apply Tokens.Guarded.invariant (I := BBOk threads n) (bbOk_start n initial) ?_ ?_ ?_ ?_ h
  · intro s t c mem p ht hI hcode hcall
    have hpc := BB.code_rest hcode
    rw [hpc] at hcall
    exact hI.call ht hpc hcall
  · exact fun s t i next ht hI hcode hpos => hI.down ht (BB.code_down hcode) hpos
  · exact fun s t i next ht hI hcode => hI.up ht (BB.code_up hcode)
  · intro s t f ht hI hcode _
    rcases BB.code_act hcode with ⟨v, hpc, rfl⟩ | ⟨hpc, rfl⟩ | ⟨v, k, hpc, rfl⟩
    · exact hI.putSlot hn hword ht hpc
    · exact hI.getSlot hn hword ht hpc
    · exact hI.getReturn ht hpc

/-! ## The result -/

/-- **Bounded buffers**: whatever the capacity and the order of steps, what was taken is what was put first,
    in the same order, and at most `n` values are in the buffer; the values that `get` has returned, and those
    it is about to return, are what was taken, each in its section and once; the slot that a producer is about
    to fill holds no value that is still to be taken; and the slot that a consumer is about to read holds the
    next one. -/
theorem boundedBuffer_laws {threads n : Nat} {initial : α} (hn : 1 ≤ n) (hword : n < 4294967296)
    {s : Tasks BBSemaphore (BB α) (BBPlace α)} (h : BBRuns threads n initial s) :
    s.mem.takenLog <+: s.mem.putLog ∧ s.mem.putLog.length ≤ s.mem.takenLog.length + n ∧
    (s.mem.returned ++ Receipts.gather (fun t => (s.pc t).inHand) threads).Perm s.mem.takenLog.zipIdx ∧
    (∀ t v, t < threads → s.pc t = .putSlot v → s.mem.back < n ∧
      ∀ j, s.mem.takenLog.length ≤ j → j < s.mem.putLog.length → j % n ≠ s.mem.back) ∧
    (∀ t, t < threads → s.pc t = .getSlot → s.mem.front < n ∧
      s.mem.putLog[s.mem.takenLog.length]? = some (s.mem.data s.mem.front)) := by
  have hok : BBOk threads n (s.view BB.program) := bbOk_of_reached hn hword (Tasks.Guarded.view h)
  -- a thread before an action is not in `down`
  have hat : ∀ {t p}, s.pc t = p → (∀ i next, BB.code p ≠ .down i next) → s.place BB.program t = p := by
    intro t p hpc hne
    refine Tasks.place_at ?_ hpc
    rw [(Tasks.Guarded.tasksOk h).outside fun i next hcode => hne i next (hpc ▸ hcode)]
    decide
  have hback : s.mem.back = s.mem.putLog.length % n := hok.back
  have hfront : s.mem.front = s.mem.takenLog.length % n := hok.front
  refine ⟨hok.holds.order, ?_, ?_, fun t v ht hpc => ?_, fun t ht hpc => ?_⟩
  · have hslots := hok.slots
    simp only [Tasks.view] at hslots
    omega
  · -- a thread in `down` has nothing in hand, whether or not it was granted what it waits for
    refine hok.receipts.congr fun t _ => (Tasks.place_same fun p i next hcode => ?_).symm
    rcases BB.code_down hcode with ⟨v, rfl, -, rfl⟩ | ⟨rfl, -, rfl⟩ <;> rfl
  · have hroom : s.mem.putLog.length < s.mem.takenLog.length + n :=
      hok.room ht (hat hpc fun _ _ he => by cases he)
    rw [hback]
    exact ⟨Nat.mod_lt _ hn, fun j hij hj => Ring.free hroom hij hj⟩
  · have hsome : s.mem.takenLog.length < s.mem.putLog.length :=
      hok.value ht (hat hpc fun _ _ he => by cases he)
    rw [hfront]
    exact ⟨Nat.mod_lt _ hn, hok.holds.next hsome⟩

/-- A buffer with one slot, from which a consumer gets a value while a second producer waits. -/
theorem boundedBuffer_laws_one : ∃ s : Tasks BBSemaphore (BB Nat) (BBPlace Nat), BBRuns 3 1 0 s ∧
    (s.mem.takenLog <+: s.mem.putLog ∧ s.mem.putLog.length ≤ s.mem.takenLog.length + 1 ∧
      (s.mem.returned ++ Receipts.gather (fun t => (s.pc t).inHand) 3).Perm s.mem.takenLog.zipIdx ∧
      (∀ t v, t < 3 → s.pc t = .putSlot v → s.mem.back < 1 ∧
        ∀ j, s.mem.takenLog.length ≤ j → j < s.mem.putLog.length → j % 1 ≠ s.mem.back) ∧
      (∀ t, t < 3 → s.pc t = .getSlot → s.mem.front < 1 ∧
        s.mem.putLog[s.mem.takenLog.length]? = some (s.mem.data s.mem.front))) ∧
    s.mem.returned = [(7, 0)] ∧ s.phase 1 = .granted := by
  have h₀ : BBRuns 3 1 0 (BB.start 1 0) := Runs.Guarded.start rfl
  have h₁ := h₀.next (.call 0 (.put 7)) rfl
  have h₂ := h₁.next (.step 0) rfl
  have h₃ := h₂.next (.step 0) rfl
  have h₄ := h₃.next (.step 0) rfl
  have h₅ := h₄.next (.call 1 (.put 8)) rfl
  have h₆ := h₅.next (.step 1) rfl
  have h₇ := h₆.next (.step 1) rfl
  have h₈ := h₇.next (.call 2 .get) rfl
  have h₉ := h₈.next (.step 2) rfl
  have h₁₀ := h₉.next (.step 2) rfl
  have h₁₁ := h₁₀.next (.step 2) rfl
  have h₁₂ := h₁₁.next (.step 2) rfl
  exact ⟨_, h₁₂, boundedBuffer_laws (by decide) (by decide) h₁₂, rfl, rfl⟩

end Threads

end BadApple
