/-
  Queues of TCBs: `Queue` and `SleepQueue` over `TCB::next` (kernel/queue.h, kernel/threads.cc).

  1. **Data** — a queue is its two pointers, a sleep queue the first one only; the rest of it is in the TCBs,
     each of which has one `next`.  A null pointer is `none`, and `none` as a result is the use of one.
  2. **Specification** — `OnQueue next q l`: following `next` reads `l`, and `last` is the last of it.
  3. **Operations** — each does to the list what one expects, and sets `next` of no TCB but the one that is
     added or removed and those on the queue: a TCB that is on another queue stays where it is.
-/
import BadApple.Lib.Links
import BadApple.Threads.Model

namespace BadApple

open Function (update)

open Links (Reads insertAfter)

namespace Threads

variable {next : Nat → Option Nat} {l : List Nat} {t : Nat}

/-! ## `Queue` -/

/-- `Queue`. -/
structure Queue where
  first : Option Nat
  last : Option Nat
deriving DecidableEq, Repr

namespace Queue

/-- `isEmpty`. -/
def isEmpty (q : Queue) : Bool := q.first.isNone

/-- `add`. -/
def add (q : Queue) (next : Nat → Option Nat) (t : Nat) : Option (Queue × (Nat → Option Nat)) :=
  let next := update next t none
  match q.first with
  | none => some (⟨some t, some t⟩, next)
  | some _ =>
    match q.last with
    | none => none
    | some last => some (⟨q.first, some t⟩, update next last (some t))

/-- `remove`. -/
def remove (q : Queue) (next : Nat → Option Nat) : Option Nat × Queue :=
  match q.first with
  | none => (none, q)
  | some it =>
    let first := next it
    (some it, ⟨first, if first = none then none else q.last⟩)

/-- `remove_all`. -/
def removeAll (q : Queue) : Option Nat × Queue := (q.first, ⟨none, none⟩)

end Queue

/-- The TCBs on a queue are those of a list, from the first to the last. -/
structure OnQueue (next : Nat → Option Nat) (q : Queue) (l : List Nat) : Prop where
  reads : Reads next q.first l
  last : q.last = l.getLast?

namespace OnQueue

variable {next' : Nat → Option Nat} {q : Queue}

theorem empty : OnQueue next ⟨none, none⟩ [] := ⟨rfl, rfl⟩

theorem congr (h : OnQueue next q l) (hn : ∀ u ∈ l, next' u = next u) : OnQueue next' q l :=
  ⟨h.reads.congr hn, h.last⟩

theorem isEmpty_iff (h : OnQueue next q l) : q.isEmpty = true ↔ l = [] := by
  rw [Queue.isEmpty, h.reads.first_eq, Option.isNone_iff_eq_none, List.head?_eq_none_iff]

/-- **`add`** puts the TCB behind all others. -/
theorem add (h : OnQueue next q l) (hnodup : l.Nodup) (ht : t ∉ l) :
    ∃ q' next', q.add next t = some (q', next') ∧ OnQueue next' q' (l ++ [t]) ∧
      ∀ u, u ≠ t → u ∉ l → next' u = next u := by
  have hreads : Reads (update next t none) q.first (l ++ []) := by
    rw [List.append_nil]
    refine h.reads.congr fun u hu => Function.update_of_ne ?_ _ _
    rintro rfl
    exact ht hu
  have hinsert := hreads.insert (t := t) (by rwa [List.append_nil]) (by rwa [List.append_nil])
    (Function.update_self _ _ _)
  rw [Queue.add]
  cases l with
  | nil =>
    obtain hfirst : q.first = none := h.reads
    simp only [hfirst]
    refine ⟨_, _, rfl, ⟨hinsert, rfl⟩, ?_⟩
    intro u hu _
    exact Function.update_of_ne hu _ _
  | cons x l =>
    obtain ⟨y, hy⟩ : ∃ y, (x :: l).getLast? = some y :=
      ⟨_, List.getLast?_eq_some_getLast (List.cons_ne_nil x l)⟩
    have hfirst : q.first = some x := h.reads.1
    have hlast : q.last = some y := h.last.trans hy
    rw [hy, hfirst] at hinsert
    simp only [hfirst, hlast]
    refine ⟨_, _, rfl, ⟨hinsert, ?_⟩, ?_⟩
    · rw [List.getLast?_concat]
    · intro u hu hul
      have huy : u ≠ y := by
        rintro rfl
        exact hul (List.mem_of_getLast? hy)
      rw [Function.update_of_ne huy, Function.update_of_ne hu]

/-- **`remove`** takes the first TCB, if there is one. -/
theorem remove (h : OnQueue next q l) :
    (q.remove next).1 = l.head? ∧ OnQueue next (q.remove next).2 l.tail := by
  rw [Queue.remove]
  cases l with
  | nil =>
    obtain hfirst : q.first = none := h.reads
    simp only [hfirst]
    exact ⟨rfl, h⟩
  | cons x l =>
    have hfirst : q.first = some x := h.reads.1
    have hrest := h.reads.tail
    simp only [hfirst]
    refine ⟨rfl, hrest, ?_⟩
    show (if next x = none then none else q.last) = l.getLast?
    rw [hrest.first_eq, h.last]
    cases l with
    | nil => rfl
    | cons y l =>
      rw [if_neg (by simp), List.getLast?_cons_cons]

/-- **`remove_all`** takes all of them, as a chain. -/
theorem removeAll (h : OnQueue next q l) : Reads next q.removeAll.1 l ∧ OnQueue next q.removeAll.2 [] :=
  ⟨h.reads, empty⟩

end OnQueue

/-! ## `SleepQueue` -/

namespace SleepQueue

/-- The loop of `add`: the TCB behind which the new one goes, if it goes behind one, and what comes after it.
    `fuel` is as many TCBs as there are. -/
def place (next : Nat → Option Nat) (atJiffies : Nat → Nat) (tcb : Nat) :
    (fuel : Nat) → (pprev p : Option Nat) → Option (Option Nat × Option Nat)
  | 0, _, _ => none
  | _ + 1, pprev, none => some (pprev, none)
  | fuel + 1, pprev, some p =>
    if atJiffies p ≤ atJiffies tcb then place next atJiffies tcb fuel (some p) (next p) else some (pprev, some p)

/-- `add`, once the time to wake up has been set: the first TCB, and the links. -/
def add (next : Nat → Option Nat) (atJiffies : Nat → Nat) (first : Option Nat) (fuel tcb : Nat) :
    Option (Option Nat × (Nat → Option Nat)) :=
  match place next atJiffies tcb fuel none first with
  | none => none
  | some (pprev, p) => some (insertAfter (update next tcb p) first pprev tcb)

/-- `remove`: the TCB, the first one that is left, and the links. -/
def remove (next : Nat → Option Nat) (atJiffies : Nat → Nat) (jiffies : Nat) (first : Option Nat) :
    Option Nat × Option Nat × (Nat → Option Nat) :=
  match first with
  | none => (none, first, next)
  | some p =>
    if atJiffies p > jiffies then (none, first, next) else (some p, next p, update next p none)

variable {atJiffies : Nat → Nat} {first : Option Nat} {fuel jiffies : Nat}

/-- **The loop of `add`** finds the place where the list has the new TCB. -/
theorem place_eq {p : Option Nat} (pprev : Option Nat) (h : Reads next p l) (hfuel : l.length < fuel) :
    ∃ before after, l = before ++ after ∧ insertSleep atJiffies t l = before ++ t :: after ∧
      place next atJiffies t fuel pprev p = some (before.getLast?.or pprev, after.head?) := by
  induction l generalizing p pprev fuel with
  | nil =>
    obtain rfl : p = none := h
    cases fuel with
    | zero => exact absurd hfuel (Nat.not_lt_zero _)
    | succ fuel => exact ⟨[], [], rfl, rfl, rfl⟩
  | cons x l ih =>
    obtain ⟨rfl, hrest⟩ := h
    cases fuel with
    | zero => exact absurd hfuel (Nat.not_lt_zero _)
    | succ fuel =>
      rw [insertSleep, place]
      by_cases hx : atJiffies x ≤ atJiffies t
      · obtain ⟨before, after, rfl, hinsert, hplace⟩ := ih (some x) hrest (Nat.lt_of_succ_lt_succ hfuel)
        rw [if_pos hx, if_pos hx]
        refine ⟨x :: before, after, rfl, by rw [hinsert]; rfl, ?_⟩
        rw [hplace]
        cases before with
        | nil => rfl
        | cons y before =>
          rw [List.getLast?_cons_cons, List.getLast?_eq_some_getLast (List.cons_ne_nil y before)]
          rfl
      · rw [if_neg hx, if_neg hx]
        exact ⟨[], x :: l, rfl, rfl, rfl⟩

/-- **`add`** puts the TCB where the list has it. -/
theorem add_eq (h : Reads next first l) (hnodup : l.Nodup) (ht : t ∉ l) (hfuel : l.length < fuel) :
    ∃ first' next', add next atJiffies first fuel t = some (first', next') ∧
      Reads next' first' (insertSleep atJiffies t l) ∧ ∀ u, u ≠ t → u ∉ l → next' u = next u := by
  obtain ⟨before, after, rfl, hinsert, hplace⟩ : ∃ before after, l = before ++ after ∧
      insertSleep atJiffies t l = before ++ t :: after ∧
      place next atJiffies t fuel none first = some (before.getLast?.or none, after.head?) :=
    place_eq none h hfuel
  rw [Option.or_none] at hplace
  have hreads : Reads (update next t after.head?) first (before ++ after) := by
    refine h.congr fun u hu => Function.update_of_ne ?_ _ _
    rintro rfl
    exact ht hu
  refine ⟨_, _, by rw [add, hplace], ?_, ?_⟩
  · rw [hinsert]
    exact hreads.insert hnodup ht (Function.update_self _ _ _)
  · intro u hu hul
    rw [Links.insertAfter_of_ne, Function.update_of_ne hu]
    intro hlast
    exact hul (List.mem_append_left _ (List.mem_of_getLast? hlast))

/-- **`remove`** takes the first TCB if its time has come, as it does from the list. -/
theorem remove_eq (h : Reads next first l) (hnodup : l.Nodup) :
    (removeSleep atJiffies jiffies l = none ∧
      remove next atJiffies jiffies first = (none, first, next)) ∨
    ∃ p rest first' next', removeSleep atJiffies jiffies l = some (p, rest) ∧
      remove next atJiffies jiffies first = (some p, first', next') ∧ Reads next' first' rest ∧
      ∀ u, u ≠ p → next' u = next u := by
  cases l with
  | nil =>
    obtain rfl : first = none := h
    exact .inl ⟨rfl, rfl⟩
  | cons p rest =>
    obtain ⟨rfl, hrest⟩ := h
    rw [removeSleep, remove]
    by_cases hp : jiffies < atJiffies p
    · rw [if_pos hp, if_pos hp]
      exact .inl ⟨rfl, rfl⟩
    · rw [if_neg hp, if_neg hp]
      refine .inr ⟨p, rest, _, _, rfl, rfl, ?_, fun u hu => Function.update_of_ne hu _ _⟩
      refine hrest.congr fun u hu => Function.update_of_ne ?_ _ _
      rintro rfl
      exact (List.nodup_cons.1 hnodup).1 hu

end SleepQueue

end Threads

end BadApple
