/-
  Receipts: what calls return, against a log of what they took.

  1. **In hand** — a thread that has taken something from a shared state carries it, with the number of the
     entry of the log, until its call returns.
  2. **Settled** — what has been returned and what is still in hand is the log, each entry once.
  3. **Steps** — an entry is made and taken in hand, or a thread goes on with what it has, or its call
     returns.
-/
import Mathlib.Data.List.Basic
import Mathlib.Data.List.Nodup

namespace Receipts

open Function (update)

universe u v

variable {β : Type u} {π : Type v} {f : Nat → List β} {t n : Nat}

/-! ## In hand -/

/-- The lists of the first `n` threads, one after the other. -/
def gather (f : Nat → List β) (n : Nat) : List β := (List.range n).flatMap f

theorem gather_succ (f : Nat → List β) (n : Nat) : gather f (n + 1) = gather f n ++ f n := by
  rw [gather, List.range_succ, List.flatMap_append, List.flatMap_singleton, gather]

theorem gather_congr {g : Nat → List β} (h : ∀ t, t < n → f t = g t) : gather f n = gather g n := by
  induction n with
  | zero => rfl
  | succ n ih =>
    rw [gather_succ, gather_succ, ih fun t ht => h t (Nat.lt_succ_of_lt ht), h n (Nat.lt_succ_self n)]

theorem gather_nil (n : Nat) : gather (fun _ => ([] : List β)) n = [] := by
  induction n with
  | zero => rfl
  | succ n ih => rw [gather_succ, ih, List.append_nil]

theorem mem_gather {x : β} : x ∈ gather f n ↔ ∃ t, t < n ∧ x ∈ f t := by
  simp only [gather, List.mem_flatMap, List.mem_range]

/-- **One thread's list changes.** -/
theorem gather_update (f : Nat → List β) (ys : List β) (ht : t < n) :
    (gather (update f t ys) n ++ f t).Perm (gather f n ++ ys) := by
  induction n with
  | zero => exact absurd ht (Nat.not_lt_zero t)
  | succ n ih =>
    rw [gather_succ, gather_succ]
    rcases Nat.lt_succ_iff_lt_or_eq.1 ht with hlt | rfl
    · -- the last thread's list goes past the one that changes
      rw [Function.update_of_ne (Nat.ne_of_gt hlt), List.append_assoc, List.append_assoc]
      refine (List.perm_append_comm.append_left _).trans ?_
      refine .trans ?_ (List.perm_append_comm.append_left _)
      rw [← List.append_assoc, ← List.append_assoc]
      exact (ih hlt).append_right _
    · have hsame : gather (update f t ys) t = gather f t :=
        gather_congr fun u hu => Function.update_of_ne (Nat.ne_of_lt hu) _ _
      rw [Function.update_self, hsame, List.append_assoc, List.append_assoc]
      exact List.perm_append_comm.append_left _

/-- **One thread moves**, and its list is that of its new place. -/
theorem gather_move (w : π → List β) (pc : Nat → π) (p : π) (ht : t < n) :
    (gather (fun u => w (update pc t p u)) n ++ w (pc t)).Perm (gather (fun u => w (pc u)) n ++ w p) := by
  have hcomp : (fun u => w (update pc t p u)) = update (fun u => w (pc u)) t (w p) := by
    funext u
    by_cases hu : u = t
    · rw [hu, Function.update_self, Function.update_self]
    · rw [Function.update_of_ne hu, Function.update_of_ne hu]
  rw [hcomp]
  exact gather_update (fun u => w (pc u)) (w p) ht

/-! ## Settled -/

/-- **Every entry of the log is returned, or in hand, once**: `returned` holds what calls have returned and
    `hand` what a thread at a place has still to return, each with the number of its entry. -/
def Settled (hand : π → List (β × Nat)) (pc : Nat → π) (threads : Nat) (returned : List (β × Nat))
    (log : List β) : Prop :=
  (returned ++ gather (fun t => hand (pc t)) threads).Perm log.zipIdx

variable {hand : π → List (β × Nat)} {pc pc' : Nat → π} {threads : Nat} {returned : List (β × Nat)}
  {log : List β} {p : π} {x : β × Nat}

namespace Settled

theorem start (hand : π → List (β × Nat)) (hp : hand p = []) : Settled hand (fun _ => p) threads [] [] := by
  rw [Settled, hp, gather_nil]
  exact List.Perm.refl _

theorem congr (h : Settled hand pc threads returned log)
    (heq : ∀ t, t < threads → hand (pc' t) = hand (pc t)) : Settled hand pc' threads returned log := by
  rw [Settled, gather_congr heq]
  exact h

/-- What is in hand is in the log. -/
theorem of_hand (h : Settled hand pc threads returned log) (ht : t < threads) (hx : x ∈ hand (pc t)) :
    log[x.2]? = some x.1 :=
  List.mem_zipIdx_iff_getElem?.1
    (h.subset (List.mem_append_right _ (mem_gather.2 ⟨t, ht, hx⟩)))

/-! ## Steps -/

/-- **A thread goes on** with what it has. -/
theorem move (h : Settled hand pc threads returned log) (hp : hand p = hand (pc t)) :
    Settled hand (update pc t p) threads returned log := by
  refine h.congr fun u _ => ?_
  by_cases hu : u = t
  · rw [hu, Function.update_self, hp]
  · rw [Function.update_of_ne hu]

/-- **An entry is made**, and a thread that had nothing has it in hand. -/
theorem issue (h : Settled hand pc threads returned log) (ht : t < threads) {v : β}
    (hpc : hand (pc t) = []) (hp : hand p = [(v, log.length)]) :
    Settled hand (update pc t p) threads returned (log ++ [v]) := by
  have hmove := gather_move hand pc p ht
  rw [hpc, hp, List.append_nil] at hmove
  have hlog : (log ++ [v]).zipIdx = log.zipIdx ++ [(v, log.length)] := by
    rw [List.zipIdx_append, Nat.zero_add]
    rfl
  rw [Settled, hlog]
  refine (hmove.append_left returned).trans ?_
  rw [← List.append_assoc]
  exact h.append_right _

/-- **A call returns** what its thread has in hand. -/
theorem give (h : Settled hand pc threads returned log) (ht : t < threads) (hpc : hand (pc t) = [x])
    (hp : hand p = []) : Settled hand (update pc t p) threads (returned ++ [x]) log := by
  have hmove := gather_move hand pc p ht
  rw [hpc, hp, List.append_nil] at hmove
  rw [Settled, List.append_assoc]
  exact ((List.perm_append_comm.trans hmove).append_left returned).trans h

end Settled

end Receipts
