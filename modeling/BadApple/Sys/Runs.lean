/-
  The interrupt of a system call, and what happens to a process over time (kernel/sys.cc).

  1. **The request** — `sysHandler` reads the arguments from the user's stack, which lies above the kernel,
     and touches nothing else before it does what is asked for; so what it touches is decided by the call
     (`sysHandler_log_iff`).
  2. **Runs** — between two calls the process does with its memory what it likes.  A history keeps what
     has been touched, and how the last call ended.
-/
import BadApple.Lib.Runs
import BadApple.Sys.Rules

namespace BadApple

open Effects

open Runs (Guarded)

namespace Sys

variable {m : Machine} {P : Access → Prop} {eax userSp : Nat}

/-! ## The request -/

/-- The call that an interrupt asks for, if the user's stack can be read. -/
def requested (eax userSp : Nat) (m : Machine) : Option Call :=
  if userSp < 0x80000000 ∨ userSp ≥ 0xF0000000 then none
  else
    match (fetch eax userSp m).result with
    | .ok call => some call
    | .error _ => none

/-- What is known of a call, since its arguments are words, and `argv` points to the stack. -/
def FromStack (eax : Nat) : Call → Prop
  | .write _ _ _ => eax = 1
  | .read _ _ _ => eax = 12
  | .open_ path => path < 4294967296
  | .chdir path => path < 4294967296
  | .execl path argv => path < 4294967296 ∧ 0x80000000 ≤ argv ∧ argv < 4294967296
  | _ => True

theorem spec_arg {k : Nat} (hload : ∀ a, 0x80000000 ≤ a → P (.load a)) (hsp : 0x80000000 ≤ userSp) :
    Spec P (loadWord (userSp + 4 * k)) m (fun w m' => w < 4294967296 ∧ m = m')
      fun e m' => e ≠ .null ∧ m = m' := by
  have hword := spec_loadWord (E := fun e m' => e ≠ .null ∧ m = m') (hload (userSp + 4 * k) (by omega))
    fun _ => ⟨by simp, rfl⟩
  refine hword.mono (fun _ h => h) ?_ fun _ _ h => h
  rintro w _ ⟨hw, -, h⟩
  exact ⟨hw ▸ Memory.word_lt _ _, h⟩

/-- Fetching the arguments changes nothing. -/
theorem spec_fetch (hload : ∀ a, 0x80000000 ≤ a → P (.load a)) (hsp : 0x80000000 ≤ userSp)
    (hsp' : userSp < 0xF0000000) :
    Spec P (fetch eax userSp) m (fun call m' => FromStack eax call ∧ m = m') fun e m' => e ≠ .null ∧ m = m' := by
  unfold fetch
  split
  all_goals
    repeat
      refine Spec.bind (spec_arg hload hsp) ?_
      rintro _ _ ⟨_, rfl⟩
    refine Spec.pure ⟨?_, rfl⟩
    simp only [FromStack]
  all_goals omega

/-- What is known of a request. -/
theorem requested_some {call : Call} (h : requested eax userSp m = some call) :
    (0x80000000 ≤ userSp ∧ userSp < 0xF0000000) ∧ (fetch eax userSp m).result = .ok call ∧
    (fetch eax userSp m).state = m ∧ FromStack eax call := by
  rw [requested] at h
  by_cases hsp : userSp < 0x80000000 ∨ userSp ≥ 0xF0000000
  · rw [if_pos hsp] at h
    cases h
  · rw [if_neg hsp] at h
    have hfetch : Spec (fun _ => True) (fetch eax userSp) m (fun call m' => FromStack eax call ∧ m = m')
        fun e m' => e ≠ .null ∧ m = m' := spec_fetch (fun _ _ => trivial) (by omega) (by omega)
    cases hr : (fetch eax userSp m).result with
    | error e =>
      rw [hr] at h
      cases h
    | ok c =>
      rw [hr] at h
      obtain rfl := Option.some.inj h
      obtain ⟨hfrom, hstate⟩ := hfetch.ok _ hr
      exact ⟨by omega, rfl, hstate.symm, hfrom⟩

/-- What is left after the arguments have been fetched. -/
theorem sysHandler_of_requested {call : Call} (h : requested eax userSp m = some call) :
    sysHandler eax userSp m =
      ⟨(fetch eax userSp m).log ++ (handle call m).log, (handle call m).result, (handle call m).state⟩ := by
  obtain ⟨hsp, hr, hstate, -⟩ := requested_some h
  rw [sysHandler, if_neg (by omega), bind_run, Run.andThen, hr, hstate]

/-- An interrupt that asks for nothing ends the process, and has read only the stack. -/
theorem sysHandler_of_not_requested (hload : ∀ a, 0x80000000 ≤ a → P (.load a))
    (h : requested eax userSp m = none) :
    Spec P (sysHandler eax userSp) m (fun _ _ => False) fun e m' => e ≠ .null ∧ m = m' := by
  rw [requested] at h
  rw [sysHandler]
  by_cases hsp : userSp < 0x80000000 ∨ userSp ≥ 0xF0000000
  · rw [if_pos hsp]
    exact Spec.stop ⟨by simp, rfl⟩
  · rw [if_neg hsp] at h
    rw [if_neg hsp]
    have hfetch : Spec P (fetch eax userSp) m (fun call m' => FromStack eax call ∧ m = m')
        fun e m' => e ≠ .null ∧ m = m' := spec_fetch hload (by omega) (by omega)
    cases hr : (fetch eax userSp m).result with
    | ok c =>
      rw [hr] at h
      cases h
    | error e =>
      refine Spec.bind (Q := fun _ _ => False) ⟨hfetch.log, ?_, hfetch.error⟩ fun _ _ h => h.elim
      intro a ha
      rw [hr] at ha
      cases ha

/-- **What an interrupt touches is decided by the call it asks for.** -/
theorem sysHandler_log_iff (hload : ∀ a, 0x80000000 ≤ a → P (.load a)) :
    (∀ x ∈ (sysHandler eax userSp m).log, P x) ↔
      ∀ call, requested eax userSp m = some call → ∀ x ∈ (handle call m).log, P x := by
  cases hreq : requested eax userSp m with
  | none =>
    constructor
    · intro _ call h
      cases h
    · exact fun _ => (sysHandler_of_not_requested hload hreq).log
  | some call =>
    obtain ⟨hsp, -, -, -⟩ := requested_some hreq
    rw [sysHandler_of_requested hreq]
    constructor
    · intro h c hc x hx
      obtain rfl := Option.some.inj hc
      exact h x (List.mem_append_right _ hx)
    · intro h x hx
      rcases List.mem_append.1 hx with hx | hx
      · exact (spec_fetch hload hsp.1 hsp.2).log x hx
      · exact h call rfl x hx

/-! ## Runs -/

/-- A process over time: the machine, what the system calls have touched, and why the last one did not
    come back. -/
structure History where
  machine : Machine
  touched : List Access
  stopped : Option Stop

/-- What happens next: the process and the others run, and leave what they can change so; or it makes a
    system call. -/
inductive Happening where
  | user (mem : Memory.Mem) (mapped : Nat → Bool) (sharedVme : VME FileNode) (stack : Nat → Nat → UInt8)
      (behind : Nat → Option Nat) (kept : Nat → Nat)
  | call (eax userSp : Nat)

/-- A history goes on, unless it has stopped. -/
def History.step (h : History) : Happening → Option History
  | .user mem mapped sharedVme stack behind kept =>
    if h.stopped ≠ none then none
    else some { h with machine := { h.machine with
      mem := mem, mapped := mapped, sharedVme := sharedVme, stack := stack, behind := behind, kept := kept } }
  | .call eax userSp =>
    if h.stopped ≠ none then none
    else
      let r := sysHandler eax userSp h.machine
      some ⟨r.state, h.touched ++ r.log, match r.result with
        | .ok _ => none
        | .error e => some e⟩

/-- A history that goes on has not stopped; then other code runs, or a call is made. -/
theorem History.step_cases {h h' : History} {e : Happening} (hstep : h.step e = some h') :
    (h.stopped = none ∧ ∃ mem mapped sharedVme stack behind kept,
      e = .user mem mapped sharedVme stack behind kept ∧ h' = { h with machine := { h.machine with
        mem := mem, mapped := mapped, sharedVme := sharedVme, stack := stack, behind := behind, kept := kept } }) ∨
    ∃ eax userSp, e = .call eax userSp ∧
      h' = ⟨(sysHandler eax userSp h.machine).state, h.touched ++ (sysHandler eax userSp h.machine).log,
        match (sysHandler eax userSp h.machine).result with
        | .ok _ => none
        | .error e => some e⟩ := by
  cases e with
  | user mem mapped sharedVme stack behind kept =>
    rw [History.step] at hstep
    by_cases hstop : h.stopped = none
    · rw [if_neg (not_not.2 hstop)] at hstep
      exact Or.inl ⟨hstop, mem, mapped, sharedVme, stack, behind, kept, rfl, (Option.some.inj hstep).symm⟩
    · rw [if_pos hstop] at hstep
      cases hstep
  | call eax userSp =>
    rw [History.step] at hstep
    by_cases hstop : h.stopped = none
    · rw [if_neg (not_not.2 hstop)] at hstep
      exact Or.inr ⟨eax, userSp, rfl, (Option.some.inj hstep).symm⟩
    · rw [if_pos hstop] at hstep
      cases hstep

/-- The call that is made next, if one is, meets a condition. -/
def Asks (C : Machine → Call → Prop) (h : History) : Happening → Prop
  | .user .. => True
  | .call eax userSp => ∀ call, requested eax userSp h.machine = some call → C h.machine call

/-- A history in which no system call has been made. -/
def NewHistory (h : History) : Prop := h.touched = [] ∧ h.stopped = none

/-- **What may be touched is all that is touched**, in every run whose calls touch only what they may. -/
theorem touched_of_guarded {C : Machine → Call → Prop} (hload : ∀ a, 0x80000000 ≤ a → P (.load a))
    (hC : ∀ m call, C m call → ∀ x ∈ (handle call m).log, P x) {h : History}
    (hrun : Guarded NewHistory (fun h e h' => h.step e = some h') (Asks C) h) : ∀ x ∈ h.touched, P x := by
  refine Guarded.invariant (I := fun h => ∀ x ∈ h.touched, P x) ?_ ?_ hrun
  · rintro h ⟨h0, -⟩
    rw [h0]
    simp
  · intro h e h' _ hin hask hstep
    rcases History.step_cases hstep with ⟨-, mem, mapped, sharedVme, stack, behind, kept, rfl, rfl⟩ |
      ⟨eax, userSp, rfl, rfl⟩
    · exact hin
    · intro x hx
      rcases List.mem_append.1 hx with hx | hx
      · exact hin x hx
      · exact (sysHandler_log_iff hload).2 (fun call hcall => hC h.machine call (hask call hcall)) x hx

/-! ## The first process -/

/-- An empty file system. -/
def emptyFs : FileSystem where
  root := 2
  node := fun _ => ⟨0x4000, fun _ => 0, ⟨1024, 0, fun _ _ => 0⟩, by decide⟩
  findOne := fun _ _ => .null

/-- The first process as it starts, on an empty file system: the only pages it has are those of its stack,
    and they are zero. -/
def firstProcess : Machine where
  self := 0
  pcb := PCB.make 1 0
  files := fun r => ⟨if r = 0 then some .stdin else if r = 1 then some .stdout else some .stderr, 0⟩
  nextFile := 3
  nextSem := 0
  nextPromise := 0
  nextProc := 1
  forked := []
  vme := ((VME.new 0x80000000 0xF0000000).addEntry 134217728 none 0 false).2
  sharedVme := VME.new 0xF0000000 0xFFFFFFFF
  mem := fun _ => 0
  mapped := fun _ => false
  fs := emptyFs
  stack := fun _ _ => 0
  behind := fun _ => none
  kept := fun _ => 0

end Sys

end BadApple
