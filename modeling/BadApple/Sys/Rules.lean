/-
  Rules for what the system calls are made of: the tables of the PCB, the user's memory, open files.

  What a primitive touches is allowed if it is allowed there; if it comes back, the state is as before but
  for what it writes.
-/
import BadApple.Sys.Model

namespace BadApple

open Effects

namespace Sys

variable {m : Machine} {P : Access → Prop} {E : Stop → Machine → Prop}

theorem index_result (t : Table) (i : Nat) (m : Machine) : (index t i m).result = .ok (m.element t i) := rfl

theorem index_state (t : Table) (i : Nat) (m : Machine) : (index t i m).state = m := rfl

theorem spec_index {t : Table} {i : Nat} (h : P (.table t i)) :
    Spec P (index t i) m (fun v m' => m.element t i = v ∧ m = m') E := by
  refine Spec.bind (Spec.touch (Q := fun _ m' => m = m') h rfl) ?_
  rintro _ _ rfl
  refine Spec.bind (Spec.getState (Q := fun v m' => m = v ∧ m = m') ⟨rfl, rfl⟩) ?_
  rintro _ _ ⟨rfl, rfl⟩
  exact Spec.pure ⟨rfl, rfl⟩

theorem spec_setIndex {t : Table} {i : Nat} {v : Option Nat} (h : P (.table t i)) :
    Spec P (setIndex t i v) m (fun _ m' => m.setElement i v t = m') E := by
  refine Spec.bind (Spec.touch (Q := fun _ m' => m = m') h rfl) ?_
  rintro _ _ rfl
  exact Spec.modify rfl

theorem spec_getState : Spec P (getState : Handler Machine) m (fun v m' => m = v ∧ m = m') E :=
  Spec.getState ⟨rfl, rfl⟩

theorem spec_modify {f : Machine → Machine} : Spec P (modify f : Handler Unit) m (fun _ m' => f m = m') E :=
  Spec.modify rfl

theorem spec_loadByte {a : Nat} (h : P (.load a)) (hE : ¬ m.covered a = true → E .exits m) :
    Spec P (loadByte a) m (fun c m' => m.mem a = c ∧ m.covered a = true ∧ m = m') E := by
  refine Spec.bind (Spec.touch (Q := fun _ m' => m = m') h rfl) ?_
  rintro _ _ rfl
  refine Spec.bind spec_getState ?_
  rintro _ _ ⟨rfl, rfl⟩
  by_cases hc : m.covered a = true
  · rw [if_pos hc]
    exact Spec.pure ⟨rfl, hc, rfl⟩
  · rw [if_neg hc]
    exact Spec.stop (hE hc)

theorem spec_loadWord {a : Nat} (h : P (.load a))
    (hE : ¬ (m.covered a = true ∧ m.covered (a + 3) = true) → E .exits m) :
    Spec P (loadWord a) m
      (fun w m' => Memory.word m.mem a = w ∧ (m.covered a = true ∧ m.covered (a + 3) = true) ∧ m = m') E := by
  refine Spec.bind (Spec.touch (Q := fun _ m' => m = m') h rfl) ?_
  rintro _ _ rfl
  refine Spec.bind spec_getState ?_
  rintro _ _ ⟨rfl, rfl⟩
  by_cases hc : m.covered a = true ∧ m.covered (a + 3) = true
  · rw [if_pos hc]
    exact Spec.pure ⟨rfl, hc, rfl⟩
  · rw [if_neg hc]
    exact Spec.stop (hE hc)

theorem spec_storeWord {a w : Nat} (h : P (.store a)) (hE : E .exits m) :
    Spec P (storeWord a w) m (fun _ m' => { m with mem := Memory.setWord m.mem a w } = m') E := by
  refine Spec.bind (Spec.touch (Q := fun _ m' => m = m') h rfl) ?_
  rintro _ _ rfl
  refine Spec.bind spec_getState ?_
  rintro _ _ ⟨rfl, rfl⟩
  by_cases hc : m.covered a = true ∧ m.covered (a + 3) = true
  · rw [if_pos hc]
    exact spec_modify
  · rw [if_neg hc]
    exact Spec.stop hE

/-- Reading a string changes nothing. -/
theorem spec_loadString (h : ∀ a, P (.load a)) (hE : ∀ e, e ≠ .null → E e m) :
    ∀ (fuel a : Nat), Spec P (loadString fuel a) m (fun _ m' => m = m') E := by
  intro fuel
  induction fuel with
  | zero => exact fun _ => Spec.stop (hE _ (by simp))
  | succ fuel ih =>
    intro a
    refine Spec.bind (spec_loadByte (h a) fun _ => hE _ (by simp)) ?_
    rintro c _ ⟨-, -, rfl⟩
    by_cases hc : c = 0
    · rw [if_pos hc]
      exact Spec.pure rfl
    · rw [if_neg hc]
      refine Spec.bind (ih _) ?_
      rintro rest _ rfl
      exact Spec.pure rfl

theorem spec_loadBytes (h : ∀ a, P (.load a)) (hE : ∀ e, e ≠ .null → E e m) :
    ∀ (n a : Nat), Spec P (loadBytes n a) m (fun _ m' => m = m') E := by
  intro n
  induction n with
  | zero => exact fun _ => Spec.pure rfl
  | succ n ih =>
    intro a
    refine Spec.bind (spec_loadByte (h a) fun _ => hE _ (by simp)) ?_
    rintro _ _ ⟨-, -, rfl⟩
    exact ih _

theorem spec_find {dir : Nat} {name : List UInt8} (hE : m.fs.find m.stack dir name = .stops → E .panic m) :
    Spec P (find dir name) m (fun r m' => m.fs.find m.stack dir name = (r.elim .null .node) ∧ m = m') E := by
  refine Spec.bind spec_getState ?_
  rintro _ _ ⟨rfl, rfl⟩
  cases hf : m.fs.find m.stack dir name with
  | node n => exact Spec.pure ⟨rfl, rfl⟩
  | null => exact Spec.pure ⟨rfl, rfl⟩
  | stops => exact Spec.stop (hE hf)

theorem spec_newOpenFile {node : Option FileNode} :
    Spec P (newOpenFile node) m (fun r m' => m.nextFile = r ∧ { m with
      files := Function.update m.files m.nextFile ⟨node, 0⟩, nextFile := m.nextFile + 1 } = m') E := by
  refine Spec.bind spec_getState ?_
  rintro _ _ ⟨rfl, rfl⟩
  refine Spec.bind spec_modify ?_
  rintro _ _ rfl
  exact Spec.pure ⟨rfl, rfl⟩

theorem spec_setOffset {r offset : Nat} :
    Spec P (setOffset r offset) m (fun _ m' => { m with
      files := Function.update m.files r { m.files r with offset := offset } } = m') E :=
  spec_modify

/-- **Storing bytes** changes the memory only; it stops where an address cannot be accessed. -/
theorem spec_storeBytes_keeps : ∀ (l : List UInt8) (a : Nat) (m : Machine),
    Spec (fun _ => True) (storeBytes a l) m (fun _ m' => ∃ mem, { m with mem := mem } = m')
      fun e m' => e = .exits ∧ (∃ b, ¬ m.covered b = true) ∧ ∃ mem, { m with mem := mem } = m' := by
  intro l
  induction l with
  | nil => exact fun _ m => Spec.pure ⟨m.mem, rfl⟩
  | cons b l ih =>
    intro a m
    refine Spec.bind (Spec.touch (Q := fun _ m' => m = m') trivial rfl) ?_
    rintro _ _ rfl
    refine Spec.bind spec_getState ?_
    rintro _ _ ⟨rfl, rfl⟩
    by_cases hc : m.covered a = true
    · rw [if_pos hc]
      refine Spec.bind spec_modify ?_
      rintro _ _ rfl
      exact ih _ _
    · rw [if_neg hc]
      exact Spec.stop ⟨rfl, ⟨a, hc⟩, m.mem, rfl⟩

/-! ## What a handler touches -/

/-- All that a program touches is allowed. -/
def Logs {α : Type} (P : Access → Prop) (p : Handler α) (m : Machine) : Prop :=
  Spec P p m (fun _ _ => True) fun _ _ => True

/-- The elements of the tables are allowed. -/
def AllowsTables (P : Access → Prop) : Prop := ∀ t i, i < pcbArrSize → P (.table t i)

/-- Every access to memory is allowed. -/
def AllowsMemory (P : Access → Prop) : Prop := (∀ a, P (.load a)) ∧ ∀ a, P (.store a)

theorem Logs.bind {α β : Type} {p : Handler α} {f : α → Handler β} {Q : α → Machine → Prop}
    (hp : Spec P p m Q fun _ _ => True) (hf : ∀ a m', Q a m' → Logs P (f a) m') : Logs P (p >>= f) m :=
  Spec.bind hp hf

theorem Logs.pure {α : Type} {a : α} : Logs P (pure a) m := Spec.pure trivial

theorem Logs.stop {α : Type} {e : Stop} : Logs P (Effects.stop e : Handler α) m := Spec.stop trivial

theorem spec_userString (hM : AllowsMemory P) (p : Nat) :
    Spec P (userString p) m (fun _ m' => m = m') fun _ _ => True :=
  spec_loadString hM.1 (fun _ _ => trivial) _ _

theorem logs_storeBytes (hM : AllowsMemory P) :
    ∀ (l : List UInt8) (a : Nat) (m : Machine), Logs P (storeBytes a l) m := by
  intro l
  induction l with
  | nil => exact fun _ _ => Logs.pure
  | cons b l ih =>
    intro a m
    refine Logs.bind (Spec.touch (Q := fun _ m' => m = m') (hM.2 a) rfl) ?_
    rintro _ _ rfl
    refine Logs.bind spec_getState ?_
    rintro _ _ ⟨rfl, rfl⟩
    by_cases hc : m.covered a = true
    · rw [if_pos hc]
      exact Logs.bind spec_modify fun _ _ _ => ih _ _
    · rw [if_neg hc]
      exact Logs.stop

/-- Bytes that are stored from `a` on; the addresses wrap around. -/
theorem logs_storeBytes_at : ∀ (l : List UInt8) (a : Nat) (m : Machine), (l ≠ [] → a < 4294967296) →
    (∀ k, k < l.length → P (.store (u32 (a + k)))) → Logs P (storeBytes a l) m := by
  intro l
  induction l with
  | nil => exact fun _ _ _ _ => Logs.pure
  | cons b l ih =>
    intro a m ha hstore
    have hfirst := hstore 0 (Nat.succ_pos _)
    rw [Nat.add_zero, u32_of_lt (ha (by simp))] at hfirst
    refine Logs.bind (Spec.touch (Q := fun _ m' => m = m') hfirst rfl) ?_
    rintro _ _ rfl
    refine Logs.bind spec_getState ?_
    rintro _ _ ⟨rfl, rfl⟩
    by_cases hc : m.covered a = true
    · rw [if_pos hc]
      refine Logs.bind spec_modify fun _ _ _ => ih _ _ (fun _ => u32_lt _) ?_
      intro k hk
      rw [u32_next]
      exact hstore (k + 1) (Nat.succ_lt_succ hk)
    · rw [if_neg hc]
      exact Logs.stop

theorem logs_read (hT : AllowsTables P) (hM : AllowsMemory P) (fd buf nbyte : Nat) :
    Logs P (read fd buf nbyte) m := by
  rw [read]
  by_cases hbad : (!addressValid buf nbyte || decide (fd ≥ pcbArrSize)) = true
  · rw [if_pos hbad]
    exact Logs.pure
  · rw [if_neg hbad]
    have hfd : fd < pcbArrSize := by
      simp only [Bool.or_eq_true, decide_eq_true_eq, not_or] at hbad
      omega
    refine Logs.bind (spec_index (hT _ _ hfd)) ?_
    rintro v _ ⟨-, rfl⟩
    cases v with
    | none => exact Logs.pure
    | some r =>
      refine Logs.bind spec_getState ?_
      rintro _ _ ⟨rfl, rfl⟩
      cases (m.files r).node with
      | none => exact Logs.pure
      | some node =>
        refine Logs.bind (Q := fun _ _ => True) ?_ ?_
        · refine Logs.bind spec_getState ?_
          rintro _ _ ⟨rfl, rfl⟩
          cases node with
          | ext2 i => exact Logs.bind (logs_storeBytes hM _ _ _) fun _ _ _ => Logs.pure
          | _ => exact Logs.pure
        · exact fun _ _ _ => Logs.bind spec_setOffset fun _ _ _ => Logs.pure

theorem logs_write (hT : AllowsTables P) (hM : AllowsMemory P) (fd buf nbyte : Nat) :
    Logs P (write fd buf nbyte) m := by
  rw [write]
  by_cases hbad : (decide (nbyte ≥ 0x80000000) || !addressValid buf nbyte || decide (fd ≥ pcbArrSize)) = true
  · rw [if_pos hbad]
    exact Logs.pure
  · rw [if_neg hbad]
    have hfd : fd < pcbArrSize := by
      simp only [Bool.or_eq_true, decide_eq_true_eq, not_or] at hbad
      omega
    refine Logs.bind (spec_index (hT _ _ hfd)) ?_
    rintro v _ ⟨-, rfl⟩
    cases v with
    | none => exact Logs.pure
    | some r =>
      refine Logs.bind spec_getState ?_
      rintro _ _ ⟨rfl, rfl⟩
      cases (m.files r).node with
      | none => exact Logs.pure
      | some node =>
        refine Logs.bind (Q := fun _ _ => True) ?_ ?_
        · cases node with
          | stdout =>
            exact Logs.bind (spec_loadBytes hM.1 (fun _ _ => trivial) _ _) fun _ _ _ => Logs.pure
          | stderr =>
            exact Logs.bind (spec_loadBytes hM.1 (fun _ _ => trivial) _ _) fun _ _ _ => Logs.pure
          | _ => exact Logs.pure
        · exact fun _ _ _ => Logs.bind spec_setOffset fun _ _ _ => Logs.pure

theorem logs_openLoop (hT : AllowsTables P) (file : Nat) :
    ∀ (fuel i : Nat) (m : Machine), i + fuel = pcbArrSize → Logs P (openLoop file fuel i) m := by
  intro fuel
  induction fuel with
  | zero => exact fun _ _ _ => Logs.pure
  | succ fuel ih =>
    intro i m hi
    have hlt : i < pcbArrSize := by omega
    refine Logs.bind (spec_index (hT _ i hlt)) ?_
    rintro v _ ⟨-, rfl⟩
    cases v with
    | none => exact Logs.bind (spec_setIndex (hT _ i hlt)) fun _ _ _ => Logs.pure
    | some r => exact ih _ _ (by omega)

theorem logs_open (hT : AllowsTables P) {path : Nat}
    (hstr : ∀ pcb, Logs P (userString path) { m with pcb := pcb }) : Logs P (open_ path) m := by
  refine Logs.bind spec_getState ?_
  rintro _ _ ⟨rfl, rfl⟩
  refine Logs.bind spec_modify ?_
  rintro _ _ rfl
  refine Logs.bind (hstr _) fun _ _ _ => ?_
  refine Logs.bind (spec_find fun _ => trivial) fun _ _ _ => ?_
  refine Logs.bind spec_newOpenFile fun _ _ _ => ?_
  exact logs_openLoop hT _ _ _ _ rfl

theorem logs_len (hT : AllowsTables P) (fd : Nat) : Logs P (len fd) m := by
  rw [len]
  by_cases hfd : fd ≥ pcbArrSize
  · rw [if_pos hfd]
    exact Logs.pure
  · rw [if_neg hfd]
    refine Logs.bind (spec_index (hT _ _ (Nat.lt_of_not_le hfd))) ?_
    rintro v _ ⟨-, rfl⟩
    cases v with
    | none => exact Logs.pure
    | some r =>
      refine Logs.bind spec_getState ?_
      rintro _ _ ⟨rfl, rfl⟩
      cases (m.files r).node with
      | none => exact Logs.stop
      | some node =>
        refine Logs.bind spec_getState ?_
        rintro _ _ ⟨rfl, rfl⟩
        cases node <;> exact Logs.pure

theorem logs_close (hT : AllowsTables P) (fd : Nat) : Logs P (close fd) m := by
  rw [close]
  by_cases h1 : fd < pcbArrSize
  · rw [if_pos h1]
    exact Logs.bind (spec_setIndex (hT _ _ h1)) fun _ _ _ => Logs.pure
  · rw [if_neg h1]
    by_cases h2 : fd < pcbArrSize * 2
    · rw [if_pos h2]
      have hlt : fd - pcbArrSize < pcbArrSize := by omega
      exact Logs.bind (spec_setIndex (hT _ _ hlt)) fun _ _ _ => Logs.pure
    · rw [if_neg h2]
      by_cases h3 : fd < pcbArrSize * 3
      · rw [if_pos h3]
        have hlt : fd - pcbArrSize * 2 < pcbArrSize := by omega
        exact Logs.bind (spec_setIndex (hT _ _ hlt)) fun _ _ _ =>
          Logs.bind (spec_setIndex (hT _ _ hlt)) fun _ _ _ => Logs.pure
      · rw [if_neg h3]
        exact Logs.pure

theorem logs_seek (hT : AllowsTables P) (fd offset : Nat) : Logs P (seek fd offset) m := by
  rw [seek]
  by_cases hfd : fd ≥ pcbArrSize
  · rw [if_pos hfd]
    exact Logs.pure
  · rw [if_neg hfd]
    refine Logs.bind (spec_index (hT _ _ (Nat.lt_of_not_le hfd))) ?_
    rintro v _ ⟨-, rfl⟩
    cases v with
    | none => exact Logs.pure
    | some r => exact Logs.bind spec_setOffset fun _ _ _ => Logs.pure

theorem spec_checkArgs (hM : AllowsMemory P) (argv : Nat) : ∀ fuel argc, Spec P (checkArgs argv fuel argc) m
    (fun _ m' => m = m') fun _ _ => True := by
  intro fuel
  induction fuel with
  | zero => exact fun _ => Spec.stop trivial
  | succ fuel ih =>
    intro argc
    refine Spec.bind (spec_loadWord (hM.1 _) fun _ => trivial) ?_
    rintro arg _ ⟨-, -, rfl⟩
    by_cases h0 : arg = 0
    · rw [if_pos h0]
      exact Spec.pure rfl
    · rw [if_neg h0]
      by_cases hlow : arg < 0x80000000
      · rw [if_pos hlow]
        exact Spec.pure rfl
      · rw [if_neg hlow]
        refine Spec.bind (spec_userString hM arg) ?_
        rintro str _ rfl
        by_cases hhigh : u32 (arg + str.length) ≥ 0xF0000000
        · rw [if_pos hhigh]
          exact Spec.pure rfl
        · rw [if_neg hhigh]
          exact ih _

theorem spec_copyArgs (hM : AllowsMemory P) (argv : Nat) : ∀ n i, Spec P (copyArgs argv n i) m
    (fun _ m' => m = m') fun _ _ => True := by
  intro n
  induction n with
  | zero => exact fun _ => Spec.pure rfl
  | succ n ih =>
    intro i
    refine Spec.bind (spec_loadWord (hM.1 _) fun _ => trivial) ?_
    rintro arg _ ⟨-, -, rfl⟩
    refine Spec.bind (spec_userString hM arg) ?_
    rintro str _ rfl
    refine Spec.bind (spec_loadBytes hM.1 (fun _ _ => trivial) _ _) ?_
    rintro _ _ rfl
    refine Spec.bind (ih _) ?_
    rintro rest _ rfl
    exact Spec.pure rfl

/-- `execl` reads the path; if that is found, it checks the arguments, and copies them if they are valid. -/
theorem logs_execl {path argv : Nat} {S : List UInt8 → Prop} {R : Nat → Prop}
    (hstr : Spec P (userString path) m (fun name m' => S name ∧ m = m') fun _ _ => True)
    (hcheck : ∀ name program, S name →
      m.fs.find m.stack (m.pcb.cwd.getD m.fs.root) name = .node program →
      Spec P (checkArgs argv 4294967296 0) m (fun r m' => (∀ argc, r = some argc → R argc) ∧ m = m')
        fun _ _ => True)
    (hcopy : ∀ argc, R argc → Logs P (copyArgs argv argc 0) m) : Logs P (execl path argv) m := by
  refine Logs.bind spec_getState ?_
  rintro _ _ ⟨rfl, rfl⟩
  refine Logs.bind hstr ?_
  rintro name _ ⟨hname, rfl⟩
  refine Logs.bind (spec_find fun _ => trivial) ?_
  rintro r _ ⟨hfind, rfl⟩
  cases r with
  | none => exact Logs.pure
  | some newProgram =>
    refine Logs.bind (hcheck name newProgram hname hfind) ?_
    rintro argc _ ⟨hargc, rfl⟩
    cases argc with
    | none => exact Logs.pure
    | some argc => exact Logs.bind (hcopy argc (hargc argc rfl)) fun _ _ _ => Logs.stop

theorem logs_wait (hT : AllowsTables P) {id status : Nat}
    (hstore : id < pcbArrSize → m.pcb.childrenPromises id ≠ none → P (.store status)) :
    Logs P (wait id status) m := by
  rw [wait]
  by_cases hid : id ≥ pcbArrSize
  · rw [if_pos hid]
    exact Logs.pure
  · rw [if_neg hid]
    have hlt := Nat.lt_of_not_le hid
    refine Logs.bind (spec_index (hT _ _ hlt)) ?_
    rintro v _ ⟨hv, rfl⟩
    cases v with
    | none => exact Logs.pure
    | some promise =>
      have hpromise : m.pcb.childrenPromises id ≠ none := by
        rw [Machine.element, if_pos hlt] at hv
        rw [hv]
        simp
      refine Logs.bind (spec_index (hT _ _ hlt)) fun _ _ _ => ?_
      refine Logs.bind spec_getState fun _ _ _ => ?_
      refine Logs.bind (spec_storeWord (hstore hlt hpromise) trivial) fun _ _ _ => ?_
      refine Logs.bind (spec_setIndex (hT _ _ hlt)) fun _ _ _ => ?_
      exact Logs.bind (spec_setIndex (hT _ _ hlt)) fun _ _ _ => Logs.pure

theorem logs_chdir {path : Nat} (hstr : Logs P (userString path) m) : Logs P (chdir path) m := by
  refine Logs.bind spec_getState ?_
  rintro _ _ ⟨rfl, rfl⟩
  refine Logs.bind hstr fun _ _ _ => ?_
  refine Logs.bind (spec_find fun _ => trivial) ?_
  rintro r _ _
  cases r with
  | none => exact Logs.pure
  | some newNode => exact Logs.bind spec_modify fun _ _ _ => Logs.pure

theorem logs_useSem (hT : AllowsTables P) (id : Nat) : Logs P (useSem id) m := by
  rw [useSem]
  by_cases hid : id ≥ pcbArrSize
  · rw [if_pos hid]
    exact Logs.pure
  · rw [if_neg hid]
    have hlt := Nat.lt_of_not_le hid
    refine Logs.bind (spec_index (hT _ _ hlt)) ?_
    rintro v _ ⟨-, rfl⟩
    cases v with
    | none => exact Logs.pure
    | some s => exact Logs.bind (spec_index (hT _ _ hlt)) fun _ _ _ => Logs.pure

theorem logs_childLoop (hA : ∀ t i, P (.table t i)) :
    ∀ (fuel childIdx : Nat), Logs P (childLoop fuel childIdx) m := by
  intro fuel
  induction fuel with
  | zero => exact fun _ => Logs.pure
  | succ fuel ih =>
    intro childIdx
    refine Logs.bind (spec_index (hA _ _)) ?_
    rintro v _ ⟨-, rfl⟩
    cases v with
    | none => exact ih _
    | some c => exact Logs.pure

theorem logs_copyLoop (hA : ∀ t i, P (.table t i)) (t : Table) : ∀ (n i : Nat) (m : Machine),
    Logs P (copyLoop t n i) m := by
  intro n
  induction n with
  | zero => exact fun _ _ => Logs.pure
  | succ n ih => exact fun i m => Logs.bind (spec_index (hA _ _)) fun _ _ _ => ih _ _

/-- `fork` touches tables only. -/
theorem logs_fork (hA : ∀ t i, P (.table t i)) : Logs P fork m := by
  refine Logs.bind (logs_childLoop hA _ _) fun childIdx m _ => ?_
  refine Logs.bind spec_getState fun _ m _ => ?_
  refine Logs.bind (spec_setIndex (hA _ _)) fun _ m _ => ?_
  by_cases h : childIdx < pcbArrSize
  · rw [if_pos h]
    refine Logs.bind (logs_copyLoop hA _ _ _ _) fun _ m _ => ?_
    refine Logs.bind (logs_copyLoop hA _ _ _ _) fun _ m _ => ?_
    refine Logs.bind (spec_setIndex (hA _ _)) fun _ m _ => ?_
    refine Logs.bind (spec_index (hA _ _)) fun _ m _ => ?_
    exact Logs.bind spec_modify fun _ _ _ => Logs.pure
  · rw [if_neg h]
    exact Logs.stop

theorem logs_semLoop (hA : ∀ t i, P (.table t i)) : ∀ (fuel id : Nat), Logs P (semLoop fuel id) m := by
  intro fuel
  induction fuel with
  | zero => exact fun _ => Logs.bind (spec_index (hA _ _)) fun _ _ _ => Logs.pure
  | succ fuel ih =>
    intro id
    refine Logs.bind (spec_index (hA _ _)) ?_
    rintro v _ ⟨-, rfl⟩
    cases v with
    | none => exact Logs.pure
    | some s => exact ih _

/-- `sem` touches tables only. -/
theorem logs_sem (hA : ∀ t i, P (.table t i)) : Logs P sem m := by
  refine Logs.bind (logs_semLoop hA _ _) fun id m _ => ?_
  by_cases h : id = pcbArrSize
  · rw [if_pos h]
    exact Logs.pure
  · rw [if_neg h]
    refine Logs.bind spec_getState fun _ m _ => ?_
    refine Logs.bind spec_modify fun _ m _ => ?_
    exact Logs.bind (spec_setIndex (hA _ _)) fun _ _ _ => Logs.pure

/-- `mmap` touches the descriptor it is given. -/
theorem logs_naiveMmap {size file offset : Nat} {isShared : Bool} (h : P (.table .fdt file)) :
    Logs P (naiveMmap size isShared file offset) m := by
  refine Logs.bind (spec_index h) fun v m _ => ?_
  by_cases hfile : file < pcbArrSize
  · rw [if_pos hfile]
    refine Logs.bind spec_getState fun _ m _ => ?_
    cases isShared with
    | true => exact Logs.bind spec_modify fun _ _ _ => Logs.pure
    | false => exact Logs.bind spec_modify fun _ _ _ => Logs.pure
  · rw [if_neg hfile]
    exact Logs.stop

theorem logs_naiveUnmap (p : Nat) : Logs P (naiveUnmap p) m := by
  rw [naiveUnmap]
  by_cases hp : p < 0xF0000000
  · rw [if_pos hp]
    exact Spec.modify trivial
  · rw [if_neg hp]
    exact Logs.pure

end Sys

end BadApple
