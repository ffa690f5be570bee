/-
  The descriptor table: `open`, and what the calls on descriptors keep (kernel/sys.cc).

  1. **Specification** — `OpenSpec`: `open` fails and leaves the table alone when the path is not resolved or
     no descriptor is free, and else puts a new open file on the node found into the first free one.
     `NodesPresent`: every descriptor that is not null refers to an open file that has a node.
  2. **The defect** — `open` does not test what `find` returns, and installs an open file without a node.
     `read` and `write` test for it, `len` does not, and panics.
  3. **The results** — `openSpec_iff`: `open` does what it is to do exactly if the path resolves or no
     descriptor is free.  `descriptors_iff`: so all nodes stay present, and no null pointer is ever used,
     in every run in which that holds of each `open`.
-/
import BadApple.Sys.Strings
import BadApple.Sys.Runs

namespace BadApple

open Effects

open Function (update)

open Runs (Guarded)

namespace Sys

variable {m m' m'' : Machine} {P : Access → Prop} {path i : Nat}

/-! ## Specification -/

/-- No descriptor is free. -/
def Full (m : Machine) : Prop := ∀ i, i < pcbArrSize → m.pcb.fdt i ≠ none

/-- Descriptor `i` is the first that is free. -/
def FirstFree (m : Machine) (i : Nat) : Prop :=
  i < pcbArrSize ∧ m.pcb.fdt i = none ∧ ∀ j, j < i → m.pcb.fdt j ≠ none

/-- What `open` is to do.  The open file that it makes is a new one: those that there are have the numbers
    below `nextFile`. -/
def OpenSpec (m : Machine) (path : Nat) : Prop :=
  (Looked m path .null ∨ (∃ node, Looked m path (.node node)) ∧ Full m →
    (open_ path m).result = .ok minusOne ∧ (open_ path m).state.pcb.fdt = m.pcb.fdt) ∧
  ∀ node i, Looked m path (.node node) → FirstFree m i →
    (open_ path m).result = .ok i ∧ ∃ r, m.nextFile ≤ r ∧
      (open_ path m).state.pcb.fdt = update m.pcb.fdt i (some r) ∧
      (open_ path m).state.files = update m.files r ⟨some (.ext2 node), 0⟩

/-- Every descriptor that is not null refers to an open file that has a node. -/
def NodesPresent (m : Machine) : Prop :=
  ∀ i, i < pcbArrSize → ∀ r, m.pcb.fdt i = some r → r < m.nextFile ∧ (m.files r).node ≠ none

/-- **The condition** on `open`, among the calls on descriptors. -/
def OpensFit (m : Machine) : Call → Prop
  | .open_ path => Looked m path .null → Full m
  | .close _ => True
  | .read _ _ _ => True
  | .write _ _ _ => True
  | .len _ => True
  | .seek _ _ => True
  | _ => False

/-! ## `open` -/

theorem FirstFree.not_full (h : FirstFree m i) : ¬ Full m := fun hfull => hfull i h.1 h.2.1

theorem FirstFree.unique {j : Nat} (h : FirstFree m i) (h' : FirstFree m j) : i = j := by
  rcases Nat.lt_trichotomy i j with hlt | heq | hgt
  · exact absurd h.2.1 (h'.2.2 i hlt)
  · exact heq
  · exact absurd h'.2.1 (h.2.2 j hgt)

/-- The loop finds the first free descriptor, or none. -/
theorem spec_openLoop {E : Stop → Machine → Prop} (hT : AllowsTables P) (file : Nat) : ∀ (fuel i : Nat),
    i + fuel = pcbArrSize → (∀ j, j < i → m.pcb.fdt j ≠ none) →
    Spec P (openLoop file fuel i) m (fun v m' => (FirstFree m v ∧ m.setElement v (some file) .fdt = m') ∨
      ((v = minusOne ∧ Full m) ∧ m = m')) E := by
  intro fuel
  induction fuel with
  | zero =>
    intro i hi hbelow
    refine Spec.pure (Or.inr ⟨⟨rfl, ?_⟩, rfl⟩)
    exact fun j hj => hbelow j (by omega)
  | succ fuel ih =>
    intro i hi hbelow
    have hlt : i < pcbArrSize := by omega
    refine Spec.bind (spec_index (hT _ i hlt)) ?_
    rintro v _ ⟨hv, rfl⟩
    rw [Machine.element, if_pos hlt] at hv
    cases v with
    | none =>
      refine Spec.bind (spec_setIndex (hT _ i hlt)) ?_
      rintro _ _ rfl
      exact Spec.pure (Or.inl ⟨⟨hlt, hv, hbelow⟩, rfl⟩)
    | some r =>
      refine ih (i + 1) (by omega) ?_
      intro j hj
      by_cases hji : j = i
      · rw [hji, hv]
        simp
      · exact hbelow j (by omega)

/-- How `open` leaves the machine: the new open file, and where it is. -/
def Opened (m : Machine) (node : Option Nat) (v : Nat) (m' : Machine) : Prop :=
  (m'.nextFile = m.nextFile + 1 ∧ m'.files = update m.files m.nextFile ⟨node.map .ext2, 0⟩) ∧
  ((FirstFree m v ∧ m'.pcb.fdt = update m.pcb.fdt v (some m.nextFile)) ∨
    ((v = minusOne ∧ Full m) ∧ m'.pcb.fdt = m.pcb.fdt))

/-- What a call leaves as it was, as far as the nodes of open files are concerned. -/
def SameNodes (m m' : Machine) : Prop :=
  m'.pcb.fdt = m.pcb.fdt ∧ m'.nextFile = m.nextFile ∧ ∀ r, (m'.files r).node = (m.files r).node

theorem SameNodes.refl (m : Machine) : SameNodes m m := ⟨rfl, rfl, fun _ => rfl⟩

theorem SameNodes.trans (h : SameNodes m m') (h' : SameNodes m' m'') : SameNodes m m'' :=
  ⟨h'.1.trans h.1, h'.2.1.trans h.2.1, fun r => (h'.2.2 r).trans (h.2.2 r)⟩

/-- **`open`** comes back if the path can be looked up, with an open file on whatever was found. -/
theorem spec_open (hT : AllowsTables P) (hload : ∀ a, P (.load a)) (hpath : path < 4294967296) :
    Spec P (open_ path) m
      (fun v m' => ∃ node : Option Nat, Looked m path (node.elim .null .node) ∧ Opened m node v m')
      fun e m' => (∀ node : Option Nat, ¬ Looked m path (node.elim .null .node)) ∧ e ≠ .null ∧
        SameNodes m m' := by
  refine Spec.bind spec_getState ?_
  rintro _ _ ⟨rfl, rfl⟩
  refine Spec.bind spec_modify ?_
  rintro _ _ rfl
  refine Spec.bind (((spec_userString_eq hload hpath).and (spec_loadString (E := fun e _ => e ≠ .null)
    hload (fun _ h => h) _ _)).mono (fun _ h => h.1) (fun _ _ h => h) ?_) ?_
  · rintro e _ ⟨⟨hnot, rfl⟩, hnull⟩
    refine ⟨?_, hnull, SameNodes.refl m⟩
    rintro node ⟨n, hn, -⟩
    exact hnot n hn
  · rintro name _ ⟨⟨⟨hat, hname⟩, rfl⟩, -⟩
    have hlooked : ∀ l, m.fs.find m.stack (m.pcb.cwd.getD m.fs.root) name = l → Looked m path l := by
      intro l hl
      refine ⟨name.length, hat, ?_⟩
      rw [show bytesAt m path name.length = name from hname.symm]
      exact hl
    refine Spec.bind (spec_find ?_) ?_
    · intro hstops
      refine ⟨?_, by simp, SameNodes.refl m⟩
      intro node hnode
      cases node with
      | none => exact Lookup.noConfusion (hnode.unique (hlooked _ hstops))
      | some n => exact Lookup.noConfusion (hnode.unique (hlooked _ hstops))
    · rintro node _ ⟨hfind, rfl⟩
      refine Spec.bind spec_newOpenFile ?_
      rintro _ _ ⟨rfl, rfl⟩
      refine (spec_openLoop hT m.nextFile _ 0 rfl ?_).mono (fun _ h => h) ?_ (fun _ _ h => h)
      · exact fun j hj => absurd hj (Nat.not_lt_zero j)
      · rintro v _ (⟨hfree, rfl⟩ | ⟨hfull, rfl⟩)
        · exact ⟨node, hlooked _ hfind, ⟨rfl, rfl⟩, Or.inl ⟨hfree, rfl⟩⟩
        · exact ⟨node, hlooked _ hfind, ⟨rfl, rfl⟩, Or.inr ⟨hfull, rfl⟩⟩

/-- What `open` comes to, when the path can be looked up. -/
theorem open_of_looked (node : Option Nat) (hpath : path < 4294967296)
    (h : Looked m path (node.elim .null .node)) :
    ∃ v, (open_ path m).result = .ok v ∧ Opened m node v (open_ path m).state := by
  have hspec : Spec (fun _ => True) (open_ path) m (fun v m' => Opened m node v m') fun _ _ => False := by
    refine (spec_open (fun _ _ _ => trivial) (fun _ => trivial) hpath).mono (fun _ h => h) ?_ ?_
    · rintro v m' ⟨node', hlooked, hopened⟩
      have hsame := hlooked.unique h
      cases node' <;> cases node <;> first
        | exact Lookup.noConfusion hsame
        | skip
      · exact hopened
      · obtain rfl := Lookup.node.inj hsame
        exact hopened
    · rintro _ _ ⟨hnot, -⟩
      exact hnot node h
  exact hspec.returns

/-- **`open` does what it is to do** exactly if the path resolves or no descriptor is free. -/
theorem openSpec_iff (hpath : path < 4294967296) : OpenSpec m path ↔ (Looked m path .null → Full m) := by
  constructor
  · rintro ⟨hfails, -⟩ hnull
    obtain ⟨hres, -⟩ := hfails (Or.inl hnull)
    obtain ⟨v, hv, -, hopened⟩ := open_of_looked none hpath hnull
    rw [hres] at hv
    obtain rfl := Except.ok.inj hv
    rcases hopened with ⟨hfree, -⟩ | ⟨⟨-, hfull⟩, -⟩
    · exact absurd hfree.1 (by decide)
    · exact hfull
  · intro hfit
    constructor
    · intro hfails
      have hlooked : Full m ∧ ∃ node : Option Nat, Looked m path (node.elim .null .node) := by
        rcases hfails with hnull | ⟨⟨node, hnode⟩, hfull⟩
        · exact ⟨hfit hnull, none, hnull⟩
        · exact ⟨hfull, some node, hnode⟩
      obtain ⟨hfull, node, hnode⟩ := hlooked
      obtain ⟨v, hv, -, hopened⟩ := open_of_looked node hpath hnode
      rcases hopened with ⟨hfree, -⟩ | ⟨⟨rfl, -⟩, hfdt⟩
      · exact absurd hfull hfree.not_full
      · exact ⟨hv, hfdt⟩
    · intro node i hnode hfree
      obtain ⟨v, hv, ⟨-, hfiles⟩, hopened⟩ := open_of_looked (some node) hpath hnode
      rcases hopened with ⟨hfree', hfdt⟩ | ⟨⟨-, hfull⟩, -⟩
      · obtain rfl := hfree.unique hfree'
        exact ⟨hv, m.nextFile, Nat.le_refl _, hfdt, hfiles⟩
      · exact absurd hfull hfree.not_full

/-! ## Calls on descriptors -/

theorem NodesPresent.same (h : NodesPresent m) (hs : SameNodes m m') : NodesPresent m' := by
  obtain ⟨hfdt, hnext, hnode⟩ := hs
  intro i hi r hr
  rw [hfdt] at hr
  rw [hnext, hnode]
  exact h i hi r hr

/-- What `open` leaves, if it found a node or there was no descriptor free. -/
theorem NodesPresent.opened {node : Option Nat} {v : Nat} (h : NodesPresent m) (hfit : node = none → Full m)
    (ho : Opened m node v m') : NodesPresent m' := by
  obtain ⟨⟨hnext, hfiles⟩, hfdt⟩ := ho
  have hold : ∀ r, r < m.nextFile → m'.files r = m.files r := by
    intro r hr
    rw [hfiles, Function.update_of_ne (Nat.ne_of_lt hr)]
  intro i hi r hr
  have hkept : m.pcb.fdt i = some r → r < m'.nextFile ∧ (m'.files r).node ≠ none := by
    intro hir
    obtain ⟨hlt, hnode⟩ := h i hi r hir
    rw [hold r hlt]
    exact ⟨by omega, hnode⟩
  rcases hfdt with ⟨hfree, hfdt⟩ | ⟨-, hfdt⟩
  · rw [hfdt] at hr
    by_cases hiv : i = v
    · rw [hiv, Function.update_self] at hr
      obtain rfl := Option.some.inj hr
      refine ⟨by omega, ?_⟩
      rw [hfiles, Function.update_self]
      cases node with
      | none => exact absurd (hfit rfl) hfree.not_full
      | some n => simp
    · rw [Function.update_of_ne hiv] at hr
      exact hkept hr
  · rw [hfdt] at hr
    exact hkept hr

/-- A call keeps the nodes present and uses no null pointer. -/
def Safe {α : Type} (p : Handler α) (m : Machine) : Prop :=
  Spec (fun _ => True) p m (fun _ m' => NodesPresent m') fun e m' => e ≠ .null ∧ NodesPresent m'

theorem Safe.of_same {α : Type} {p : Handler α} (h : NodesPresent m)
    (hp : Spec (fun _ => True) p m (fun _ m' => SameNodes m m') fun e m' => e ≠ .null ∧ SameNodes m m') :
    Safe p m :=
  hp.mono (fun _ h => h) (fun _ _ hs => h.same hs) fun _ _ he => ⟨he.1, h.same he.2⟩

theorem spec_storeBytes_same (l : List UInt8) (a : Nat) (m : Machine) : Spec (fun _ => True)
    (storeBytes a l) m (fun _ m' => SameNodes m m') fun e m' => e ≠ .null ∧ SameNodes m m' := by
  refine (spec_storeBytes_keeps l a m).mono (fun _ h => h) ?_ ?_
  · rintro _ _ ⟨mem, rfl⟩
    exact SameNodes.refl m
  · rintro _ _ ⟨rfl, -, mem, rfl⟩
    exact ⟨by simp, SameNodes.refl m⟩

theorem spec_setOffset_same {r offset : Nat} {E : Stop → Machine → Prop} :
    Spec P (setOffset r offset) m (fun _ m' => SameNodes m m') E := by
  refine Spec.modify ⟨rfl, rfl, ?_⟩
  intro q
  show (update m.files r { m.files r with offset := offset } q).node = (m.files q).node
  by_cases hq : q = r
  · rw [hq, Function.update_self]
  · rw [Function.update_of_ne hq]

theorem safe_read {fd buf nbyte : Nat} (h : NodesPresent m) : Safe (read fd buf nbyte) m := by
  refine Safe.of_same h ?_
  rw [read]
  by_cases hbad : (!addressValid buf nbyte || decide (fd ≥ pcbArrSize)) = true
  · rw [if_pos hbad]
    exact Spec.pure (SameNodes.refl m)
  · rw [if_neg hbad]
    refine Spec.bind (spec_index trivial) ?_
    rintro v _ ⟨-, rfl⟩
    cases v with
    | none => exact Spec.pure (SameNodes.refl m)
    | some r =>
      refine Spec.bind spec_getState ?_
      rintro _ _ ⟨rfl, rfl⟩
      cases (m.files r).node with
      | none => exact Spec.pure (SameNodes.refl m)
      | some node =>
        refine Spec.bind (Q := fun _ m' => SameNodes m m') ?_ ?_
        · refine Spec.bind spec_getState ?_
          rintro _ _ ⟨rfl, rfl⟩
          cases node with
          | ext2 n => exact Spec.bind (spec_storeBytes_same _ _ _) fun _ _ hs => Spec.pure hs
          | _ => exact Spec.pure (SameNodes.refl m)
        · intro n m' hs
          exact Spec.bind spec_setOffset_same fun _ _ hs' => Spec.pure (hs.trans hs')

theorem safe_write {fd buf nbyte : Nat} (h : NodesPresent m) : Safe (write fd buf nbyte) m := by
  refine Safe.of_same h ?_
  rw [write]
  by_cases hbad : (decide (nbyte ≥ 0x80000000) || !addressValid buf nbyte || decide (fd ≥ pcbArrSize)) = true
  · rw [if_pos hbad]
    exact Spec.pure (SameNodes.refl m)
  · rw [if_neg hbad]
    refine Spec.bind (spec_index trivial) ?_
    rintro v _ ⟨-, rfl⟩
    cases v with
    | none => exact Spec.pure (SameNodes.refl m)
    | some r =>
      refine Spec.bind spec_getState ?_
      rintro _ _ ⟨rfl, rfl⟩
      cases (m.files r).node with
      | none => exact Spec.pure (SameNodes.refl m)
      | some node =>
        have hload : Spec (fun _ => True) (loadBytes nbyte buf) m (fun _ m' => m = m')
            fun e m' => e ≠ .null ∧ SameNodes m m' :=
          spec_loadBytes (fun _ => trivial) (fun _ he => ⟨he, SameNodes.refl m⟩) _ _
        refine Spec.bind (Q := fun _ m' => m = m') ?_ ?_
        · cases node with
          | stdout => exact Spec.bind hload fun _ _ hm => Spec.pure hm
          | stderr => exact Spec.bind hload fun _ _ hm => Spec.pure hm
          | _ => exact Spec.pure rfl
        · rintro n _ rfl
          exact Spec.bind spec_setOffset_same fun _ _ hs => Spec.pure hs

/-- `len` panics on a node that is null; there is none. -/
theorem safe_len {fd : Nat} (h : NodesPresent m) : Safe (len fd) m := by
  rw [len]
  by_cases hfd : fd ≥ pcbArrSize
  · rw [if_pos hfd]
    exact Spec.pure h
  · rw [if_neg hfd]
    refine Spec.bind (spec_index trivial) ?_
    rintro v _ ⟨hv, rfl⟩
    rw [Machine.element, if_pos (Nat.lt_of_not_le hfd)] at hv
    cases v with
    | none => exact Spec.pure h
    | some r =>
      refine Spec.bind spec_getState ?_
      rintro _ _ ⟨rfl, rfl⟩
      have hnode := (h fd (Nat.lt_of_not_le hfd) r hv).2
      cases hn : (m.files r).node with
      | none => exact absurd hn hnode
      | some node =>
        refine Spec.bind spec_getState ?_
        rintro _ _ ⟨rfl, rfl⟩
        cases node <;> exact Spec.pure h

theorem safe_seek {fd offset : Nat} (h : NodesPresent m) : Safe (seek fd offset) m := by
  refine Safe.of_same h ?_
  rw [seek]
  by_cases hfd : fd ≥ pcbArrSize
  · rw [if_pos hfd]
    exact Spec.pure (SameNodes.refl m)
  · rw [if_neg hfd]
    refine Spec.bind (spec_index trivial) ?_
    rintro v _ ⟨-, rfl⟩
    cases v with
    | none => exact Spec.pure (SameNodes.refl m)
    | some r => exact Spec.bind spec_setOffset_same fun _ _ hs => Spec.pure hs

/-- Dropping a descriptor, or anything of another table, loses no node. -/
theorem NodesPresent.setElement {t : Table} {j : Nat} (h : NodesPresent m) :
    NodesPresent (m.setElement j none t) := by
  cases t with
  | fdt =>
    intro i hi r hr
    replace hr : update m.pcb.fdt j none i = some r := hr
    by_cases hij : i = j
    · rw [hij, Function.update_self] at hr
      cases hr
    · rw [Function.update_of_ne hij] at hr
      exact h i hi r hr
  | _ => exact h.same ⟨rfl, rfl, fun _ => rfl⟩

theorem safe_close {fd : Nat} (h : NodesPresent m) : Safe (close fd) m := by
  have hset : ∀ {m : Machine} {t : Table} {j : Nat} {E : Stop → Machine → Prop}, NodesPresent m →
      Spec (fun _ => True) (setIndex t j none) m (fun _ m' => NodesPresent m') E := by
    intro m t j E hm
    refine (spec_setIndex trivial).mono (fun _ h => h) ?_ (fun _ _ h => h)
    rintro _ _ rfl
    exact hm.setElement
  rw [close]
  by_cases h1 : fd < pcbArrSize
  · rw [if_pos h1]
    exact Spec.bind (hset h) fun _ _ hm => Spec.pure hm
  · rw [if_neg h1]
    by_cases h2 : fd < pcbArrSize * 2
    · rw [if_pos h2]
      exact Spec.bind (hset h) fun _ _ hm => Spec.pure hm
    · rw [if_neg h2]
      by_cases h3 : fd < pcbArrSize * 3
      · rw [if_pos h3]
        exact Spec.bind (hset h) fun _ _ hm => Spec.bind (hset hm) fun _ _ hm' => Spec.pure hm'
      · rw [if_neg h3]
        exact Spec.pure h

theorem safe_open (h : NodesPresent m) (hpath : path < 4294967296) (hfit : Looked m path .null → Full m) :
    Safe (open_ path) m := by
  refine (spec_open (fun _ _ _ => trivial) (fun _ => trivial) hpath).mono (fun _ h => h) ?_ ?_
  · rintro v m' ⟨node, hnode, hopened⟩
    refine h.opened ?_ hopened
    rintro rfl
    exact hfit hnode
  · rintro e m' ⟨-, hnull, hs⟩
    exact ⟨hnull, h.same hs⟩

/-- **Each call on descriptors** that meets the condition keeps the nodes present. -/
theorem safe_handle {eax : Nat} {call : Call} (h : NodesPresent m) (hfrom : FromStack eax call)
    (hfit : OpensFit m call) : Safe (handle call) m := by
  cases call with
  | open_ path => exact safe_open h hfrom hfit
  | close fd => exact safe_close h
  | read fd buf nbyte => exact safe_read h
  | write fd buf nbyte => exact safe_write h
  | len fd => exact safe_len h
  | seek fd offset => exact safe_seek h
  | _ => exact hfit.elim

/-- An interrupt too, whatever the user's stack. -/
theorem safe_sysHandler {eax userSp : Nat} (h : NodesPresent m)
    (hfit : ∀ call, requested eax userSp m = some call → OpensFit m call) :
    Safe (sysHandler eax userSp) m := by
  cases hreq : requested eax userSp m with
  | none =>
    refine (sysHandler_of_not_requested (P := fun _ => True) (fun _ _ => trivial) hreq).mono (fun _ h => h) ?_ ?_
    · exact fun _ _ hfalse => hfalse.elim
    · rintro e _ ⟨hnull, rfl⟩
      exact ⟨hnull, h⟩
  | some call =>
    have hcall := safe_handle h (requested_some hreq).2.2.2 (hfit call hreq)
    have hrun := sysHandler_of_requested hreq
    refine ⟨fun _ _ => trivial, ?_, ?_⟩
    · rw [hrun]
      exact hcall.ok
    · rw [hrun]
      exact hcall.error

/-! ## The results -/

/-- A process as it is made: three descriptors, for the terminal. -/
def NewProcess (m : Machine) : Prop :=
  ∃ pcbId f, m.pcb.fdt = (PCB.make pcbId f).fdt ∧ f + 3 ≤ m.nextFile ∧
    m.files f = ⟨some .stdin, 0⟩ ∧ m.files (f + 1) = ⟨some .stdout, 0⟩ ∧ m.files (f + 2) = ⟨some .stderr, 0⟩

theorem nodesPresent_of_new (h : NewProcess m) : NodesPresent m := by
  obtain ⟨pcbId, f, hfdt, hnext, h0, h1, h2⟩ := h
  intro i _ r hr
  rw [hfdt] at hr
  replace hr : (if i < 3 then some (f + i) else none) = some r := hr
  by_cases hi : i < 3
  · rw [if_pos hi] at hr
    obtain rfl := Option.some.inj hr
    refine ⟨by omega, ?_⟩
    obtain rfl | rfl | rfl : i = 0 ∨ i = 1 ∨ i = 2 := by omega
    · simp [h0]
    · simp [h1]
    · simp [h2]
  · rw [if_neg hi] at hr
    cases hr

/-- **`open` does what it is to do exactly if the path resolves or no descriptor is free; and in a run of
    calls on descriptors in which that holds of each `open`, every descriptor always has a node, and no null
    pointer is ever used.** -/
theorem descriptors_iff (m : Machine) (hpath : path < 4294967296) :
    (OpenSpec m path ↔ (Looked m path .null → Full m)) ∧ (NewProcess m → NodesPresent m) ∧
    ∀ h, Guarded (fun h => NewHistory h ∧ NodesPresent h.machine) (fun h e h' => h.step e = some h')
      (Asks OpensFit) h → NodesPresent h.machine ∧ h.stopped ≠ some .null := by
  refine ⟨openSpec_iff hpath, nodesPresent_of_new, ?_⟩
  intro h hrun
  refine Guarded.invariant (I := fun h => NodesPresent h.machine ∧ h.stopped ≠ some .null) ?_ ?_ hrun
  · rintro h ⟨⟨-, hstop⟩, hnodes⟩
    refine ⟨hnodes, ?_⟩
    rw [hstop]
    simp
  · rintro h e h' - ⟨hnodes, -⟩ hask hstep
    rcases History.step_cases hstep with ⟨hstop, mem, mapped, sharedVme, stack, behind, kept, rfl, rfl⟩ |
      ⟨eax, userSp, rfl, rfl⟩
    · refine ⟨hnodes.same ⟨rfl, rfl, fun _ => rfl⟩, ?_⟩
      show h.stopped ≠ _
      rw [hstop]
      simp
    · have hsafe := safe_sysHandler hnodes hask
      cases hres : (sysHandler eax userSp h.machine).result with
      | ok v => exact ⟨hsafe.ok v hres, nofun⟩
      | error e =>
        obtain ⟨hnull, hnodes'⟩ := hsafe.error e hres
        refine ⟨hnodes', ?_⟩
        rintro heq
        exact hnull (Option.some.inj heq)

/-- The first process opens the empty path, its root; and it asks for the length of its standard input. -/
theorem descriptors_iff_emptyPath :
    OpenSpec firstProcess 0x87FFFF00 ∧ NodesPresent firstProcess ∧
    NodesPresent (sysHandler 11 0x87FFFFF0 firstProcess).state := by
  have hroot : Looked firstProcess 0x87FFFF00 (.node 2) := by
    refine ⟨0, ⟨fun k hk => absurd hk (Nat.not_lt_zero k), by decide +kernel⟩, ?_⟩
    show (emptyFs.findLoop (fun _ _ => 0) 0 2 (Path.parse [])).2 = .node 2
    rw [show Path.parse [] = [] from rfl, FileSystem.findLoop]
  obtain ⟨hopen, hnodes, hruns⟩ := descriptors_iff firstProcess (show 0x87FFFF00 < 4294967296 by decide)
  have hnew : NodesPresent firstProcess := hnodes ⟨1, 0, rfl, by decide, rfl, rfl, rfl⟩
  refine ⟨hopen.2 fun hnull => Lookup.noConfusion (hnull.unique hroot), hnew, ?_⟩
  have hlen : requested 11 0x87FFFFF0 firstProcess = some (.len 0) := by decide +kernel
  have hask : Asks OpensFit ⟨firstProcess, [], none⟩ (.call 11 0x87FFFFF0) := by
    intro call hcall
    rw [hlen] at hcall
    obtain rfl := Option.some.inj hcall
    trivial
  exact (hruns _ ((Guarded.start ⟨⟨rfl, rfl⟩, hnew⟩).next hask rfl)).1

/-- An `open` that fails is paid for by the next `len`, which panics. -/
theorem len_of_open_null (hpath : path < 4294967296) (hnull : Looked m path .null) (hfree : FirstFree m i) :
    (len i (open_ path m).state).result = .error .null := by
  obtain ⟨v, -, ⟨-, hfiles⟩, hopened⟩ := open_of_looked none hpath hnull
  rcases hopened with ⟨hfree', hfdt⟩ | ⟨⟨-, hfull⟩, -⟩
  · obtain rfl := hfree.unique hfree'
    generalize (open_ path m).state = m' at hfiles hfdt
    have helem : m'.element .fdt i = some m.nextFile := by
      rw [Machine.element, if_pos hfree.1, hfdt, Function.update_self]
    have hnode : (m'.files m.nextFile).node = none := by
      rw [hfiles, Function.update_self]
      rfl
    rw [len, if_neg (Nat.not_le.2 hfree.1), bind_run, Run.andThen, index_result, helem]
    simp only [bind_run, Run.andThen, getState_run, index_state, hnode, stop_run]
  · exact absurd hfull hfree.not_full

/-- The first process with the path `x` at 0x87FFFF00; there is no such file. -/
def pathProcess : Machine := { firstProcess with mem := fun a => if a = 0x87FFFF00 then 120 else 0 }

/-- `open` of a path that does not exist returns descriptor 3, and its `len` panics. -/
theorem open_installsNull :
    ¬ OpenSpec pathProcess 0x87FFFF00 ∧
    (len 3 (open_ 0x87FFFF00 pathProcess).state).result = .error .null := by
  have hstr : StringAt pathProcess 0x87FFFF00 1 := by
    refine ⟨?_, by decide +kernel⟩
    intro k hk
    obtain rfl : k = 0 := by omega
    decide +kernel
  have hnull : Looked pathProcess 0x87FFFF00 .null := by
    refine ⟨1, hstr, ?_⟩
    show emptyFs.find (fun _ _ => 0) 2 (bytesAt pathProcess 0x87FFFF00 1) = .null
    rw [show bytesAt pathProcess 0x87FFFF00 1 = [120] by decide +kernel, FileSystem.find, FileSystem.findLinks,
      show Path.parse [120] = [[120]] from rfl, FileSystem.findLoop]
    rfl
  have hfree : FirstFree pathProcess 3 := by
    refine ⟨by decide, rfl, ?_⟩
    intro j hj
    have hthree : firstProcess.pcb.fdt j = some (0 + j) := if_pos hj
    exact ne_of_eq_of_ne hthree (Option.some_ne_none _)
  refine ⟨?_, len_of_open_null (by decide) hnull hfree⟩
  rw [openSpec_iff (by decide)]
  exact fun h => hfree.not_full (h hnull)

end Sys

end BadApple
