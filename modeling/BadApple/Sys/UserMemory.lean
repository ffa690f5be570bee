/-
  The user's pointers: what the system calls do with them (kernel/sys.cc).

  1. **Specification** — a call touches, through the pointers it is given, nothing below the user's memory
     (`AboveKernel`); and if it is given one that lies there (`GivenLow`), it returns -1 and changes
     nothing.
  2. **The defect** — only `read`, `write` and the arguments of `execl` are checked.  `wait` stores through
     any pointer, and the path of `open`, `chdir` and `execl` is read wherever it is.  The array of
     arguments and the strings are read on at 0 when they run over the end of the address space.
  3. **The result** — `guardsPointers_iff`: calls other than `read` and `write` keep to that exactly if the
     pointers given fit (`PointersFit`).
-/
import BadApple.Sys.Arguments
import BadApple.Sys.Runs

namespace BadApple

open Effects

namespace Sys

variable {m : Machine} {P : Access → Prop} {path argv id status : Nat}

/-! ## Specification -/

/-- The arguments that `execl` is given come to one below the user's memory. -/
def LowArgument (m : Machine) (argv : Nat) : Prop :=
  ∃ argc, (∀ i, i ≤ argc → argv + 4 * i < 4294967296 ∧ WordAt m (argv + 4 * i) ∧ argWord m argv i ≠ 0) ∧
    argWord m argv argc < 0x80000000

/-- A call is given a pointer below the user's memory, to be used. -/
def GivenLow (m : Machine) : Call → Prop
  | .wait _ status => status < 0x80000000
  | .open_ path => path < 0x80000000
  | .chdir path => path < 0x80000000
  | .execl path argv => path < 0x80000000 ∨ LowArgument m argv
  | _ => False

/-- `execl` comes to return -1. -/
def Rejected (m : Machine) (path argv : Nat) : Prop :=
  Looked m path .null ∨ (∃ program, Looked m path (.node program)) ∧ Refused m argv

/-- **The condition** on the pointers of a call.  For `execl`: the path is the user's, and so are the
    arguments if they are looked at; and when one of these is below the user's memory, neither the path nor
    an argument before it ends the process. -/
def PointersFit (m : Machine) : Call → Prop
  | .wait id status => 0x80000000 ≤ status ∨ pcbArrSize ≤ id ∨ m.pcb.childrenPromises id = none
  | .open_ path => StringInUser m path
  | .chdir path => StringInUser m path
  | .execl path argv => StringInUser m path ∧
      ((∃ program, Looked m path (.node program)) → ArgsInUser m argv) ∧
      (LowArgument m argv → Rejected m path argv)
  | _ => True

theorem aboveKernel_load : ∀ a, 0x80000000 ≤ a → AboveKernel (.load a) := fun _ h => h

theorem aboveKernel_tables : ∀ t i, AboveKernel (.table t i) := fun _ _ => trivial

theorem allowsTables_aboveKernel : AllowsTables AboveKernel := fun _ _ _ => trivial

/-! ## `wait` -/

theorem wait_of_invalid (h : pcbArrSize ≤ id ∨ m.pcb.childrenPromises id = none) :
    (wait id status m).result = .ok minusOne ∧ (wait id status m).state = m := by
  rw [wait]
  by_cases hid : id ≥ pcbArrSize
  · rw [if_pos hid]
    exact ⟨rfl, rfl⟩
  · rw [if_neg hid]
    have hnone : m.element .childrenPromises id = none := by
      rw [Machine.element, if_pos (by omega)]
      exact h.resolve_left (by omega)
    rw [bind_run, Run.andThen, index_result, hnone]
    exact ⟨rfl, rfl⟩

theorem wait_touches (hid : id < pcbArrSize) (h : m.pcb.childrenPromises id ≠ none) :
    Touches (wait id status) m (.store status) := by
  obtain ⟨promise, hp⟩ := Option.ne_none_iff_exists'.1 h
  have helem : m.element .childrenPromises id = some promise := by
    rw [Machine.element, if_pos hid, hp]
  rw [wait, if_neg (by omega)]
  refine Touches.right (index_result _ _ _) (index_state _ _ _) ?_
  rw [helem]
  refine Touches.right (index_result _ _ _) (index_state _ _ _) ?_
  apply Touches.getState
  exact Touches.left (Touches.left (List.mem_singleton.2 rfl))

theorem wait_iff :
    ((∀ x ∈ (wait id status m).log, AboveKernel x) ∧
      (status < 0x80000000 → (wait id status m).result = .ok minusOne ∧ (wait id status m).state = m)) ↔
    (0x80000000 ≤ status ∨ pcbArrSize ≤ id ∨ m.pcb.childrenPromises id = none) := by
  constructor
  · rintro ⟨hlog, -⟩
    by_contra hnot
    rw [not_or, not_or] at hnot
    obtain ⟨hlow, hid, hp⟩ := hnot
    exact (wait_touches (by omega) hp).not_log hlow hlog
  · intro hfit
    refine ⟨(logs_wait allowsTables_aboveKernel ?_).log, ?_⟩
    · intro hid hp
      rcases hfit with h | h | h
      · exact h
      · omega
      · exact absurd h hp
    · exact fun hlow => wait_of_invalid (hfit.resolve_left (by omega))

/-! ## `open` and `chdir` -/

theorem logs_userString_aboveKernel (h : StringInUser m path) : Logs AboveKernel (userString path) m :=
  (spec_userString_inUser aboveKernel_load h).mono (fun _ h => h) (fun _ _ _ => trivial) (fun _ _ _ => trivial)

theorem open_iff (hpath : path < 4294967296) :
    (∀ x ∈ (open_ path m).log, AboveKernel x) ↔ StringInUser m path := by
  constructor
  · intro hlog
    have hstring := userString_iff (m := { m with
      pcb := { m.pcb with cwd := some (m.pcb.cwd.getD m.fs.root) } }) hpath
    refine hstring.1 ?_
    intro x hx
    refine hlog x ?_
    show Touches (open_ path) m x
    rw [open_]
    apply Touches.getState
    apply Touches.modify
    exact Touches.left hx
  · exact fun h => (logs_open allowsTables_aboveKernel fun _ => logs_userString_aboveKernel h).log

theorem chdir_iff (hpath : path < 4294967296) :
    (∀ x ∈ (chdir path m).log, AboveKernel x) ↔ StringInUser m path := by
  constructor
  · intro hlog
    refine (userString_iff hpath).1 ?_
    intro x hx
    refine hlog x ?_
    show Touches (chdir path) m x
    rw [chdir]
    apply Touches.getState
    exact Touches.left hx
  · exact fun h => (logs_chdir (logs_userString_aboveKernel h)).log

/-! ## `execl` -/

/-- With pointers that fit, `execl` reads only what is the user's, and comes back exactly when it rejects
    what it is given. -/
theorem spec_execl_inUser (hload : ∀ a, 0x80000000 ≤ a → P (.load a)) (hpath : StringInUser m path)
    (hargv : 0x80000000 ≤ argv) (hargs : (∃ program, Looked m path (.node program)) → ArgsInUser m argv) :
    Spec P (execl path argv) m (fun v m' => (v = minusOne ∧ Rejected m path argv) ∧ m = m')
      fun _ _ => ¬ Rejected m path argv := by
  refine Spec.bind spec_getState ?_
  rintro _ _ ⟨rfl, rfl⟩
  refine Spec.bind ((spec_userString_inUser hload hpath).mono_error ?_) ?_
  · rintro _ _ ⟨hnot, -⟩
    rintro (⟨n, hn, -⟩ | ⟨⟨-, n, hn, -⟩, -⟩)
    · exact hnot n hn
    · exact hnot n hn
  · rintro name _ ⟨⟨hat, hname⟩, rfl⟩
    have hlooked : ∀ l, m.fs.find m.stack (m.pcb.cwd.getD m.fs.root) name = l → Looked m path l := by
      intro l hl
      refine ⟨name.length, hat, ?_⟩
      rw [← hname]
      exact hl
    refine Spec.bind (spec_find ?_) ?_
    · intro hstops
      rintro (hnull | ⟨⟨program, hnode⟩, -⟩)
      · exact Lookup.noConfusion (hnull.unique (hlooked _ hstops))
      · exact Lookup.noConfusion (hnode.unique (hlooked _ hstops))
    · rintro r _ ⟨hfind, rfl⟩
      cases r with
      | none => exact Spec.pure ⟨⟨rfl, Or.inl (hlooked _ hfind)⟩, rfl⟩
      | some program =>
        have hnode := hlooked _ hfind
        have harguments := hargs ⟨program, hnode⟩
        have hrejected : ¬ Refused m argv → ¬ Rejected m path argv := by
          rintro hnot (hnull | ⟨-, hrefused⟩)
          · exact Lookup.noConfusion (hnull.unique hnode)
          · exact hnot hrefused
        refine Spec.bind ((spec_checkArgs_inUser hload hargv harguments _ 0 (by omega) ?_).mono
          (fun _ h => h) (fun _ _ h => h) ?_) ?_
        · exact fun i hi => absurd hi (Nat.not_lt_zero i)
        · rintro _ _ ⟨hnot, -⟩
          exact hrejected hnot
        · rintro r _ ⟨⟨hsome, hnone⟩, rfl⟩
          cases r with
          | none => exact Spec.pure ⟨⟨rfl, Or.inr ⟨⟨program, hnode⟩, hnone rfl⟩⟩, rfl⟩
          | some argc =>
            obtain ⟨hpass, hend⟩ := hsome argc rfl
            -- the array ends with a null pointer, so that no argument has been refused
            have hnot : ¬ Rejected m path argv := by
              refine hrejected (not_refused hpass ?_ ?_)
              · rintro ⟨-, hlow, -⟩
                omega
              · rintro ⟨-, hne, -⟩
                exact hne hend
            refine Spec.bind (spec_copyArgs_inUser hload (fun _ => hnot) hargv ?_ argc 0 (Nat.zero_add argc)) ?_
            · intro i hi
              exact ⟨hpass i hi, (harguments i fun j hj => hpass j (Nat.lt_trans hj hi)).1⟩
            · intro _ _ _
              exact Spec.stop hnot

/-- The path is read. -/
theorem execl_touches_path {x : Access} (h : Touches (userString path) m x) :
    Touches (execl path argv) m x := by
  rw [execl]
  exact Touches.getState (Touches.left h)

/-- The arguments are checked if the path is found. -/
theorem execl_touches_args {x : Access} {program : Nat} (hpath : path < 4294967296)
    (hnode : Looked m path (.node program)) (h : Touches (checkArgs argv 4294967296 0) m x) :
    Touches (execl path argv) m x := by
  obtain ⟨n, hn, hfind⟩ := hnode
  obtain ⟨hres, hstate⟩ := userString_of_stringAt hpath hn
  have hfound : find (m.pcb.cwd.getD m.fs.root) (bytesAt m path n) m = ⟨[], .ok (some program), m⟩ := by
    rw [find, bind_run, getState_run, andThen_ok, hfind]
    rfl
  rw [execl]
  apply Touches.getState
  refine Touches.right hres hstate ?_
  refine Touches.right (a := some program) ?_ ?_ (Touches.left h)
  · rw [hfound]
  · rw [hfound]

theorem execl_iff (hpath : path < 4294967296) (hargv : 0x80000000 ≤ argv) (hargv' : argv < 4294967296) :
    ((∀ x ∈ (execl path argv m).log, AboveKernel x) ∧
      (path < 0x80000000 ∨ LowArgument m argv →
        (execl path argv m).result = .ok minusOne ∧ (execl path argv m).state = m)) ↔
    StringInUser m path ∧ ((∃ program, Looked m path (.node program)) → ArgsInUser m argv) ∧
      (LowArgument m argv → Rejected m path argv) := by
  constructor
  · rintro ⟨hlog, hret⟩
    have hstr : StringInUser m path := (userString_iff hpath).1 fun x hx => hlog x (execl_touches_path hx)
    have hargs : (∃ program, Looked m path (.node program)) → ArgsInUser m argv := by
      rintro ⟨program, hnode⟩
      exact (checkArgs_iff hargv hargv').1 fun x hx => hlog x (execl_touches_args hpath hnode hx)
    refine ⟨hstr, hargs, ?_⟩
    intro hlow
    obtain ⟨hok, -⟩ := hret (Or.inr hlow)
    exact ((spec_execl_inUser aboveKernel_load hstr hargv hargs).ok _ hok).1.2
  · rintro ⟨hstr, hargs, hrej⟩
    have hspec := spec_execl_inUser aboveKernel_load hstr hargv hargs
    refine ⟨hspec.log, ?_⟩
    intro hlow
    have hrejected : Rejected m path argv := by
      refine hrej (hlow.resolve_left ?_)
      have := hstr.1
      omega
    have hreturns := (hspec.mono_error fun _ _ h => h hrejected).returns
    obtain ⟨v, hok, ⟨rfl, -⟩, hstate⟩ := hreturns
    exact ⟨hok, hstate.symm⟩

/-! ## The result -/

theorem handle_guards_iff {eax : Nat} {call : Call} (hfrom : FromStack eax call) (hwrite : eax ≠ 1)
    (hread : eax ≠ 12) :
    ((∀ x ∈ (handle call m).log, AboveKernel x) ∧
      (GivenLow m call → (handle call m).result = .ok minusOne ∧ (handle call m).state = m)) ↔
    PointersFit m call := by
  have hT := allowsTables_aboveKernel
  have hA := aboveKernel_tables
  -- the calls that use no pointer
  have hfits : ∀ {p : Handler Nat} {R : Prop}, Logs AboveKernel p m →
      ((∀ x ∈ (p m).log, AboveKernel x) ∧ (False → R) ↔ True) :=
    fun h => iff_of_true ⟨h.log, fun h => h.elim⟩ trivial
  cases call with
  | exit => exact hfits Logs.stop
  | write fd buf nbyte => exact absurd hfrom hwrite
  | fork => exact hfits (logs_fork hA)
  | sem => exact hfits (logs_sem hA)
  | up id => exact hfits (logs_useSem hT id)
  | down id => exact hfits (logs_useSem hT id)
  | close fd => exact hfits (logs_close hT fd)
  | shutdown => exact hfits Logs.stop
  | wait id status => exact wait_iff
  | execl path argv => exact execl_iff hfrom.1 hfrom.2.1 hfrom.2.2
  | open_ path =>
    refine Iff.trans ?_ (open_iff hfrom)
    refine ⟨fun h => h.1, fun h => ⟨h, fun hlow => ?_⟩⟩
    exact absurd ((open_iff hfrom).1 h).1 (Nat.not_le.2 hlow)
  | len fd => exact hfits (logs_len hT fd)
  | read fd buf nbyte => exact absurd hfrom hread
  | seek fd offset => exact hfits (logs_seek hT fd offset)
  | chdir path =>
    refine Iff.trans ?_ (chdir_iff hfrom)
    refine ⟨fun h => h.1, fun h => ⟨h, fun hlow => ?_⟩⟩
    exact absurd ((chdir_iff hfrom).1 h).1 (Nat.not_le.2 hlow)
  | naiveMmap size isShared file offset => exact hfits (logs_naiveMmap (hA _ _))
  | naiveUnmap p => exact hfits (Logs.bind (logs_naiveUnmap p) fun _ _ _ => Logs.pure)
  | vga => exact hfits Logs.pure
  | unknown => exact hfits Logs.pure

/-- **The system calls other than `read` and `write` touch nothing of the kernel's through a pointer of the
    user's, and return -1 with nothing changed when given one that lies there, exactly if the pointers they
    are given fit.** -/
theorem guardsPointers_iff (m : Machine) (eax userSp : Nat) (hwrite : eax ≠ 1) (hread : eax ≠ 12) :
    ((∀ x ∈ (sysHandler eax userSp m).log, AboveKernel x) ∧
      ∀ call, requested eax userSp m = some call → GivenLow m call →
        (sysHandler eax userSp m).result = .ok minusOne ∧ (sysHandler eax userSp m).state = m) ↔
    ∀ call, requested eax userSp m = some call → PointersFit m call := by
  rw [sysHandler_log_iff aboveKernel_load]
  constructor
  · rintro ⟨hlog, hret⟩ call hcall
    have hfrom := (requested_some hcall).2.2.2
    refine (handle_guards_iff hfrom hwrite hread).1 ⟨hlog call hcall, fun hlow => ?_⟩
    have hsame := hret call hcall hlow
    rw [sysHandler_of_requested hcall] at hsame
    exact hsame
  · intro hfit
    refine ⟨fun call hcall => ?_, fun call hcall hlow => ?_⟩
    · have hfrom := (requested_some hcall).2.2.2
      exact ((handle_guards_iff hfrom hwrite hread).2 (hfit call hcall)).1
    · have hfrom := (requested_some hcall).2.2.2
      rw [sysHandler_of_requested hcall]
      exact ((handle_guards_iff hfrom hwrite hread).2 (hfit call hcall)).2 hlow

/-- The first process with the path `x` at 0x87FFFF00, and that address on its stack. -/
def openProcess : Machine := { firstProcess with
  mem := fun a =>
    if a = 0x87FFFF00 then 120
    else if a = 0x87FFFFF5 ∨ a = 0x87FFFFF6 then 0xFF
    else if a = 0x87FFFFF7 then 0x87
    else 0 }

/-- It opens that path, and what the handler touches is the user's; and `wait` for a child that the first
    process cannot have, with its status to be stored at 0, is refused. -/
theorem guardsPointers_iff_open :
    requested 10 0x87FFFFF0 openProcess = some (.open_ 0x87FFFF00) ∧
    (∀ x ∈ (sysHandler 10 0x87FFFFF0 openProcess).log, AboveKernel x) ∧
    (∃ id, requested 8 0x87FFFFF0 firstProcess = some (.wait id 0)) ∧
    (sysHandler 8 0x87FFFFF0 firstProcess).result = .ok minusOne ∧
    (sysHandler 8 0x87FFFFF0 firstProcess).state = firstProcess := by
  have hopen : requested 10 0x87FFFFF0 openProcess = some (.open_ 0x87FFFF00) := by decide +kernel
  have hwait : requested 8 0x87FFFFF0 firstProcess = some (.wait 4294967096 0) := by decide +kernel
  have hlog := ((guardsPointers_iff openProcess 10 0x87FFFFF0 (by decide) (by decide)).2 fun call hcall => by
    obtain rfl := Option.some.inj (hopen.symm.trans hcall)
    exact ⟨by decide, 0x87FFFF01, by decide, by decide, Or.inr (by decide +kernel)⟩).1
  have hrefused := ((guardsPointers_iff firstProcess 8 0x87FFFFF0 (by decide) (by decide)).2 fun call hcall => by
    obtain rfl := Option.some.inj (hwait.symm.trans hcall)
    exact Or.inr (Or.inl (by decide))).2 _ hwait (show 0 < 0x80000000 by decide)
  exact ⟨hopen, hlog, ⟨_, hwait⟩, hrefused⟩

/-- The first process opens the path at address 0: the handler reads a byte of the kernel's. -/
theorem open_readsKernel :
    requested 10 0x87FFFFF0 firstProcess = some (.open_ 0) ∧
    ¬ ((∀ x ∈ (sysHandler 10 0x87FFFFF0 firstProcess).log, AboveKernel x) ∧
      ∀ call, requested 10 0x87FFFFF0 firstProcess = some call → GivenLow firstProcess call →
        (sysHandler 10 0x87FFFFF0 firstProcess).result = .ok minusOne ∧
        (sysHandler 10 0x87FFFFF0 firstProcess).state = firstProcess) := by
  have hopen : requested 10 0x87FFFFF0 firstProcess = some (.open_ 0) := by decide +kernel
  refine ⟨hopen, ?_⟩
  rintro ⟨hlog, -⟩
  rw [sysHandler_log_iff aboveKernel_load] at hlog
  have hstr := (open_iff (by decide)).1 (hlog _ hopen)
  exact absurd hstr.1 (by decide)

end Sys

end BadApple
