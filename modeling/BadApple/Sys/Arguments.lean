/-
  The arguments of `execl` (kernel/sys.cc).

  1. **Specification** — an argument passes the check of `execl`, or fails it.  Which arguments are looked at
     depends on those before: `ArgsInUser` is about the arguments up to the first that does not pass,
     `Refused` says that this one fails.
  2. **The loops** — the check counts the arguments that pass; the copy reads what the check has read.
  3. **The result** — `checkArgs_iff`: no byte of the kernel's is read exactly if `ArgsInUser`.
-/
import BadApple.Sys.Strings

namespace BadApple

open Effects

namespace Sys

variable {m : Machine} {P : Access → Prop} {argv : Nat}

/-! ## Specification -/

/-- `argv[i]`. -/
def argWord (m : Machine) (argv i : Nat) : Nat := Memory.word m.mem (argv + 4 * i)

/-- The word at `a` is there to be read. -/
def WordAt (m : Machine) (a : Nat) : Prop := m.covered a = true ∧ m.covered (a + 3) = true

/-- Argument `i` is a string of the user's. -/
def ArgPasses (m : Machine) (argv i : Nat) : Prop :=
  WordAt m (argv + 4 * i) ∧ 0x80000000 ≤ argWord m argv i ∧
    ∃ n, StringAt m (argWord m argv i) n ∧ argWord m argv i + n < 0xF0000000

/-- Argument `i` is found not to be. -/
def ArgFails (m : Machine) (argv i : Nat) : Prop :=
  WordAt m (argv + 4 * i) ∧ argWord m argv i ≠ 0 ∧
    (argWord m argv i < 0x80000000 ∨ ∃ n, StringAt m (argWord m argv i) n ∧ 0xF0000000 ≤ argWord m argv i + n)

/-- The check refuses an argument, after others that pass. -/
def Refused (m : Machine) (argv : Nat) : Prop := ∃ j, (∀ i, i < j → ArgPasses m argv i) ∧ ArgFails m argv j

/-- The arguments that are looked at lie before the end of the address space, and are strings of the user's
    that end before it, or words below the user's memory. -/
def ArgsInUser (m : Machine) (argv : Nat) : Prop :=
  ∀ argc, (∀ i, i < argc → ArgPasses m argv i) → argv + 4 * argc < 4294967296 ∧
    (WordAt m (argv + 4 * argc) → 0x80000000 ≤ argWord m argv argc → StringInUser m (argWord m argv argc))

theorem ArgPasses.not_fails {i : Nat} (h : ArgPasses m argv i) : ¬ ArgFails m argv i := by
  obtain ⟨-, hlow, n, hn, hbound⟩ := h
  rintro ⟨-, -, hlow' | ⟨n', hn', hbound'⟩⟩
  · omega
  · rw [hn.unique hn'] at hbound
    omega

/-- Nothing is refused if the first argument that does not pass does not fail either. -/
theorem not_refused {argc : Nat} (hpass : ∀ i, i < argc → ArgPasses m argv i) (hnot : ¬ ArgPasses m argv argc)
    (hfail : ¬ ArgFails m argv argc) : ¬ Refused m argv := by
  rintro ⟨j, hj, hjfail⟩
  rcases Nat.lt_trichotomy j argc with hlt | heq | hgt
  · exact (hpass j hlt).not_fails hjfail
  · exact hfail (heq ▸ hjfail)
  · exact hnot (hj argc hgt)

/-- An argument that passes lies in front of the end of the address space. -/
theorem ArgPasses.stringInUser {i : Nat} (h : ArgPasses m argv i) : StringInUser m (argWord m argv i) := by
  obtain ⟨-, hlow, n, hn, hbound⟩ := h
  refine ⟨hlow, argWord m argv i + n, by omega, by omega, Or.inr ?_⟩
  rw [← u32_of_lt (show argWord m argv i + n < 4294967296 by omega)]
  exact hn.2.2

/-! ## The check -/

/-- What the check of the arguments reads is the user's; it comes back with their number, or with the first
    one refused, or ends the process. -/
theorem spec_checkArgs_inUser (hload : ∀ a, 0x80000000 ≤ a → P (.load a)) (hargv : 0x80000000 ≤ argv)
    (hargs : ArgsInUser m argv) : ∀ fuel argc, 4294967296 ≤ argc + fuel →
    (∀ i, i < argc → ArgPasses m argv i) →
    Spec P (checkArgs argv fuel argc) m
      (fun r m' => ((∀ n, r = some n → (∀ i, i < n → ArgPasses m argv i) ∧ argWord m argv n = 0) ∧
        (r = none → Refused m argv)) ∧ m = m')
      fun _ m' => ¬ Refused m argv ∧ m = m' := by
  intro fuel
  induction fuel with
  | zero =>
    intro argc hfuel hpass
    have hbound := (hargs argc hpass).1
    omega
  | succ fuel ih =>
    intro argc hfuel hpass
    obtain ⟨hbound, hstr⟩ := hargs argc hpass
    rw [checkArgs, u32_of_lt hbound]
    have hmissing : ¬ WordAt m (argv + 4 * argc) → ¬ Refused m argv :=
      fun hw => not_refused hpass (fun h => hw h.1) fun h => hw h.1
    refine Spec.bind (spec_loadWord (hload _ (by omega)) fun hw => ⟨hmissing hw, rfl⟩) ?_
    rintro arg _ ⟨harg, hw, rfl⟩
    replace harg : argWord m argv argc = arg := harg
    by_cases h0 : arg = 0
    · rw [if_pos h0]
      refine Spec.pure ⟨⟨?_, fun h => by cases h⟩, rfl⟩
      intro n hn
      obtain rfl := Option.some.inj hn
      exact ⟨hpass, harg.trans h0⟩
    · rw [if_neg h0]
      by_cases hlow : arg < 0x80000000
      · rw [if_pos hlow]
        refine Spec.pure ⟨⟨fun n hn => (by cases hn), fun _ => ?_⟩, rfl⟩
        exact ⟨argc, hpass, hw, by omega, Or.inl (by omega)⟩
      · rw [if_neg hlow]
        have huser : StringInUser m arg := harg ▸ hstr hw (by omega)
        refine Spec.bind ((spec_userString_inUser hload huser).mono_error ?_) ?_
        · rintro _ _ ⟨hnot, rfl⟩
          refine ⟨not_refused hpass ?_ ?_, rfl⟩
          · rintro ⟨-, -, n, hn, -⟩
            exact hnot n (harg ▸ hn)
          · rintro ⟨-, -, hlow' | ⟨n, hn, -⟩⟩
            · omega
            · exact hnot n (harg ▸ hn)
        · rintro str _ ⟨⟨hat, -⟩, rfl⟩
          rw [u32_of_lt (huser.bound hat)]
          by_cases hhigh : arg + str.length ≥ 0xF0000000
          · rw [if_pos hhigh]
            refine Spec.pure ⟨⟨fun n hn => (by cases hn), fun _ => ?_⟩, rfl⟩
            exact ⟨argc, hpass, hw, by omega, Or.inr ⟨str.length, harg ▸ hat, by omega⟩⟩
          · rw [if_neg hhigh]
            refine ih (argc + 1) (by omega) ?_
            intro i hi
            by_cases hi' : i = argc
            · rw [hi']
              exact ⟨hw, by omega, str.length, harg ▸ hat, by omega⟩
            · exact hpass i (by omega)

/-! ## The copy -/

theorem spec_loadBytes_inUser {E : Stop → Machine → Prop} (hload : ∀ a, 0x80000000 ≤ a → P (.load a))
    (hE : ∀ e, E e m) : ∀ n a, 0x80000000 ≤ a → a + n ≤ 4294967296 →
    Spec P (loadBytes n a) m (fun _ m' => m = m') E := by
  intro n
  induction n with
  | zero => exact fun _ _ _ => Spec.pure rfl
  | succ n ih =>
    intro a hlow hbound
    refine Spec.bind (spec_loadByte (hload a hlow) fun _ => hE _) ?_
    rintro _ _ ⟨-, -, rfl⟩
    cases n with
    | zero => exact Spec.pure rfl
    | succ n =>
      rw [u32_of_lt (by omega)]
      exact ih (a + 1) (by omega) (by omega)

/-- The copy reads arguments that pass, and nothing else. -/
theorem spec_copyArgs_inUser {E : Stop → Machine → Prop} {argc : Nat}
    (hload : ∀ a, 0x80000000 ≤ a → P (.load a)) (hE : ∀ e, E e m) (hargv : 0x80000000 ≤ argv)
    (hpass : ∀ i, i < argc → ArgPasses m argv i ∧ argv + 4 * i < 4294967296) :
    ∀ n i, i + n = argc → Spec P (copyArgs argv n i) m (fun _ m' => m = m') E := by
  intro n
  induction n with
  | zero => exact fun _ _ => Spec.pure rfl
  | succ n ih =>
    intro i hi
    obtain ⟨hpassi, hbound⟩ := hpass i (by omega)
    rw [copyArgs, u32_of_lt hbound]
    refine Spec.bind (spec_loadWord (hload _ (by omega)) fun _ => hE _) ?_
    rintro arg _ ⟨harg, -, rfl⟩
    replace harg : argWord m argv i = arg := harg
    have huser : StringInUser m arg := harg ▸ hpassi.stringInUser
    refine Spec.bind ((spec_userString_inUser hload huser).mono_error ?_) ?_
    · rintro _ _ ⟨-, rfl⟩
      exact hE _
    · rintro str _ ⟨⟨hat, -⟩, rfl⟩
      have hend := huser.bound hat
      refine Spec.bind (spec_loadBytes_inUser hload hE _ _ huser.1 (by omega)) ?_
      rintro _ _ rfl
      refine Spec.bind (ih (i + 1) (by omega)) ?_
      rintro rest _ rfl
      exact Spec.pure rfl

/-! ## What the check looks at -/

/-- An argument that is there is read. -/
theorem loadWord_argWord {i : Nat} (h : WordAt m (argv + 4 * i)) :
    (loadWord (argv + 4 * i) m).result = .ok (argWord m argv i) ∧ (loadWord (argv + 4 * i) m).state = m := by
  have hspec : Spec (fun _ => True) (loadWord (argv + 4 * i)) m (fun w m' => argWord m argv i = w ∧ m = m')
      fun _ _ => False :=
    (spec_loadWord trivial (E := fun _ _ => False) fun hn => hn h).mono (fun _ h => h)
      (fun _ _ h => ⟨h.1, h.2.2⟩) (fun _ _ h => h)
  obtain ⟨w, hres, rfl, hstate⟩ := hspec.returns
  exact ⟨hres, hstate.symm⟩

/-- The check gets past arguments that pass. -/
theorem checkArgs_touches {x : Access} : ∀ k fuel argc,
    (∀ i, argc ≤ i → i < argc + k → ArgPasses m argv i ∧ argv + 4 * i < 4294967296) →
    Touches (checkArgs argv fuel (argc + k)) m x → Touches (checkArgs argv (fuel + k) argc) m x := by
  intro k
  induction k with
  | zero => exact fun _ _ _ h => h
  | succ k ih =>
    intro fuel argc hpass h
    obtain ⟨⟨hw, hlow, n, hn, hhigh⟩, hbound⟩ := hpass argc (Nat.le_refl _) (by omega)
    obtain ⟨hres, hstate⟩ := loadWord_argWord hw
    obtain ⟨hsres, hsstate⟩ := userString_of_stringAt (Memory.word_lt _ _) hn
    rw [show fuel + (k + 1) = (fuel + k) + 1 by omega, checkArgs, u32_of_lt hbound]
    refine Touches.right hres hstate ?_
    rw [if_neg (by omega), if_neg (by omega)]
    refine Touches.right hsres hsstate ?_
    rw [bytesAt_length, u32_of_lt (show argWord m argv argc + n < 4294967296 by omega),
      if_neg (by omega)]
    refine ih fuel (argc + 1) (fun i h1 h2 => hpass i (by omega) (by omega)) ?_
    rw [show argc + 1 + k = argc + (k + 1) by omega]
    exact h

/-- Each round of the check reads a word. -/
theorem checkArgs_touches_word {fuel argc : Nat} :
    Touches (checkArgs argv (fuel + 1) argc) m (.load (u32 (argv + 4 * argc))) := by
  rw [checkArgs, loadWord]
  exact Touches.left (Touches.left (List.mem_singleton.2 rfl))

/-- **The check reads nothing of the kernel's exactly if the arguments are the user's.** -/
theorem checkArgs_iff (hargv : 0x80000000 ≤ argv) (hargv' : argv < 4294967296) :
    (∀ x ∈ (checkArgs argv 4294967296 0 m).log, AboveKernel x) ↔ ArgsInUser m argv := by
  constructor
  · intro hlog
    -- by induction, the array does not run over the end of the address space
    have hbound : ∀ argc, (∀ i, i < argc → ArgPasses m argv i) → argv + 4 * argc < 4294967296 := by
      intro argc
      induction argc with
      | zero => exact fun _ => by omega
      | succ argc ih =>
        intro hpass
        have hprev : ∀ k, k ≤ argc → argv + 4 * k < 4294967296 := by
          have := ih fun i hi => hpass i (by omega)
          intro k hk
          omega
        have hlast := hprev argc (Nat.le_refl _)
        by_contra hover
        have htouch : Touches (checkArgs argv (4294967295 - (argc + 1) + 1 + (argc + 1)) 0) m
            (.load (u32 (argv + 4 * (argc + 1)))) := by
          refine checkArgs_touches (argc + 1) _ 0 (fun i _ hi => ⟨hpass i (by omega), hprev i (by omega)⟩) ?_
          rw [Nat.zero_add]
          exact checkArgs_touches_word
        rw [show 4294967295 - (argc + 1) + 1 + (argc + 1) = 4294967296 by omega,
          u32_of_wrap (by omega) (by omega)] at htouch
        refine htouch.not_log ?_ hlog
        show ¬ 0x80000000 ≤ _
        omega
    intro argc hpass
    have hlast := hbound argc hpass
    refine ⟨hlast, ?_⟩
    intro hw hlow
    refine (userString_iff (Memory.word_lt _ _)).1 ?_
    intro x hx
    refine hlog x ?_
    have htouch : Touches (checkArgs argv (4294967295 - argc + 1 + argc) 0) m x := by
      refine checkArgs_touches argc _ 0 (fun i _ hi => ⟨hpass i (by omega), by omega⟩) ?_
      rw [Nat.zero_add]
      obtain ⟨hres, hstate⟩ := loadWord_argWord hw
      rw [checkArgs, u32_of_lt hlast]
      refine Touches.right hres hstate ?_
      rw [if_neg (by omega), if_neg (by omega)]
      exact Touches.left hx
    rw [show 4294967295 - argc + 1 + argc = 4294967296 by omega] at htouch
    exact htouch
  · intro hargs
    refine (spec_checkArgs_inUser (fun _ h => h) hargv hargs _ _ (by omega) ?_).log
    intro i hi
    exact absurd hi (Nat.not_lt_zero i)

end Sys

end BadApple
