/-
  What `execl` finds before it clears the address space (kernel/sys.cc).

  1. **One list** — the arguments in front of the first that is null or fails are determined by memory, so
     at most one thing can be `Found`.
  2. **The loops** — the check stops where the arguments stop, whether or not the array runs over the end of
     the address space: after 2³⁰ arguments the same words come again.  The copy gives the strings exactly if
     the heap has blocks for them.
  3. **The result** — `spec_reading`: nothing changes, and what comes back is `Prepared`; if the process ends
     instead, or the kernel panics, nothing is.
-/
import BadApple.Exec.Model

namespace BadApple

open Effects Memory

namespace Exec

open Gheith (Heap)

open Sys (Handler Machine Access Looked StringAt WordAt bytesAt minusOne)

variable {k : Kernel} {heap : Heap} {m : Machine} {P : Access → Prop} {path argv i j : Nat} {s s' : List UInt8}
  {args args' : List (List UInt8)}

/-! ## One list -/

/-- The check stops at argument `i`. -/
def Stops (m : Machine) (argv i : Nat) : Prop := ArgFails m argv i ∨ ArgsEnd m argv i

theorem pointer_lt (m : Machine) (argv i : Nat) : pointer m argv i < 4294967296 := word_lt _ _

theorem ArgIs.unique (h : ArgIs m argv i s) (h' : ArgIs m argv i s') : s = s' := by
  rw [h.bytes, h'.bytes, h.string.unique h'.string]

theorem ArgIs.not_stops (h : ArgIs m argv i s) : ¬ Stops m argv i := by
  rintro (hfails | hend)
  · rcases hfails.outside with hlow | ⟨n, hn, hhigh⟩
    · exact absurd h.user (by omega)
    · have hbound := h.bound
      rw [h.string.unique hn] at hbound
      omega
  · have huser := h.user
    rw [hend.null] at huser
    omega

/-- What fails is not the end. -/
theorem ArgFails.not_end (h : ArgFails m argv i) : ¬ ArgsEnd m argv i := fun hend => h.notNull hend.null

/-- The check stops at one place, -/
theorem FirstArgs.length_eq (h : FirstArgs m argv args) (hstop : Stops m argv args.length)
    (h' : FirstArgs m argv args') (hstop' : Stops m argv args'.length) : args.length = args'.length := by
  rcases Nat.lt_trichotomy args.length args'.length with hlt | heq | hgt
  · exact absurd hstop (h' _ hlt).not_stops
  · exact heq
  · exact absurd hstop' (h _ hgt).not_stops

/-- with the same arguments before it. -/
theorem FirstArgs.eq (h : FirstArgs m argv args) (hstop : Stops m argv args.length)
    (h' : FirstArgs m argv args') (hstop' : Stops m argv args'.length) : args = args' := by
  have hlength := h.length_eq hstop h' hstop'
  refine List.ext_getElem hlength fun i h1 h2 => ?_
  exact (h i h1).unique (h' i h2)

theorem FirstArgs.nil : FirstArgs m argv [] := fun i hi => absurd hi (Nat.not_lt_zero i)

/-- One more. -/
theorem FirstArgs.append (h : FirstArgs m argv args) (hs : ArgIs m argv args.length s) :
    FirstArgs m argv (args ++ [s]) := by
  intro i hi
  rw [List.length_append, List.length_singleton] at hi
  rcases Nat.lt_succ_iff_lt_or_eq.1 hi with hlt | rfl
  · rw [List.getElem_append_left hlt]
    exact h i hlt
  · rw [List.getElem_concat_length rfl]
    exact hs

/-- Nothing is found if the check neither stops at the next argument nor gets past it. -/
theorem FirstArgs.stuck (h : FirstArgs m argv args) (hnot : ∀ s, ¬ ArgIs m argv args.length s)
    (hstop : ¬ Stops m argv args.length) (h' : FirstArgs m argv args') : ¬ Stops m argv args'.length := by
  intro hstop'
  rcases Nat.lt_trichotomy args.length args'.length with hlt | heq | hgt
  · exact hnot _ (h' _ hlt)
  · exact hstop (heq ▸ hstop')
  · exact (h _ hgt).not_stops hstop'

/-- **The check stops in time**, since after 2³⁰ arguments the same ones come again. -/
theorem FirstArgs.length_lt (h : FirstArgs m argv args) (hstop : Stops m argv args.length) :
    args.length < 4294967296 := by
  by_contra hlong
  obtain ⟨k, hk, hsame⟩ : ∃ k, k < args.length ∧ slot argv k = slot argv args.length := by
    refine ⟨args.length - 4294967296, by omega, ?_⟩
    simp only [slot, u32_eq]
    omega
  have hpointer : pointer m argv k = pointer m argv args.length := by
    rw [pointer, hsame, pointer]
  refine (h k hk).not_stops (hstop.imp (fun hf => ?_) fun he => ?_)
  · exact ⟨hsame ▸ hf.there, hpointer ▸ hf.notNull, hpointer ▸ hf.outside⟩
  · exact ⟨hsame ▸ he.there, hpointer ▸ he.null⟩

/-- **At most one thing is found.** -/
theorem Found.unique {r r' : Option (Nat × List (List UInt8))} (h : Found m path argv r)
    (h' : Found m path argv r') : r = r' := by
  have hnone : ∀ p, Found m path argv none → Found m path argv (some p) → False := by
    rintro p (hnull | ⟨program, hlooked, args, hfirst, hfails⟩) ⟨hlooked', hfirst', hend⟩
    · cases hnull.unique hlooked'
    · have hlength := hfirst.length_eq (Or.inl hfails) hfirst' (Or.inr hend)
      exact hfails.not_end (hlength ▸ hend)
  cases r with
  | none =>
    cases r' with
    | none => rfl
    | some p' => exact (hnone p' h h').elim
  | some p =>
    cases r' with
    | none => exact (hnone p h' h).elim
    | some p' =>
      obtain ⟨hlooked, hfirst, hend⟩ := h
      obtain ⟨hlooked', hfirst', hend'⟩ := h'
      have hprogram : p.1 = p'.1 := Lookup.node.inj (hlooked.unique hlooked')
      have hargs : p.2 = p'.2 := hfirst.eq (Or.inr hend) hfirst' (Or.inr hend')
      exact congrArg some (Prod.ext hprogram hargs)

/-! ## The loops -/

/-- **The check**, after some arguments that pass. -/
theorem spec_checkArgs (m : Machine) (argv : Nat) (hload : ∀ a, P (.load a)) :
    ∀ (fuel : Nat) (args : List (List UInt8)), FirstArgs m argv args →
    Spec P (Sys.checkArgs argv fuel args.length) m
      (fun r m' => ((r = none → Refused m argv) ∧
        ∀ argc, r = some argc → ∃ args', args'.length = argc ∧ Given m argv args') ∧ m = m')
      fun _ _ => ∀ args', args'.length < args.length + fuel → FirstArgs m argv args' →
        ¬ Stops m argv args'.length := by
  intro fuel
  induction fuel with
  | zero =>
    intro args hfirst
    refine Spec.stop fun args' hlt _ => (hfirst _ ?_).not_stops
    omega
  | succ fuel ih =>
    intro args hfirst
    have hmissing : ¬ WordAt m (slot argv args.length) → ∀ args', args'.length < args.length + (fuel + 1) →
        FirstArgs m argv args' → ¬ Stops m argv args'.length := by
      intro hword args' _ hfirst'
      refine hfirst.stuck (fun s hs => hword hs.there) ?_ hfirst'
      rintro (hfails | hend)
      · exact hword hfails.there
      · exact hword hend.there
    refine Spec.bind (Sys.spec_loadWord (hload _) hmissing) ?_
    rintro arg _ ⟨harg, hword, rfl⟩
    replace harg : pointer m argv args.length = arg := harg
    by_cases h0 : arg = 0
    · rw [if_pos h0]
      refine Spec.pure ⟨⟨fun h => (by cases h), fun argc hargc => ?_⟩, rfl⟩
      exact ⟨args, Option.some.inj hargc, hfirst, hword, harg.trans h0⟩
    · rw [if_neg h0]
      have hnotNull : pointer m argv args.length ≠ 0 := harg ▸ h0
      by_cases hlow : arg < 0x80000000
      · rw [if_pos hlow]
        refine Spec.pure ⟨⟨fun _ => ?_, fun argc hargc => (by cases hargc)⟩, rfl⟩
        exact ⟨args, hfirst, hword, hnotNull, Or.inl (harg ▸ hlow)⟩
      · rw [if_neg hlow]
        have huser : 0x80000000 ≤ pointer m argv args.length := by omega
        have hlt : arg < 4294967296 := harg ▸ pointer_lt m argv args.length
        refine Spec.bind ((Sys.spec_userString_eq hload hlt).mono_error ?_) ?_
        · rintro _ _ ⟨hnot, rfl⟩ args' - hfirst'
          refine hfirst.stuck (fun s hs => hnot _ (harg ▸ hs.string)) ?_ hfirst'
          rintro (hfails | hend)
          · rcases hfails.outside with hlow' | ⟨n, hn, -⟩
            · omega
            · exact hnot n (harg ▸ hn)
          · exact hnotNull hend.null
        · rintro str _ ⟨⟨hat, hbytes⟩, rfl⟩
          by_cases hhigh : u32 (arg + str.length) ≥ 0xF0000000
          · rw [if_pos hhigh]
            refine Spec.pure ⟨⟨fun _ => ?_, fun argc hargc => (by cases hargc)⟩, rfl⟩
            refine ⟨args, hfirst, hword, hnotNull, Or.inr ⟨str.length, harg ▸ hat, ?_⟩⟩
            rw [harg]
            exact hhigh
          · rw [if_neg hhigh]
            have hbound : u32 (pointer m argv args.length + str.length) < 0xF0000000 := by
              rw [harg]
              omega
            have hnext := ih (args ++ [str])
              (hfirst.append ⟨hword, huser, harg ▸ hat, harg ▸ hbytes, hbound⟩)
            rw [List.length_append, List.length_singleton] at hnext
            refine hnext.mono_error fun _ _ hstuck args' hlt' => hstuck args' ?_
            omega

/-- Bytes that are there are read. -/
theorem spec_loadBytes {E : Sys.Stop → Machine → Prop} (hload : ∀ a, P (.load a)) : ∀ n a,
    a < 4294967296 → (∀ k, k < n → m.covered (u32 (a + k)) = true) →
    Spec P (Sys.loadBytes n a) m (fun _ m' => m = m') E := by
  intro n
  induction n with
  | zero => exact fun _ _ _ => Spec.pure rfl
  | succ n ih =>
    intro a ha hcovered
    have hfirst := hcovered 0 (Nat.succ_pos n)
    rw [Nat.add_zero, u32_of_lt ha] at hfirst
    refine Spec.bind (Sys.spec_loadByte (hload a) fun hnot => absurd hfirst hnot) ?_
    rintro _ _ ⟨-, -, rfl⟩
    refine ih _ (u32_lt _) fun k hk => ?_
    rw [u32_next]
    exact hcovered (k + 1) (by omega)

theorem copied_cons (heap : Heap) (s : List UInt8) (args : List (List UInt8)) :
    (copied heap (s :: args)).isSome ↔ ∃ heap', newChars heap (u32 (s.length + 1)) = some heap' ∧
      s.length + 1 < 0x80000000 ∧ (copied heap' args).isSome := by
  rw [copied]
  cases newChars heap (u32 (s.length + 1)) with
  | none =>
    constructor
    · intro h
      cases h
    · rintro ⟨heap', h, -⟩
      cases h
  | some heap' =>
    rw [Option.bind_some]
    by_cases hlong : 0x80000000 ≤ s.length + 1
    · rw [if_pos hlong]
      constructor
      · intro h
        cases h
      · rintro ⟨_, -, hshort, -⟩
        omega
    · rw [if_neg hlong]
      constructor
      · exact fun h => ⟨heap', rfl, by omega, h⟩
      · rintro ⟨_, heq, -, h⟩
        obtain rfl := Option.some.inj heq
        exact h

/-- **The copy** gives the arguments, if the heap has blocks for them. -/
theorem spec_copyArgs (hload : ∀ a, P (.load a)) (hfirst : FirstArgs m argv args) : ∀ n i heap,
    i + n = args.length →
    Spec P (copyArgs argv n i heap) m
      (fun l m' => (l = args.drop i ∧ (copied heap (args.drop i)).isSome) ∧ m = m')
      fun _ _ => ¬ (copied heap (args.drop i)).isSome := by
  intro n
  induction n with
  | zero =>
    intro i heap hi
    rw [List.drop_eq_nil_of_le (by omega)]
    exact Spec.pure ⟨⟨rfl, rfl⟩, rfl⟩
  | succ n ih =>
    intro i heap hi
    have hlt : i < args.length := by omega
    have harg := hfirst i hlt
    rw [List.drop_eq_getElem_cons hlt, copied_cons]
    refine Spec.bind (Sys.spec_loadWord (hload _) fun hnot => absurd harg.there hnot) ?_
    rintro arg _ ⟨heq, -, rfl⟩
    replace heq : pointer m argv i = arg := heq
    have hword : arg < 4294967296 := heq ▸ pointer_lt m argv i
    have hat : StringAt m arg args[i].length := heq ▸ harg.string
    refine Spec.bind ((Sys.spec_userString_eq hload hword).mono_error ?_) ?_
    · rintro _ _ ⟨hnot, -⟩
      exact absurd hat (hnot _)
    rintro str _ ⟨⟨hstr, hbytes⟩, rfl⟩
    have hsame : str = args[i] := by
      rw [hbytes, hstr.unique hat, harg.bytes, bytesAt, heq, Sys.bytesAt_length]
      rfl
    rw [← hsame]
    cases hnew : newChars heap (u32 (str.length + 1)) with
    | none =>
      refine Spec.stop ?_
      rintro ⟨heap', h, -⟩
      cases h
    | some heap' =>
      by_cases hlong : 0x80000000 ≤ str.length + 1
      · simp only [if_pos hlong]
        refine Spec.stop ?_
        rintro ⟨_, -, hshort, -⟩
        omega
      · simp only [if_neg hlong]
        refine Spec.bind (spec_loadBytes hload _ _ hword fun k hk => ?_) ?_
        · rcases Nat.lt_succ_iff_lt_or_eq.1 hk with hlt' | rfl
          · exact (hstr.1 k hlt').1
          · exact hstr.2.1
        rintro _ _ rfl
        refine Spec.bind ((ih (i + 1) heap' (by omega)).mono_error ?_) ?_
        · rintro _ _ hnot ⟨_, heq', -, h⟩
          obtain rfl := Option.some.inj heq'
          exact hnot h
        rintro rest _ ⟨⟨hrest, hcopied⟩, rfl⟩
        exact Spec.pure ⟨⟨congrArg (str :: ·) hrest, heap', rfl, by omega, hcopied⟩, rfl⟩

/-! ## The result -/

theorem storesAbove_load (a : Nat) : StoresAbove (.load a) := by
  intro b hb
  cases hb

/-- **The part that reads**, of a process that can be read as it is. -/
theorem spec_prepare (k : Kernel) (m : Machine) (argv : Nat) (hpath : path < 4294967296) :
    Spec StoresAbove (prepare k path argv) m
      (fun r m' => Prepared k m path argv r ∧ m = m') fun _ _ => ∀ r, ¬ Prepared k m path argv r := by
  refine Spec.bind Sys.spec_getState ?_
  rintro _ _ ⟨rfl, rfl⟩
  have hlooked : ∀ r, Prepared k m path argv r → ∃ l, Looked m path l ∧ l ≠ .stops := by
    rintro r ⟨-, hr, -⟩
    cases r with
    | none =>
      rcases hr with hnull | ⟨program, hnode, -⟩
      · exact ⟨_, hnull, fun h => by cases h⟩
      · exact ⟨_, hnode, fun h => by cases h⟩
    | some p => exact ⟨_, hr.1, fun h => by cases h⟩
  refine Spec.bind ((Sys.spec_userString_eq storesAbove_load hpath).mono_error ?_) ?_
  · rintro _ _ ⟨hnot, -⟩ r hr
    obtain ⟨_, ⟨n, hn, -⟩, -⟩ := hlooked r hr
    exact hnot n hn
  rintro name _ ⟨⟨hat, hname⟩, rfl⟩
  cases hfinds : k.finds with
  | false =>
    refine Spec.stop fun r hr => ?_
    rw [hr.finds] at hfinds
    cases hfinds
  | true =>
  refine Spec.bind (Sys.spec_find fun hstops r hr => ?_) ?_
  · obtain ⟨l, hl, hne⟩ := hlooked r hr
    refine hne (hl.unique ⟨_, hat, ?_⟩)
    rw [← hname]
    exact hstops
  rintro found _ ⟨hfind, rfl⟩
  have hl : Looked m path (found.elim .null .node) := by
    refine ⟨_, hat, ?_⟩
    rw [← hname]
    exact hfind
  cases found with
  | none => exact Spec.pure ⟨⟨hfinds, Or.inl hl, fun p hp => by cases hp⟩, rfl⟩
  | some program =>
    have hcheck := spec_checkArgs m argv storesAbove_load 4294967296 [] FirstArgs.nil
    refine Spec.bind (hcheck.mono_error ?_) ?_
    · rintro _ _ hstuck r ⟨-, hr, -⟩
      have hstops : ∃ args, FirstArgs m argv args ∧ Stops m argv args.length := by
        cases r with
        | none =>
          rcases hr with hnull | ⟨_, -, args, hfirst, hfails⟩
          · cases hnull.unique hl
          · exact ⟨args, hfirst, Or.inl hfails⟩
        | some p => exact ⟨p.2, hr.2.1, Or.inr hr.2.2⟩
      obtain ⟨args, hfirst, hstop⟩ := hstops
      have hlt := hfirst.length_lt hstop
      exact hstuck args (by rw [List.length_nil]; omega) hfirst hstop
    rintro argc _ ⟨⟨hrefused, hgiven⟩, rfl⟩
    cases argc with
    | none => exact Spec.pure ⟨⟨hfinds, Or.inr ⟨program, hl, hrefused rfl⟩, fun p hp => by cases hp⟩, rfl⟩
    | some argc =>
      obtain ⟨args, rfl, hfirst, hend⟩ := hgiven argc rfl
      -- nothing else can come back
      have hfound : Found m path argv (some (program, args)) := ⟨hl, hfirst, hend⟩
      have honly : ∀ r, Prepared k m path argv r → k.Copies args := fun r hr =>
        hr.copies _ (hr.found.unique hfound)
      by_cases harray : k.stackWords < args.length + 1
      · simp only [if_pos harray]
        refine Spec.stop fun r hr => ?_
        have hroom := (honly r hr).array
        omega
      · simp only [if_neg harray]
        have hcopy := spec_copyArgs storesAbove_load hfirst args.length 0 k.heap (Nat.zero_add _)
        refine Spec.bind (hcopy.mono_error ?_) ?_
        · exact fun _ _ hnot r hr => hnot (honly r hr).strings
        rintro kArgv _ ⟨⟨rfl, hcopied⟩, rfl⟩
        refine Spec.pure ⟨⟨hfinds, ⟨hl, hfirst, hend⟩, fun p hp => ?_⟩, rfl⟩
        obtain rfl := Option.some.inj hp
        exact ⟨Nat.le_of_not_lt harray, hcopied⟩

/-- **What comes back before the address space is cleared** is `Prepared`, and if nothing comes back, nothing
    is. -/
theorem spec_reading (k : Kernel) (m : Machine) (argv : Nat) (hpath : path < 4294967296) :
    Spec StoresAbove (k.reading (prepare k path argv)) m
      (fun r m' => Prepared k (within m k.pages) path argv r ∧ m = m')
      fun _ _ => ∀ r, ¬ Prepared k (within m k.pages) path argv r := by
  have hspec := spec_prepare k (within m k.pages) argv hpath
  exact ⟨hspec.log, fun r hr => ⟨(hspec.ok r hr).1, rfl⟩, fun e he => hspec.error e he⟩

end Exec

end BadApple
