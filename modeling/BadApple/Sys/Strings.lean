/-
  Reading the user's strings (kernel/sys.cc, kernel/libk.cc).

  1. **Specification** — `StringAt`: the string at an address, with its NUL, is there to be read; after the
     end of the address space it goes on at 0.  `StringInUser`: the address is the user's, and what is read
     from there on ends, at a NUL or at a page that is not there, before the address space does.
  2. **The results** — `spec_userString_eq`: a string that can be read is read, and nothing else is.
     `userString_iff`: no byte of the kernel's is read exactly for `StringInUser`.
-/
import BadApple.Sys.Rules

namespace BadApple

open Effects

namespace Sys

variable {m : Machine} {P : Access → Prop} {p n : Nat}

/-! ## Specification -/

/-- An access of memory above the kernel. -/
def AboveKernel : Access → Prop
  | .table _ _ => True
  | .load a => 0x80000000 ≤ a
  | .store a => 0x80000000 ≤ a

/-- The string at `p`, of length `n`, can be read. -/
def StringAt (m : Machine) (p n : Nat) : Prop :=
  (∀ k, k < n → m.covered (u32 (p + k)) = true ∧ m.mem (u32 (p + k)) ≠ 0) ∧
    m.covered (u32 (p + n)) = true ∧ m.mem (u32 (p + n)) = 0

/-- Reading a string from `p` on stays above the kernel. -/
def StringInUser (m : Machine) (p : Nat) : Prop :=
  0x80000000 ≤ p ∧ ∃ e, p ≤ e ∧ e < 4294967296 ∧ (m.covered e = false ∨ m.mem e = 0)

/-- The `n` bytes at `p`. -/
def bytesAt (m : Machine) (p n : Nat) : List UInt8 := (List.range n).map fun k => m.mem (u32 (p + k))

theorem bytesAt_succ (m : Machine) (hp : p < 4294967296) (n : Nat) :
    bytesAt m p (n + 1) = m.mem p :: bytesAt m (u32 (p + 1)) n := by
  rw [bytesAt, List.range_succ_eq_map, List.map_cons, List.map_map, Nat.add_zero, u32_of_lt hp]
  congr 1
  apply List.map_congr_left
  intro k _
  show m.mem (u32 (p + (k + 1))) = m.mem (u32 (u32 (p + 1) + k))
  rw [u32_next]

theorem bytesAt_length (m : Machine) (p n : Nat) : (bytesAt m p n).length = n := by
  simp [bytesAt]

/-- An empty string is its NUL. -/
theorem stringAt_zero (hp : p < 4294967296) : StringAt m p 0 ↔ m.covered p = true ∧ m.mem p = 0 := by
  rw [StringAt, Nat.add_zero, u32_of_lt hp]
  constructor
  · exact fun h => h.2
  · exact fun h => ⟨fun k hk => absurd hk (Nat.not_lt_zero k), h⟩

/-- Any other is one character and a string. -/
theorem stringAt_succ (hp : p < 4294967296) :
    StringAt m p (n + 1) ↔ (m.covered p = true ∧ m.mem p ≠ 0) ∧ StringAt m (u32 (p + 1)) n := by
  constructor
  · rintro ⟨hchars, hend⟩
    refine ⟨?_, ?_, ?_⟩
    · have h0 := hchars 0 (Nat.succ_pos n)
      rw [Nat.add_zero, u32_of_lt hp] at h0
      exact h0
    · intro k hk
      rw [u32_next]
      exact hchars (k + 1) (by omega)
    · rw [u32_next]
      exact hend
  · rintro ⟨hfirst, hchars, hend⟩
    constructor
    · intro k hk
      match k with
      | 0 =>
        rw [Nat.add_zero, u32_of_lt hp]
        exact hfirst
      | k + 1 =>
        rw [← u32_next]
        exact hchars k (by omega)
    · rw [← u32_next]
      exact hend

/-- A string that can be read has one length. -/
theorem StringAt.unique {n' : Nat} (h : StringAt m p n) (h' : StringAt m p n') : n = n' := by
  rcases Nat.lt_trichotomy n n' with hlt | heq | hgt
  · exact absurd h.2.2 (h'.1 n hlt).2
  · exact heq
  · exact absurd h'.2.2 (h.1 n' hgt).2

/-- It is not longer than the address space. -/
theorem StringAt.lt (h : StringAt m p n) : n < 4294967296 := by
  by_contra hlong
  have hsame : u32 (p + (n - 4294967296)) = u32 (p + n) := by
    simp only [u32_eq]
    omega
  have hchar := (h.1 (n - 4294967296) (by omega)).2
  rw [hsame] at hchar
  exact hchar h.2.2

/-- A string of the user's ends before the address space does. -/
theorem StringInUser.bound (h : StringInUser m p) (hn : StringAt m p n) : p + n < 4294967296 := by
  obtain ⟨-, e, hpe, he, hend⟩ := h
  by_contra hlong
  have hat := hn.1 (e - p) (by omega)
  rw [show p + (e - p) = e by omega, u32_of_lt he] at hat
  rcases hend with hend | hend
  · rw [hat.1] at hend
    cases hend
  · exact hat.2 hend

/-- What `find` makes of the string at `path`, from the current directory. -/
def Looked (m : Machine) (path : Nat) (l : Lookup) : Prop :=
  ∃ n, StringAt m path n ∧ m.fs.find m.stack (m.pcb.cwd.getD m.fs.root) (bytesAt m path n) = l

theorem Looked.unique {path : Nat} {l l' : Lookup} (h : Looked m path l) (h' : Looked m path l') :
    l = l' := by
  obtain ⟨n, hn, rfl⟩ := h
  obtain ⟨n', hn', rfl⟩ := h'
  rw [hn.unique hn']

/-! ## Reading -/

theorem spec_loadString_eq (hload : ∀ a, P (.load a)) : ∀ (fuel p : Nat), p < 4294967296 →
    Spec P (loadString fuel p) m
      (fun s m' => (StringAt m p s.length ∧ s = bytesAt m p s.length) ∧ m = m')
      fun _ m' => (∀ n, n < fuel → ¬ StringAt m p n) ∧ m = m' := by
  intro fuel
  induction fuel with
  | zero =>
    intro p _
    exact Spec.stop ⟨fun n hn => absurd hn (Nat.not_lt_zero n), rfl⟩
  | succ fuel ih =>
    intro p hp
    refine Spec.bind (spec_loadByte (hload p) fun hc => ⟨?_, rfl⟩) ?_
    · intro n _ hn
      cases n with
      | zero => exact hc ((stringAt_zero hp).1 hn).1
      | succ n => exact hc ((stringAt_succ hp).1 hn).1.1
    · rintro c _ ⟨hmem, hc, rfl⟩
      by_cases h0 : c = 0
      · rw [if_pos h0]
        exact Spec.pure ⟨⟨(stringAt_zero hp).2 ⟨hc, hmem.trans h0⟩, rfl⟩, rfl⟩
      · rw [if_neg h0]
        have hne : m.mem p ≠ 0 := by
          rw [hmem]
          exact h0
        refine Spec.bind ((ih _ (u32_lt _)).mono_error ?_) ?_
        · rintro _ _ ⟨hnot, rfl⟩
          refine ⟨?_, rfl⟩
          intro n hn hat
          cases n with
          | zero => exact hne ((stringAt_zero hp).1 hat).2
          | succ n => exact hnot n (by omega) ((stringAt_succ hp).1 hat).2
        · rintro rest _ ⟨⟨hat, hbytes⟩, rfl⟩
          refine Spec.pure ⟨⟨(stringAt_succ hp).2 ⟨⟨hc, hne⟩, hat⟩, ?_⟩, rfl⟩
          rw [List.length_cons, bytesAt_succ m hp, hmem, ← hbytes]

/-- **A string that can be read is read**; if none can be read, the call does not come back. -/
theorem spec_userString_eq (hload : ∀ a, P (.load a)) (hp : p < 4294967296) :
    Spec P (userString p) m
      (fun s m' => (StringAt m p s.length ∧ s = bytesAt m p s.length) ∧ m = m')
      fun _ m' => (∀ n, ¬ StringAt m p n) ∧ m = m' := by
  refine (spec_loadString_eq hload _ p hp).mono_error ?_
  rintro _ _ ⟨hnot, rfl⟩
  exact ⟨fun n hn => hnot n hn.lt hn, rfl⟩

/-- What reading a string comes to. -/
theorem userString_of_stringAt (hp : p < 4294967296) (h : StringAt m p n) :
    (userString p m).result = .ok (bytesAt m p n) ∧ (userString p m).state = m := by
  have hspec : Spec (fun _ => True) (userString p) m
      (fun s m' => s = bytesAt m p n ∧ m = m') fun _ _ => False := by
    refine (spec_userString_eq (fun _ => trivial) hp).mono (fun _ h => h) ?_ ?_
    · rintro s _ ⟨⟨hat, hbytes⟩, rfl⟩
      rw [hat.unique h] at hbytes
      exact ⟨hbytes, rfl⟩
    · rintro _ _ ⟨hnot, -⟩
      exact hnot n h
  obtain ⟨s, hs, rfl, hm⟩ := hspec.returns
  exact ⟨hs, hm.symm⟩

/-! ## Staying above the kernel -/

theorem logs_loadString (hload : ∀ a, 0x80000000 ≤ a → P (.load a)) : ∀ (fuel e p : Nat),
    0x80000000 ≤ p → p ≤ e → e < 4294967296 → (m.covered e = false ∨ m.mem e = 0) →
    Logs P (loadString fuel p) m := by
  intro fuel
  induction fuel with
  | zero => exact fun _ _ _ _ _ _ => Logs.stop
  | succ fuel ih =>
    intro e p hp hpe he hend
    refine Logs.bind (spec_loadByte (hload p hp) fun _ => trivial) ?_
    rintro c _ ⟨hmem, hc, rfl⟩
    by_cases h0 : c = 0
    · rw [if_pos h0]
      exact Logs.pure
    · rw [if_neg h0]
      -- the string does not end here, so it ends further on
      have hlt : p < e := by
        refine Nat.lt_of_le_of_ne hpe ?_
        rintro rfl
        rcases hend with hend | hend
        · rw [hc] at hend
          cases hend
        · exact h0 (hmem.symm.trans hend)
      rw [u32_of_lt (show p + 1 < 4294967296 by omega)]
      exact Logs.bind (ih e (p + 1) (by omega) hlt he hend) fun _ _ _ => Logs.pure

/-- `userString`, on a string that stays above the kernel. -/
theorem spec_userString_inUser (hload : ∀ a, 0x80000000 ≤ a → P (.load a)) (h : StringInUser m p) :
    Spec P (userString p) m
      (fun s m' => (StringAt m p s.length ∧ s = bytesAt m p s.length) ∧ m = m')
      fun _ m' => (∀ n, ¬ StringAt m p n) ∧ m = m' := by
  obtain ⟨hlow, e, hpe, he, hend⟩ := h
  have heq : Spec (fun _ => True) (userString p) m
      (fun s m' => (StringAt m p s.length ∧ s = bytesAt m p s.length) ∧ m = m')
      fun _ m' => (∀ n, ¬ StringAt m p n) ∧ m = m' := spec_userString_eq (fun _ => trivial) (by omega)
  exact ⟨(logs_loadString hload _ e p hlow hpe he hend).log, heq.ok, heq.error⟩

/-- A string that neither ends nor meets a missing page is read on at 0. -/
theorem loadString_touches_zero : ∀ (fuel p : Nat), p < 4294967296 → 4294967296 < p + fuel →
    (∀ e, p ≤ e → e < 4294967296 → m.covered e = true ∧ m.mem e ≠ 0) →
    Touches (loadString fuel p) m (.load 0) := by
  intro fuel
  induction fuel with
  | zero =>
    intro p hp hfuel _
    omega
  | succ fuel ih =>
    intro p hp hfuel hall
    obtain ⟨hc, hne⟩ := hall p (Nat.le_refl p) hp
    have hspec : Spec (fun _ => True) (loadByte p) m (fun c m' => m.mem p = c ∧ m = m') fun _ _ => False :=
      (spec_loadByte trivial (E := fun _ _ => False) fun h => h hc).mono (fun _ h => h)
        (fun _ _ h => ⟨h.1, h.2.2⟩) (fun _ _ h => h)
    obtain ⟨c, hres, hmem, hstate⟩ := hspec.returns
    have hc0 : ¬ c = 0 := by
      rw [← hmem]
      exact hne
    rw [loadString]
    refine Touches.right hres hstate.symm ?_
    rw [if_neg hc0]
    apply Touches.left
    by_cases hlast : p + 1 = 4294967296
    · rw [u32_of_wrap (by omega) (by omega), hlast, Nat.sub_self]
      cases fuel with
      | zero => omega
      | succ fuel =>
        rw [loadString, loadByte]
        exact Touches.left (Touches.left (List.mem_singleton.2 rfl))
    · rw [u32_of_lt (by omega)]
      exact ih (p + 1) (by omega) (by omega) fun e h1 h2 => hall e (by omega) h2

/-- **A string is read without reading the kernel exactly if it is the user's and ends before the address
    space does.** -/
theorem userString_iff (hp : p < 4294967296) :
    (∀ x ∈ (userString p m).log, AboveKernel x) ↔ StringInUser m p := by
  constructor
  · intro hlog
    have hlow : 0x80000000 ≤ p := by
      refine hlog (.load p) ?_
      show Touches (loadString (4294967295 + 1) p) m (.load p)
      rw [loadString, loadByte]
      exact Touches.left (Touches.left (List.mem_singleton.2 rfl))
    refine ⟨hlow, ?_⟩
    by_contra hnone
    have htouch : Touches (userString p) m (.load 0) := by
      refine loadString_touches_zero _ _ hp (by omega) ?_
      intro e hpe he
      constructor
      · by_contra hc
        exact hnone ⟨e, hpe, he, Or.inl (Bool.eq_false_iff.2 hc)⟩
      · intro h0
        exact hnone ⟨e, hpe, he, Or.inr h0⟩
    exact htouch.not_log (by simp [AboveKernel]) hlog
  · exact fun h => (spec_userString_inUser (fun _ h => h) h).log

end Sys

end BadApple
