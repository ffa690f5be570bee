/-
  Lazy strings and the lists that they stand for.

  1. **Correct strings** — `Correct s l`: every index below the length has its character, and `toC` gives
     the list with a NUL behind it.  This says that the length is right, leaves room for the NUL in a
     word, and that the characters are (`correct_iff`).
  2. **Operations** — each keeps this, a slice as long as its last index lies in the string.  The checks of
     its constructor let the index behind the string through as well (`sliced_behind`).
  3. **Expressions** — all strings that are built on the way are correct just if no slice was taken up to
     the index behind its string, and no string is too long (`good_iff`).
-/
import BadApple.Utils.StringImpl
import Mathlib.Data.List.Basic

namespace BadApple.Utils

variable {s t : StringImpl} {l r : List UInt8} {n i start stop : Nat} {c c' : UInt8} {work : UInt8 → Bool}

/-! ## Correct strings -/

/-- The string has the characters of the list, and gives them to C. -/
def Correct (s : StringImpl) (l : List UInt8) : Prop :=
  (∀ i, i < s.length → ∃ c, s.charAt i = some c ∧ l[i]? = some c) ∧ s.toC = some (l ++ [0])

theorem StringImpl.fill_eq_some_iff : ∀ {n : Nat} {l : List UInt8},
    s.fill n = some l ↔ l.length = n ∧ ∀ i < n, s.charAt i = l[i]? := by
  intro n
  induction n with
  | zero =>
    intro l
    rw [fill, Option.some_inj]
    constructor
    · rintro rfl
      exact ⟨rfl, fun i hi => absurd hi (by omega)⟩
    · rintro ⟨hlen, _⟩
      exact (List.length_eq_zero_iff.1 hlen).symm
  | succ n ih =>
    intro l
    rw [fill]
    simp only [Option.bind_eq_bind, Option.bind_eq_some_iff, Option.pure_def, Option.some_inj]
    constructor
    · rintro ⟨data, hdata, ch, hch, rfl⟩
      obtain ⟨hlen, hall⟩ := ih.1 hdata
      refine ⟨by rw [List.length_append, hlen]; rfl, fun i hi => ?_⟩
      rcases Nat.lt_or_eq_of_le (Nat.le_of_lt_succ hi) with hlt | rfl
      · rw [List.getElem?_append_left (by omega)]
        exact hall i hlt
      · rw [← hlen, List.getElem?_concat_length, hlen]
        exact hch
    · rintro ⟨hlen, hall⟩
      refine ⟨l.take n, ih.2 ⟨by rw [List.length_take]; omega, fun i hi => ?_⟩, l[n], ?_, ?_⟩
      · rw [List.getElem?_take_of_lt hi]
        exact hall i (by omega)
      · rw [hall n (by omega), List.getElem?_eq_getElem]
      · rw [List.take_append_getElem, List.take_of_length_le (by omega)]

/-- **What it takes to be correct.** -/
theorem correct_iff :
    Correct s l ↔ s.length = l.length ∧ l.length + 1 < 4294967296 ∧ ∀ i < l.length, s.charAt i = l[i]? := by
  have hlt := s.length_lt
  unfold Correct StringImpl.toC
  constructor
  · rintro ⟨_, hC⟩
    by_cases hzero : u32 (s.length + 1) = 0
    · rw [if_pos hzero] at hC
      cases hC
    · rw [if_neg hzero, Option.map_eq_some_iff] at hC
      obtain ⟨data, hdata, heq⟩ := hC
      obtain rfl := List.append_cancel_right heq
      obtain ⟨hlen, hall⟩ := StringImpl.fill_eq_some_iff.1 hdata
      rw [u32_eq] at hzero
      exact ⟨hlen.symm, by omega, hlen ▸ hall⟩
  · rintro ⟨hlen, hroom, hall⟩
    refine ⟨fun i hi => ?_, ?_⟩
    · rw [hall i (by omega)]
      exact ⟨l[i], List.getElem?_eq_getElem (by omega), List.getElem?_eq_getElem (by omega)⟩
    · rw [if_neg (by rw [u32_of_lt (by omega)]; omega), StringImpl.fill_eq_some_iff.2 ⟨hlen.symm, hlen ▸ hall⟩]
      rfl

theorem Correct.length_eq (h : Correct s l) : s.length = l.length := (correct_iff.1 h).1

theorem Correct.room (h : Correct s l) : l.length + 1 < 4294967296 := (correct_iff.1 h).2.1

theorem Correct.charAt (h : Correct s l) (hi : i < l.length) : s.charAt i = l[i]? := (correct_iff.1 h).2.2 i hi

/-! ## Operations -/

theorem empty_correct : Correct .empty [] :=
  correct_iff.2 ⟨rfl, by decide, fun _ hi => absurd hi (Nat.not_lt_zero _)⟩

theorem simple_correct (h : l.length < 4294967296) (hroom : l.length + 1 < 4294967296) :
    Correct (.simple l h) l := correct_iff.2 ⟨rfl, hroom, fun _ _ => rfl⟩

theorem add_correct (hs : Correct s l) (ht : Correct t r) (hroom : l.length + r.length + 1 < 4294967296) :
    Correct (s.add t) (l ++ r) := by
  have hsl := hs.length_eq
  have htr := ht.length_eq
  unfold StringImpl.add
  by_cases hzero : s.length = 0
  · rw [if_pos hzero]
    obtain rfl : l = [] := List.length_eq_zero_iff.1 (by omega)
    exact ht
  · rw [if_neg hzero]
    by_cases hzero' : t.length = 0
    · rw [if_pos hzero']
      obtain rfl : r = [] := List.length_eq_zero_iff.1 (by omega)
      rw [List.append_nil]
      exact hs
    · rw [if_neg hzero']
      have hlen : (StringImpl.concat s t).length = l.length + r.length := by
        rw [StringImpl.length, hsl, htr]
        exact u32_of_lt (by omega)
      refine correct_iff.2 ⟨by rw [hlen, List.length_append], by rw [List.length_append]; omega, fun i hi => ?_⟩
      rw [List.length_append] at hi
      rw [StringImpl.charAt, if_pos (by omega)]
      by_cases hleft : i < s.length
      · rw [if_pos hleft, hs.charAt (by omega), List.getElem?_append_left (by omega)]
      · rw [if_neg hleft, ht.charAt (by omega), List.getElem?_append_right (by omega), hsl]

theorem replaced_correct (hs : Correct s l) :
    Correct (s.replaced c c') (l.map fun ch => if ch = c then c' else ch) := by
  have hsl := hs.length_eq
  have hroom := hs.room
  unfold StringImpl.replaced
  by_cases hc : c = c'
  · rw [if_pos hc]
    have hid : (fun ch => if ch = c then c' else ch) = id := by
      funext ch
      by_cases hch : ch = c
      · rw [if_pos hch, hch, hc]
        rfl
      · rw [if_neg hch]
        rfl
    rw [hid, List.map_id]
    exact hs
  · rw [if_neg hc]
    refine correct_iff.2 ⟨by rw [List.length_map]; exact hsl, by rw [List.length_map]; exact hroom, fun i hi => ?_⟩
    rw [List.length_map] at hi
    rw [StringImpl.charAt, if_pos (by omega), hs.charAt hi, List.getElem?_map]

/-- The last index lies in the string, or the slice is empty, or it is all of an empty string. -/
def Inside (n start stop : Nat) : Prop := stop < n ∨ stop < start ∨ (n = 0 ∧ start = 0 ∧ stop = 4294967295)

/-- **A slice** whose last index lies in the string. -/
theorem sliced_correct (start stop : Nat) (hs : Correct s l) (hin : Inside l.length start stop) :
    ∃ t, s.sliced start stop = .ok t ∧
      Correct t (if start > stop then [] else (l.drop start).take (stop - start + 1)) := by
  have hsl := hs.length_eq
  have hroom := hs.room
  unfold StringImpl.sliced
  by_cases hall : start = 0 ∧ stop = u32 (s.length + 4294967295)
  · rw [if_pos hall]
    refine ⟨s, rfl, ?_⟩
    obtain ⟨rfl, hstop⟩ := hall
    rw [u32_eq, hsl] at hstop
    rw [if_neg (by omega), List.drop_zero, List.take_of_length_le (by omega)]
    exact hs
  · rw [if_neg hall]
    by_cases hempty : start > stop
    · rw [if_pos hempty, if_pos hempty]
      exact ⟨_, rfl, simple_correct _ (by decide)⟩
    · rw [if_neg hempty, if_neg hempty]
      have hstop : stop < l.length := by
        rcases hin with h | h | ⟨hn, h0, hmax⟩
        · exact h
        · omega
        · exact absurd ⟨h0, by rw [u32_eq, hsl, hn]; exact hmax⟩ hall
      have hlen : (StringImpl.slice s start stop).length = stop - start + 1 := by
        rw [StringImpl.length, u32_eq]
        omega
      refine ⟨.slice s start stop, by rw [StringImpl.newSlice, if_pos ⟨by omega, by omega, by omega⟩], ?_⟩
      have htake : ((l.drop start).take (stop - start + 1)).length = stop - start + 1 := by
        rw [List.length_take, List.length_drop]
        omega
      refine correct_iff.2 ⟨by rw [hlen, htake], by omega, fun i hi => ?_⟩
      rw [htake] at hi
      rw [StringImpl.charAt, if_pos (by omega), u32_of_lt (by omega), hs.charAt (by omega),
        List.getElem?_take_of_lt hi, List.getElem?_drop, Nat.add_comm]

/-- **Only such a slice** is correct when it is built. -/
theorem inside_of_sliced (hs : Correct s l) (hword : stop < 4294967296) (ht : s.sliced start stop = .ok t)
    (hcorrect : Correct t (if start > stop then [] else (l.drop start).take (stop - start + 1))) :
    Inside l.length start stop := by
  have hsl := hs.length_eq
  have hroom := hs.room
  unfold StringImpl.sliced at ht
  by_cases hall : start = 0 ∧ stop = u32 (s.length + 4294967295)
  · obtain ⟨rfl, hstop⟩ := hall
    rw [u32_eq, hsl] at hstop
    unfold Inside
    omega
  · rw [if_neg hall] at ht
    by_cases hempty : start > stop
    · exact Or.inr (Or.inl hempty)
    · rw [if_neg hempty] at ht hcorrect
      unfold StringImpl.newSlice at ht
      by_cases hbounds : (StringImpl.slice s start stop).length ≤ s.length ∧ start ≤ s.length ∧ stop ≤ s.length
      · rw [if_pos hbounds] at ht
        obtain rfl := Except.ok.inj ht
        have hlen := hcorrect.length_eq
        rw [List.length_take, List.length_drop, StringImpl.length, u32_eq] at hlen
        unfold Inside
        omega
      · rw [if_neg hbounds] at ht
        cases ht

/-- The constructor lets a slice up to the index behind the string through, and the last index of that slice
    fails. -/
theorem sliced_behind (start : Nat) (hs : Correct s l) (hstart : 1 ≤ start) (hle : start ≤ l.length) :
    ∃ t, s.sliced start l.length = .ok t ∧ l.length - start < t.length ∧ t.charAt (l.length - start) = none := by
  have hsl := hs.length_eq
  have hroom := hs.room
  have hlen : (StringImpl.slice s start l.length).length = l.length - start + 1 := by
    rw [StringImpl.length, u32_eq]
    omega
  have hnone : ∀ s : StringImpl, s.charAt s.length = none := by
    intro s
    cases s with
    | empty => rfl
    | simple buffer _ => exact List.getElem?_eq_none (Nat.le_refl _)
    | concat _ _ => exact if_neg (Nat.lt_irrefl _)
    | replace _ _ _ => exact if_neg (Nat.lt_irrefl _)
    | slice _ _ _ => exact if_neg (Nat.lt_irrefl _)
  refine ⟨.slice s start l.length, ?_, by omega, ?_⟩
  · rw [StringImpl.sliced, if_neg (by omega), if_neg (by omega), StringImpl.newSlice,
      if_pos ⟨by omega, by omega, by omega⟩]
  · rw [StringImpl.charAt, if_pos (by omega), u32_of_lt (by omega), Nat.sub_add_cancel hle, ← hsl]
    exact hnone s

/-- Both loops look at the characters of the list. -/
theorem Correct.head (hs : Correct s l) (hi : i < l.length) :
    ∃ ch, s.charAt i = some ch ∧ l.drop i = ch :: l.drop (i + 1) :=
  ⟨l[i], by rw [hs.charAt hi, List.getElem?_eq_getElem], List.drop_eq_getElem_cons hi⟩

theorem dropLoop_succ {ch : UInt8} (h : s.charAt i = some ch) : s.dropLoop work (n + 1) i =
    if work ch then s.dropLoop work n (i + 1) else s.sliced i (u32 (s.length + 4294967295)) := by
  rw [StringImpl.dropLoop, h]

theorem keepLoop_succ {ch : UInt8} (h : s.charAt i = some ch) : s.keepLoop work (n + 1) i =
    if work ch then s.keepLoop work n (i + 1) else if i = 0 then .ok .empty else s.sliced 0 (i - 1) := by
  rw [StringImpl.keepLoop, h]

theorem dropLoop_correct (hs : Correct s l) : ∀ {n i : Nat}, i + n = l.length →
    ∃ t, s.dropLoop work n i = .ok t ∧ Correct t ((l.drop i).dropWhile work) := by
  have hsl := hs.length_eq
  have hroom := hs.room
  intro n
  induction n with
  | zero =>
    intro i hi
    rw [List.drop_of_length_le (by omega)]
    exact ⟨.empty, rfl, empty_correct⟩
  | succ n ih =>
    intro i hi
    obtain ⟨ch, hch, hdrop⟩ := hs.head (i := i) (by omega)
    rw [dropLoop_succ hch]
    cases hwork : work ch with
    | true =>
      rw [if_pos rfl, hdrop, List.dropWhile_cons_of_pos hwork]
      exact ih (by omega)
    | false =>
      rw [if_neg Bool.false_ne_true, hdrop, List.dropWhile_cons_of_neg (by rw [hwork]; exact Bool.false_ne_true), ← hdrop]
      have hlast : u32 (s.length + 4294967295) = l.length - 1 := by
        rw [u32_eq]
        omega
      obtain ⟨t, ht, hcorrect⟩ := sliced_correct i (l.length - 1) hs (Or.inl (by omega))
      rw [if_neg (by omega), List.take_of_length_le (by rw [List.length_drop]; omega)] at hcorrect
      exact ⟨t, by rw [hlast]; exact ht, hcorrect⟩

theorem dropWhile_correct (work : UInt8 → Bool) (hs : Correct s l) :
    ∃ t, s.dropWhile work = .ok t ∧ Correct t (l.dropWhile work) :=
  dropLoop_correct hs (i := 0) (by rw [hs.length_eq, Nat.zero_add])

theorem keepLoop_correct (hs : Correct s l) : ∀ {n i : Nat}, i + n = l.length →
    ∃ t, s.keepLoop work n i = .ok t ∧ Correct t (l.take i ++ (l.drop i).takeWhile work) := by
  intro n
  induction n with
  | zero =>
    intro i hi
    rw [List.drop_of_length_le (by omega), List.take_of_length_le (by omega), List.takeWhile_nil, List.append_nil]
    exact ⟨s, rfl, hs⟩
  | succ n ih =>
    intro i hi
    obtain ⟨ch, hch, hdrop⟩ := hs.head (i := i) (by omega)
    rw [keepLoop_succ hch, hdrop]
    cases hwork : work ch with
    | true =>
      obtain ⟨t, ht, hcorrect⟩ := ih (i := i + 1) (by omega)
      refine ⟨t, by rw [if_pos rfl]; exact ht, ?_⟩
      have htake : l.take (i + 1) = l.take i ++ [ch] := by
        rw [List.take_add_one, ← hs.charAt (i := i) (by omega), hch]
        rfl
      rw [htake, List.append_assoc, List.singleton_append] at hcorrect
      rw [List.takeWhile_cons_of_pos hwork]
      exact hcorrect
    | false =>
      rw [List.takeWhile_cons_of_neg (by rw [hwork]; exact Bool.false_ne_true), List.append_nil]
      rcases Nat.eq_zero_or_pos i with rfl | hpos
      · exact ⟨.empty, rfl, empty_correct⟩
      · obtain ⟨t, ht, hcorrect⟩ := sliced_correct 0 (i - 1) hs (Or.inl (by omega))
        rw [if_neg (by omega), List.drop_zero, show i - 1 - 0 + 1 = i by omega] at hcorrect
        refine ⟨t, ?_, hcorrect⟩
        rw [if_neg Bool.false_ne_true, if_neg (by omega)]
        exact ht

theorem keepWhile_correct (work : UInt8 → Bool) (hs : Correct s l) :
    ∃ t, s.keepWhile work = .ok t ∧ Correct t (l.takeWhile work) :=
  keepLoop_correct hs (i := 0) (by rw [hs.length_eq, Nat.zero_add])

/-- `starts_with` on a correct string. -/
theorem startsWith_correct (hs : Correct s l) : s.startsWith c = some (l.head? == some c) := by
  have hsl := hs.length_eq
  unfold StringImpl.startsWith
  cases l with
  | nil =>
    rw [if_neg (by rw [hsl]; exact Nat.lt_irrefl 0)]
    rfl
  | cons ch rest =>
    rw [if_pos (by rw [hsl]; exact Nat.zero_lt_succ _), hs.charAt (Nat.zero_lt_succ _)]
    rfl

/-! ## Expressions -/

namespace Expr

/-- The string is built, and is correct. -/
def Good (e : Expr) : Prop := ∃ s, e.eval = .ok s ∧ Correct s e.meaning

/-- The last operation takes no slice beyond the last index, and the list has room for a NUL behind it. -/
def Fits (e : Expr) : Prop :=
  e.meaning.length + 1 < 4294967296 ∧
    ∀ base start stop, e = .slice base start stop → Inside base.meaning.length start.toNat stop.toNat

/-- The strings that the last operation takes. -/
def operands : Expr → List Expr
  | .none => []
  | .lit _ _ => []
  | .add lhs rhs => [lhs, rhs]
  | .replace base _ _ => [base]
  | .slice base _ _ => [base]
  | .dropWhile base _ => [base]
  | .keepWhile base _ => [base]

variable {e p : Expr}

/-- The induction over the strings that are built. -/
theorem operands_induct {P : Expr → Prop} (h : ∀ e, (∀ o ∈ e.operands, P o) → P e) : ∀ e, P e := by
  intro e
  induction e with
  | none => exact h _ (by simp [operands])
  | lit _ _ => exact h _ (by simp [operands])
  | add _ _ ihl ihr => exact h _ (by simpa [operands] using ⟨ihl, ihr⟩)
  | replace _ _ _ ih => exact h _ (by simpa [operands] using ih)
  | slice _ _ _ ih => exact h _ (by simpa [operands] using ih)
  | dropWhile _ _ ih => exact h _ (by simpa [operands] using ih)
  | keepWhile _ _ ih => exact h _ (by simpa [operands] using ih)

theorem mem_parts_iff : p ∈ e.parts ↔ p = e ∨ ∃ o ∈ e.operands, p ∈ o.parts := by
  cases e <;> simp [parts, operands]

theorem Good.room (h : e.Good) : e.meaning.length + 1 < 4294967296 := by
  obtain ⟨s, _, hs⟩ := h
  exact hs.room

/-- **One operation**: on correct strings, it gives a correct one just if it fits. -/
theorem good_iff_fits (hops : ∀ o ∈ e.operands, o.Good) : e.Good ↔ e.Fits := by
  -- all but a slice fit when there is room
  have hother : (∀ base start stop, e ≠ .slice base start stop) → (e.Fits ↔ e.meaning.length + 1 < 4294967296) :=
    fun hne => ⟨And.left, fun h => ⟨h, fun base start stop heq => absurd heq (hne base start stop)⟩⟩
  cases e with
  | none => exact ⟨fun h => (hother fun _ _ _ h => Expr.noConfusion h).2 h.room, fun _ => ⟨.empty, rfl, empty_correct⟩⟩
  | lit cs h =>
    rw [hother fun _ _ _ h => Expr.noConfusion h]
    exact ⟨Good.room, fun hroom => ⟨.simple cs h, rfl, simple_correct h hroom⟩⟩
  | add lhs rhs =>
    rw [hother fun _ _ _ h => Expr.noConfusion h]
    obtain ⟨s, hs, hsl⟩ := hops lhs (by simp [operands])
    obtain ⟨t, ht, htr⟩ := hops rhs (by simp [operands])
    refine ⟨Good.room, fun hroom => ⟨s.add t, ?_, add_correct hsl htr ?_⟩⟩
    · rw [eval, hs, ht]
      rfl
    · rw [meaning, List.length_append] at hroom
      exact hroom
  | replace base c c' =>
    rw [hother fun _ _ _ h => Expr.noConfusion h]
    obtain ⟨s, hs, hsl⟩ := hops base (by simp [operands])
    refine ⟨Good.room, fun _ => ⟨s.replaced c c', ?_, replaced_correct hsl⟩⟩
    rw [eval, hs]
    rfl
  | slice base start stop =>
    obtain ⟨s, hs, hsl⟩ := hops base (by simp [operands])
    have heval : (Expr.slice base start stop).eval = s.sliced start.toNat stop.toNat := by
      rw [eval, hs]
      rfl
    constructor
    · rintro ⟨t, ht, hcorrect⟩
      refine ⟨hcorrect.room, fun base' start' stop' heq => ?_⟩
      obtain ⟨rfl, rfl, rfl⟩ := Expr.slice.inj heq
      exact inside_of_sliced hsl stop.toNat_lt (heval ▸ ht) hcorrect
    · rintro ⟨_, hin⟩
      obtain ⟨t, ht, hcorrect⟩ := sliced_correct _ _ hsl (hin base start stop rfl)
      exact ⟨t, heval.trans ht, hcorrect⟩
  | dropWhile base work =>
    rw [hother fun _ _ _ h => Expr.noConfusion h]
    obtain ⟨s, hs, hsl⟩ := hops base (by simp [operands])
    obtain ⟨t, ht, hcorrect⟩ := dropWhile_correct work hsl
    refine ⟨Good.room, fun _ => ⟨t, ?_, hcorrect⟩⟩
    rw [eval, hs]
    exact ht
  | keepWhile base work =>
    rw [hother fun _ _ _ h => Expr.noConfusion h]
    obtain ⟨s, hs, hsl⟩ := hops base (by simp [operands])
    obtain ⟨t, ht, hcorrect⟩ := keepWhile_correct work hsl
    refine ⟨Good.room, fun _ => ⟨t, ?_, hcorrect⟩⟩
    rw [eval, hs]
    exact ht

/-- **Exactness**: all strings that are built on the way are correct just if all operations fit. -/
theorem good_iff (e : Expr) : (∀ p ∈ e.parts, p.Good) ↔ ∀ p ∈ e.parts, p.Fits := by
  induction e using operands_induct with
  | h e ih =>
    -- the operands are correct just if all that is before them fits
    have hsplit : ∀ P : Expr → Prop, (∀ p ∈ e.parts, P p) ↔ P e ∧ ∀ o ∈ e.operands, ∀ p ∈ o.parts, P p := by
      intro P
      constructor
      · intro h
        exact ⟨h e (mem_parts_iff.2 (Or.inl rfl)), fun o ho p hp => h p (mem_parts_iff.2 (Or.inr ⟨o, ho, hp⟩))⟩
      · rintro ⟨he, hops⟩ p hp
        rcases mem_parts_iff.1 hp with rfl | ⟨o, ho, hp⟩
        · exact he
        · exact hops o ho p hp
    have hself : ∀ o : Expr, (∀ p ∈ o.parts, p.Good) → o.Good := fun o h => h o (mem_parts_iff.2 (Or.inl rfl))
    rw [hsplit, hsplit]
    constructor
    · rintro ⟨he, hops⟩
      exact ⟨(good_iff_fits fun o ho => hself o (hops o ho)).1 he, fun o ho => (ih o ho).1 (hops o ho)⟩
    · rintro ⟨he, hops⟩
      have hgood : ∀ o ∈ e.operands, ∀ p ∈ o.parts, p.Good := fun o ho => (ih o ho).2 (hops o ho)
      exact ⟨(good_iff_fits fun o ho => hself o (hgood o ho)).2 he, hgood⟩

theorem abc_length : [(0x61 : UInt8), 0x62, 0x63].length < 4294967296 := by decide

/-- `String("abc").slice(1, 3)`. -/
def abcSlice : Expr := .slice (.lit [0x61, 0x62, 0x63] abc_length) 1 3

/-- The constructor lets that slice through; its length is 3, and `at(2)` fails. -/
theorem abcSlice_not_correct : ∃ s, abcSlice.eval = .ok s ∧ ¬ Correct s abcSlice.meaning := by
  have habc : Correct (.simple [0x61, 0x62, 0x63] abc_length) [0x61, 0x62, 0x63] := simple_correct _ (by decide)
  obtain ⟨s, hs, hlen, hnone⟩ := sliced_behind 1 habc (by decide) (by decide)
  have hlast : s.charAt 2 = Option.none := hnone
  refine ⟨s, hs, fun hcorrect => ?_⟩
  obtain ⟨c, hc, _⟩ := hcorrect.1 2 hlen
  rw [hlast] at hc
  cases hc

end Expr

end BadApple.Utils
