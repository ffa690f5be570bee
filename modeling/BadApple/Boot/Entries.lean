/-
  The loop of `configInit` over the entries of the MADT.

  1. **Walks** — `Walk m p bytes qs`: following the length bytes from the record at `p` until the bytes are
     used up comes to the records `qs`, the one behind the bytes among them; no record that is left has
     length 0.  The loop ends just when there is such a walk (`terminates_iff`), and looks at just its
     records (`ends_of_walk`).
  2. **Well-formed tables** — the walk over a table whose entries are `es` comes to all entries but the
     first, and to whatever lies behind the table (`Entries.walk`).  The loop does what it is for on the
     table without entries, and on no other (`scanned_iff`).
  3. **Any table** — the loop ends with all stores inside of the array just if the walk exists and meets at
     most `MAX_PROCS` processors (`bounded_iff`).
-/
import BadApple.Boot.Config

namespace BadApple.Boot

open Memory Machine

variable {m : Mem} {s s' r : Scan} {config : Config} {madt p q n fuel : Nat} {bytes : Int} {qs es : List Nat}

/-! ## Walks -/

/-- The record that the length of the one at `p` leads to. -/
def next (m : Mem) (p : Nat) : Nat := u32 (p + entryLen m p)

/-- The records that the lengths lead to from the one at `p`, as long as there are bytes left. -/
inductive Walk (m : Mem) : Nat → Int → List Nat → Prop
  | done {p : Nat} {bytes : Int} : bytes ≤ 0 → Walk m p bytes []
  | step {p : Nat} {bytes : Int} {qs : List Nat} : 0 < bytes → entryLen m p ≠ 0 →
      Walk m (next m p) (bytes - entryLen m p) qs → Walk m p bytes (next m p :: qs)

/-- The scan after a round that looks at the record at `q`. -/
structure Examined (m : Mem) (s s' : Scan) (q : Nat) : Prop where
  entryPtr : s'.entryPtr = q
  config : s'.config = note m s.config q
  examined : s'.examined = s.examined ++ [q]
  reads : ∃ before behind, s'.reads = s.reads ++ (before ++ (bytesFrom q 1 ++ behind))
  stores : s'.stores = s.stores ++ if isProcessor m q then [s.config.nOtherProcs] else []

theorem entryLen_lt (m : Mem) (p : Nat) : entryLen m p < 256 := (byteAt m (p + 1)).toNat_lt

/-- The count of bytes left is an `int32_t`, and goes down. -/
theorem signed_unsigned {x : Int} (h : -2147483648 ≤ x) (h' : x < 2147483648) : signed (unsigned x) = x := by
  unfold signed unsigned
  split <;> omega

theorem entryBytes_lt (m : Mem) (madt : Nat) : entryBytes m madt < 2147483648 := by
  have h := u32_lt (sdtLength m madt + 4294967296 - madtSize)
  unfold entryBytes signed
  split <;> omega

/-- **One round**: the record that the length leads to is looked at, and the bytes of the one that is left
    are used up. -/
theorem round_goes (hpos : 0 < s.bytesForEntries) (hlt : s.bytesForEntries < 2147483648) :
    ∃ s', round m s = .inl s' ∧ Examined m s s' (next m s.entryPtr) ∧
      s'.bytesForEntries = s.bytesForEntries - entryLen m s.entryPtr := by
  have hlen := entryLen_lt m s.entryPtr
  obtain ⟨reads, heq⟩ := examine_eq m (advance m s)
  refine ⟨examine m (advance m s), by rw [round, if_pos hpos], ?_, ?_⟩
  · rw [heq]
    refine ⟨rfl, rfl, rfl, ⟨bytesFrom (s.entryPtr + 1) 1, reads, ?_⟩, rfl⟩
    exact List.append_assoc _ _ _
  · rw [heq]
    exact signed_unsigned (by omega) (by omega)

theorem round_leaves (h : s.bytesForEntries ≤ 0) : round m s = .inr s := by
  rw [round, if_neg (by omega)]

/-! ## What a walk leaves -/

/-- The indices that are stored at when the records `qs` are looked at, `n` being the count before. -/
def stored (m : Mem) : (n : Nat) → (qs : List Nat) → List Nat
  | _, [] => []
  | n, q :: qs => if isProcessor m q then n :: stored m (u32 (n + 1)) qs else stored m n qs

/-- The records among `qs` that describe processors. -/
def processors (m : Mem) (qs : List Nat) : List Nat := qs.filter (isProcessor m)

/-- The scan after a run that looks at the records `qs`. -/
structure Walked (m : Mem) (s r : Scan) (qs : List Nat) : Prop where
  config : r.config = qs.foldl (note m) s.config
  examined : r.examined = s.examined ++ qs
  stores : r.stores = s.stores ++ stored m s.config.nOtherProcs qs
  read : ∀ q ∈ qs, u32 q ∈ r.reads
  kept : ∀ a ∈ s.reads, a ∈ r.reads

theorem Walked.refl (m : Mem) (s : Scan) : Walked m s s [] :=
  ⟨rfl, (List.append_nil _).symm, (List.append_nil _).symm, fun _ h => absurd h List.not_mem_nil, fun _ h => h⟩

theorem Walked.cons (h : Examined m s s' q) (hw : Walked m s' r qs) : Walked m s r (q :: qs) := by
  obtain ⟨before, behind, hreads⟩ := h.reads
  refine ⟨?_, ?_, ?_, ?_, ?_⟩
  · rw [hw.config, h.config, List.foldl_cons]
  · rw [hw.examined, h.examined, List.append_assoc, List.singleton_append]
  · rw [hw.stores, h.stores, h.config, stored]
    cases hq : isProcessor m q with
    | false => rw [(note_other _ hq).1]; simp
    | true => rw [note_processor hq]; simp
  · intro a ha
    rcases List.mem_cons.1 ha with rfl | ha
    · refine hw.kept _ ?_
      rw [hreads]
      simp [bytesFrom]
    · exact hw.read a ha
  · intro a ha
    refine hw.kept a ?_
    rw [hreads]
    exact List.mem_append_left _ ha

/-- **A walk is what the loop does.** -/
theorem ends_of_walk (h : Walk m p bytes qs) : ∀ {s : Scan}, s.entryPtr = p → s.bytesForEntries = bytes →
    bytes < 2147483648 → ∃ r, Loops.Ends (round m) s r ∧ Walked m s r qs := by
  induction h with
  | done hle =>
    intro s _ hbytes _
    exact ⟨s, Loops.Ends.leaves (round_leaves (by omega)), Walked.refl m s⟩
  | step hpos hlen hrest ih =>
    intro s hp hbytes hlt
    obtain ⟨s', hround, hex, hleft⟩ := round_goes (m := m) (s := s) (by omega) (by omega)
    rw [hp] at hex hleft
    obtain ⟨r, hends, hw⟩ := ih hex.entryPtr (by omega) (by omega)
    exact ⟨r, (Loops.ends_iff_of_goes hround).2 hends, hw.cons hex⟩

theorem Walk.entryLen_ne_zero (h : Walk m p bytes qs) (hpos : 0 < bytes) : entryLen m p ≠ 0 := by
  cases h with
  | done hle => omega
  | step _ hlen _ => exact hlen

/-- **Only a walk ends.** -/
theorem walk_of_run : ∀ {fuel : Nat} {s : Scan}, Loops.run (round m) fuel s = some r →
    s.bytesForEntries < 2147483648 → ∃ qs, Walk m s.entryPtr s.bytesForEntries qs := by
  intro fuel
  induction fuel with
  | zero =>
    intro s hrun _
    cases hrun
  | succ fuel ih =>
    intro s hrun hlt
    by_cases hpos : 0 < s.bytesForEntries
    · obtain ⟨s', hround, hex, hleft⟩ := round_goes (m := m) hpos hlt
      rw [Loops.run_goes hround] at hrun
      obtain ⟨qs, hwalk⟩ := ih hrun (by omega)
      rw [hex.entryPtr, hleft] at hwalk
      refine ⟨next m s.entryPtr :: qs, Walk.step hpos ?_ hwalk⟩
      -- from a record of length 0 the loop comes back to that record, with as many bytes left
      intro hzero
      have hsame : entryLen m (next m s.entryPtr) = entryLen m s.entryPtr := by
        unfold next
        rw [hzero, Nat.add_zero]
        unfold entryLen byteAt
        rw [u32_add]
        exact hzero
      exact hwalk.entryLen_ne_zero (by omega) (hsame.trans hzero)
    · exact ⟨[], Walk.done (by omega)⟩

theorem processors_cons_length (m : Mem) (q : Nat) (qs : List Nat) :
    (processors m (q :: qs)).length = (if isProcessor m q then 1 else 0) + (processors m qs).length := by
  unfold processors
  cases hq : isProcessor m q with
  | false => rw [List.filter_cons_of_neg (by rw [hq]; exact Bool.false_ne_true)]; simp
  | true => rw [List.filter_cons_of_pos hq, List.length_cons]; simp [Nat.add_comm]

/-- **The array is left just when there are too many processors.** -/
theorem stored_lt_iff : ∀ {qs : List Nat} {n : Nat}, n ≤ maxProcs →
    ((∀ i ∈ stored m n qs, i < maxProcs) ↔ n + (processors m qs).length ≤ maxProcs) := by
  intro qs
  induction qs with
  | nil =>
    intro n hn
    exact ⟨fun _ => hn, fun _ i hi => absurd hi List.not_mem_nil⟩
  | cons q qs ih =>
    intro n hn
    rw [processors_cons_length, stored]
    cases hq : isProcessor m q with
    | false =>
      simp only [Bool.false_eq_true, if_false, Nat.zero_add]
      exact ih hn
    | true =>
      simp only [if_true, List.forall_mem_cons]
      unfold maxProcs at *
      rw [u32_of_lt (by omega)]
      constructor
      · rintro ⟨hlt, hrest⟩
        have := (ih (n := n + 1) (by omega)).1 hrest
        omega
      · intro hle
        exact ⟨by omega, (ih (n := n + 1) (by omega)).2 (by omega)⟩

/-- The count of the processors that are noted. -/
theorem nOtherProcs_foldl : ∀ {qs : List Nat} (config : Config),
    config.nOtherProcs + (processors m qs).length ≤ maxProcs →
    (qs.foldl (note m) config).nOtherProcs = config.nOtherProcs + (processors m qs).length := by
  intro qs
  induction qs with
  | nil =>
    intro config _
    rfl
  | cons q qs ih =>
    intro config hle
    rw [processors_cons_length] at hle ⊢
    rw [List.foldl_cons]
    unfold maxProcs at *
    cases hq : isProcessor m q with
    | false =>
      have hn := (note_other config hq).1
      rw [hq] at hle
      rw [ih _ (by rw [hn]; simpa using hle), hn]
      simp
    | true =>
      have hn : (note m config q).nOtherProcs = config.nOtherProcs + 1 := by
        rw [note_processor hq]
        rw [hq] at hle
        exact u32_of_lt (by simp at hle; omega)
      rw [hq] at hle
      rw [ih _ (by rw [hn]; simp at hle; omega), hn]
      simp
      omega

/-- **What is listed**: the processors, in the order of the walk, behind the ones that are there already. -/
theorem apicInfo_foldl : ∀ {qs : List Nat} (config : Config),
    config.nOtherProcs + (processors m qs).length ≤ maxProcs →
    (qs.foldl (note m) config).apicInfo.toList =
      config.apicInfo.toList.take config.nOtherProcs ++ (processors m qs).map (apicInfo m) ++
        config.apicInfo.toList.drop (config.nOtherProcs + (processors m qs).length) := by
  intro qs
  induction qs with
  | nil =>
    intro config _
    simp [processors]
  | cons q qs ih =>
    intro config hle
    rw [List.foldl_cons]
    cases hq : isProcessor m q with
    | false =>
      have hsame : processors m (q :: qs) = processors m qs := by
        unfold processors
        rw [List.filter_cons_of_neg (by rw [hq]; exact Bool.false_ne_true)]
      obtain ⟨hn, hinfo⟩ := note_other config hq
      rw [hsame] at hle ⊢
      rw [ih _ (by rw [hn]; exact hle), hn, hinfo]
    | true =>
      have hcons : processors m (q :: qs) = q :: processors m qs := by
        unfold processors
        rw [List.filter_cons_of_pos hq]
      have hlen : config.apicInfo.toList.length = 16 := config.apicInfo.length_toList
      unfold maxProcs at hle
      rw [hcons, List.length_cons] at hle ⊢
      have hn : (note m config q).nOtherProcs = config.nOtherProcs + 1 := by
        rw [note_processor hq]
        exact u32_of_lt (by omega)
      have hinfo : (note m config q).apicInfo.toList =
          config.apicInfo.toList.set config.nOtherProcs (apicInfo m q) := by
        rw [note_processor hq, Vector.toList_setIfInBounds]
      rw [ih _ (by rw [hn]; unfold maxProcs; omega), hn, hinfo, List.map_cons,
        List.take_add_one, List.take_set_of_le (Nat.le_refl _), List.getElem?_set_self (by omega),
        List.drop_set_of_lt (by omega)]
      simp [Nat.add_assoc, Nat.add_comm 1]

/-- The records among `qs` that describe an I/O APIC. -/
def ioApics (m : Mem) (qs : List Nat) : List Nat := qs.filter fun q => entryType m q == 1

/-- The last one of them is what stays in `ioAPIC`. -/
theorem ioAPIC_foldl : ∀ {qs : List Nat} {config : Config},
    (qs.foldl (note m) config).ioAPIC = ((ioApics m qs).getLast?.map (ioApicAddress m)).getD config.ioAPIC := by
  intro qs
  induction qs using List.reverseRecOn with
  | nil =>
    intro config
    rfl
  | append_singleton qs q ih =>
    intro config
    rw [List.foldl_append, List.foldl_cons, List.foldl_nil, note]
    have hsplit : ioApics m (qs ++ [q]) = ioApics m qs ++ ioApics m [q] := List.filter_append ..
    rw [hsplit]
    by_cases hproc : isProcessor m q = true
    · have hnone : ioApics m [q] = [] := by
        unfold ioApics
        rw [List.filter_cons_of_neg (by rw [(isProcessor_iff.1 hproc).1]; decide), List.filter_nil]
      rw [if_pos hproc, hnone, List.append_nil]
      exact ih
    · rw [if_neg hproc]
      by_cases hone : entryType m q = 1
      · have hlast : ioApics m [q] = [q] := by
          unfold ioApics
          rw [List.filter_cons_of_pos (by rw [hone]; rfl), List.filter_nil]
        rw [if_pos hone, hlast, List.getLast?_concat]
        rfl
      · have hnone : ioApics m [q] = [] := by
          unfold ioApics
          rw [List.filter_cons_of_neg (by rw [beq_iff_eq]; exact hone), List.filter_nil]
        rw [if_neg hone, hnone, List.append_nil]
        exact ih

/-! ## Well-formed tables -/

/-- The `n` bytes at `p` are records one after the other, at `es`. -/
inductive Entries (m : Mem) : Nat → Nat → List Nat → Prop
  | nil {p : Nat} : Entries m p 0 []
  | cons {p n : Nat} {es : List Nat} : 2 ≤ entryLen m p → entryLen m p ≤ n →
      Entries m (p + entryLen m p) (n - entryLen m p) es → Entries m p n (p :: es)

/-- A MADT whose entries are at `es`. -/
structure WellFormed (m : Mem) (madt : Nat) (es : List Nat) : Prop where
  size : madtSize ≤ sdtLength m madt
  inside : madt + sdtLength m madt ≤ 4294967296
  entries : Entries m (madt + madtSize) (sdtLength m madt - madtSize) es
  few : (es.filter fun q => entryType m q == 0).length ≤ maxProcs

/-- The loop does what it is for: it looks at each entry once, reads nothing outside of the table, counts and
    lists the processors other than the first, and keeps the address of the last I/O APIC. -/
def Scanned (m : Mem) (madt : Nat) (config : Config) (es : List Nat) : Prop :=
  ∃ r, Loops.Ends (round m) (startScan m madt config) r ∧ r.examined = es ∧
    (∀ a ∈ r.reads, madt ≤ a ∧ a < madt + sdtLength m madt) ∧
    r.config.nOtherProcs = (processors m es).length ∧
    r.config.apicInfo.toList.take r.config.nOtherProcs = (processors m es).map (apicInfo m) ∧
    ∀ q, (ioApics m es).getLast? = some q → r.config.ioAPIC = ioApicAddress m q

theorem Entries.eq_zero (h : Entries m p n []) : n = 0 := by
  cases h
  rfl

theorem Entries.head (h : Entries m p n (q :: es)) : q = p ∧ 2 ≤ n := by
  cases h with
  | cons hlen hle _ => exact ⟨rfl, by omega⟩

/-- **The walk over a table** misses the first entry, and comes to what lies behind the table. -/
theorem Entries.walk (h : Entries m p n es) (hin : p + n ≤ 4294967296) :
    ∀ {q : Nat} {rest : List Nat}, es = q :: rest → Walk m p n (rest ++ [u32 (p + n)]) := by
  induction h with
  | nil =>
    intro q rest heq
    cases heq
  | @cons p n es hlen hle hrest ih =>
    intro q rest heq
    obtain ⟨rfl, rfl⟩ := List.cons.inj heq
    have hpos : (0 : Int) < n := by omega
    cases es with
    | nil =>
      have hn : n = entryLen m p := by
        have := hrest.eq_zero
        omega
      rw [hn] at hpos ⊢
      exact Walk.step hpos (by omega) (Walk.done (by omega))
    | cons q' es' =>
      obtain ⟨rfl, hmore⟩ := hrest.head
      have hnext : next m p = p + entryLen m p := u32_of_lt (by omega)
      have hwalk := ih (by omega) rfl
      rw [show p + entryLen m p + (n - entryLen m p) = p + n by omega, ← hnext,
        show ((n - entryLen m p : Nat) : Int) = (n : Int) - entryLen m p by omega] at hwalk
      rw [← hnext]
      exact Walk.step hpos (by omega) hwalk

theorem WellFormed.length_lt (_h : WellFormed m madt es) : sdtLength m madt < 4294967296 := word_lt _ _

theorem WellFormed.entryBytes (h : WellFormed m madt es) :
    entryBytes m madt = signed (sdtLength m madt - madtSize) := by
  have hsize := h.size
  have hlt := h.length_lt
  unfold Boot.entryBytes madtSize at *
  congr 1
  rw [u32_eq]
  omega

/-- Where the count of bytes is not negative, the loop leaves with the walk over the table. -/
theorem WellFormed.ends (h : WellFormed m madt (q :: es)) (config : Config)
    (hlt : sdtLength m madt - madtSize < 2147483648) :
    ∃ r, Loops.Ends (round m) (startScan m madt config) r ∧
      Walked m (startScan m madt config) r (es ++ [u32 (madt + sdtLength m madt)]) := by
  have hsize := h.size
  have hin := h.inside
  have hmore := h.entries.head.2
  have hwalk := h.entries.walk (by omega) rfl
  rw [show madt + madtSize + (sdtLength m madt - madtSize) = madt + sdtLength m madt by omega] at hwalk
  refine ends_of_walk hwalk (u32_of_lt (by omega)) ?_ (by omega)
  rw [← (show signed (sdtLength m madt - madtSize) = _ from if_pos hlt)]
  exact h.entryBytes

/-- A count of bytes of 2³¹ or more is negative, and the loop does nothing. -/
theorem WellFormed.ends_of_ge (h : WellFormed m madt es) (config : Config)
    (hge : 2147483648 ≤ sdtLength m madt - madtSize) :
    Loops.Ends (round m) (startScan m madt config) (startScan m madt config) := by
  have hlt := h.length_lt
  refine Loops.Ends.leaves (round_leaves ?_)
  show Boot.entryBytes m madt ≤ 0
  rw [h.entryBytes, signed, if_neg (by omega)]
  omega

/-- A table with entries is not scanned as it should be: the last record that is looked at lies behind it. -/
theorem Scanned.eq_nil (h : WellFormed m madt es) (hs : Scanned m madt config es) : es = [] := by
  obtain ⟨r, hends, hexamined, hreads, _⟩ := hs
  cases es with
  | nil => rfl
  | cons q es =>
    exfalso
    rcases Nat.lt_or_ge (sdtLength m madt - madtSize) 2147483648 with hlt | hge
    · obtain ⟨r', hends', hw⟩ := h.ends config hlt
      obtain rfl := hends.unique hends'
      have hin := h.inside
      have hlength := h.length_lt
      have hread := hreads _ (hw.read _ (List.mem_append_right _ (List.mem_singleton.2 rfl)))
      rw [u32_eq, u32_eq] at hread
      omega
    · obtain rfl := hends.unique (h.ends_of_ge config hge)
      cases hexamined

/-- **Exactness**: of the well-formed tables, the loop does what it is for on those without entries. -/
theorem scanned_iff (h : WellFormed m madt es) : Scanned m madt config es ↔ es = [] := by
  constructor
  · exact Scanned.eq_nil h
  · rintro rfl
    have hzero := h.entries.eq_zero
    refine ⟨startScan m madt config, Loops.Ends.leaves (round_leaves ?_), rfl, ?_, rfl, rfl, ?_⟩
    · show Boot.entryBytes m madt ≤ 0
      rw [h.entryBytes, hzero]
      exact Int.le_refl 0
    · intro a ha
      cases ha
    · intro q hq
      cases hq

/-- **What is noted of a table with entries**: all of them but the first, and the record behind the table. -/
theorem WellFormed.noted (h : WellFormed m madt (q :: es)) (hlt : sdtLength m madt - madtSize < 2147483648)
    (hfew : (processors m (es ++ [u32 (madt + sdtLength m madt)])).length ≤ maxProcs) :
    ∃ r, Loops.Ends (round m) (startScan m madt config) r ∧
      r.config.nOtherProcs = (processors m (es ++ [u32 (madt + sdtLength m madt)])).length ∧
      r.config.apicInfo.toList.take r.config.nOtherProcs =
        (processors m (es ++ [u32 (madt + sdtLength m madt)])).map (apicInfo m) ∧
      r.config.ioAPIC =
        ((ioApics m (es ++ [u32 (madt + sdtLength m madt)])).getLast?.map (ioApicAddress m)).getD config.ioAPIC := by
  obtain ⟨r, hends, hw⟩ := h.ends config hlt
  have hzero : (startScan m madt config).config.nOtherProcs = 0 := rfl
  have hn := nOtherProcs_foldl (startScan m madt config).config (by rw [hzero, Nat.zero_add]; exact hfew)
  have hinfo := apicInfo_foldl (startScan m madt config).config (by rw [hzero, Nat.zero_add]; exact hfew)
  rw [hzero, Nat.zero_add, ← hw.config] at hn
  rw [hzero, Nat.zero_add, List.take_zero, List.nil_append, ← hw.config] at hinfo
  refine ⟨r, hends, hn, ?_, ?_⟩
  · rw [hinfo, hn]
    exact List.take_left' (List.length_map _)
  · rw [hw.config]
    exact ioAPIC_foldl

/-- A table at `0x1000` with one entry, for processor 1. -/
def oneProcessor : Mem := fun a =>
  if a = 0x1004 then 52 else if a = 0x102d then 8 else if a = 0x102e then 1 else 0

theorem oneProcessor_wellFormed : WellFormed oneProcessor 0x1000 [0x102c] where
  size := by decide +kernel
  inside := by decide +kernel
  entries := by
    have hlen : entryLen oneProcessor (0x1000 + madtSize) = 8 := by decide +kernel
    have hlength : sdtLength oneProcessor 0x1000 - madtSize = 8 := by decide +kernel
    rw [hlength]
    refine Entries.cons (by rw [hlen]; decide) (by rw [hlen]) ?_
    rw [hlen]
    exact Entries.nil
  few := by decide +kernel

/-- The processor of that table is not seen. -/
theorem oneProcessor_not_scanned :
    WellFormed oneProcessor 0x1000 [0x102c] ∧ ¬ Scanned oneProcessor 0x1000 kConfig [0x102c] :=
  ⟨oneProcessor_wellFormed, fun hs => absurd (Scanned.eq_nil oneProcessor_wellFormed hs) (by decide)⟩

/-- A table with two entries, for processor 1 and for the I/O APIC. -/
def twoEntries : Mem := fun a =>
  if a = 0x1004 then 64 else if a = 0x102d then 8 else if a = 0x102e then 1
  else if a = 0x1034 then 1 else if a = 0x1035 then 12 else 0

theorem twoEntries_wellFormed : WellFormed twoEntries 0x1000 [0x102c, 0x1034] where
  size := by decide +kernel
  inside := by decide +kernel
  entries := by
    have hfirst : entryLen twoEntries (0x1000 + madtSize) = 8 := by decide +kernel
    have hsecond : entryLen twoEntries (0x1000 + madtSize + 8) = 12 := by decide +kernel
    have hlength : sdtLength twoEntries 0x1000 - madtSize = 20 := by decide +kernel
    rw [hlength]
    refine Entries.cons (by rw [hfirst]; decide) (by rw [hfirst]; decide) ?_
    rw [hfirst]
    refine Entries.cons (by rw [hsecond]; decide) (by rw [hsecond]) ?_
    rw [hsecond]
    exact Entries.nil
  few := by decide +kernel

/-- A table without entries is scanned as it should be, and the one with two is not. -/
theorem scanned_iff_empty :
    Scanned (fun a => if a = 0x1004 then 44 else 0) 0x1000 kConfig [] ∧
      ¬ Scanned twoEntries 0x1000 kConfig [0x102c, 0x1034] := by
  refine ⟨(scanned_iff ⟨by decide +kernel, by decide +kernel, ?_, by decide⟩).2 rfl,
    fun hscanned => absurd ((scanned_iff twoEntries_wellFormed).1 hscanned) (by decide)⟩
  have hzero : sdtLength (fun a => if a = 0x1004 then 44 else 0) 0x1000 - madtSize = 0 := by decide +kernel
  rw [hzero]
  exact Entries.nil

/-! ## Any table -/

/-- The loop ends, and all stores lie inside of the array. -/
def Bounded (m : Mem) (madt : Nat) (config : Config) : Prop :=
  ∃ r, Loops.Ends (round m) (startScan m madt config) r ∧ ∀ i ∈ r.stores, i < maxProcs

/-- The loop ends just if there is a walk from the first entry. -/
theorem terminates_iff (config : Config) : Loops.Terminates (round m) (startScan m madt config) ↔
    ∃ qs, Walk m (firstEntry madt) (entryBytes m madt) qs := by
  constructor
  · rintro ⟨r, fuel, hrun⟩
    exact walk_of_run hrun (entryBytes_lt m madt)
  · rintro ⟨qs, hwalk⟩
    obtain ⟨r, hends, _⟩ := ends_of_walk hwalk (s := startScan m madt config) rfl rfl (entryBytes_lt m madt)
    exact ⟨r, hends⟩

/-- **Exactness**: the loop ends with all stores inside of the array just if no record on the way has length
    0, and at most `MAX_PROCS` of those it comes to are for processors other than the first. -/
theorem bounded_iff (m : Mem) (madt : Nat) (config : Config) : Bounded m madt config ↔
    ∃ qs, Walk m (firstEntry madt) (entryBytes m madt) qs ∧ (processors m qs).length ≤ maxProcs := by
  have hstores : ∀ qs, (∀ i ∈ stored m 0 qs, i < maxProcs) ↔ (processors m qs).length ≤ maxProcs := by
    intro qs
    rw [stored_lt_iff (Nat.zero_le _), Nat.zero_add]
  have hwalked : ∀ qs, Walk m (firstEntry madt) (entryBytes m madt) qs →
      ∃ r, Loops.Ends (round m) (startScan m madt config) r ∧ r.stores = stored m 0 qs := by
    intro qs hwalk
    obtain ⟨r, hends, hw⟩ := ends_of_walk hwalk (s := startScan m madt config) rfl rfl (entryBytes_lt m madt)
    exact ⟨r, hends, hw.stores⟩
  constructor
  · rintro ⟨r, hends, hlt⟩
    obtain ⟨qs, hwalk⟩ := (terminates_iff _).1 ⟨r, hends⟩
    obtain ⟨r', hends', heq⟩ := hwalked qs hwalk
    obtain rfl := hends.unique hends'
    exact ⟨qs, hwalk, (hstores qs).1 (heq ▸ hlt)⟩
  · rintro ⟨qs, hwalk, hle⟩
    obtain ⟨r, hends, heq⟩ := hwalked qs hwalk
    exact ⟨r, hends, heq ▸ (hstores qs).2 hle⟩

/-- A table with two bytes for entries, both 0: the loop stays at the record of length 0. -/
theorem zero_length_not_bounded :
    ¬ Bounded (fun a => if a = 0x1004 then 46 else 0) 0x1000 kConfig := by
  rintro ⟨r, hends, _⟩
  obtain ⟨qs, hwalk⟩ := (terminates_iff _).1 ⟨r, hends⟩
  refine absurd ?_ (hwalk.entryLen_ne_zero ?_)
  · decide +kernel
  · decide +kernel

/-! ## The whole of `configInit` -/

/-- **`configInit` returns** just if the assertion on the memory holds and the walk over the MADT ends. -/
theorem configInit_returns_iff (mem : MemInfo) (m : Mem) (config : Config) :
    (∃ fuel c, configInit fuel mem m config = some c) ↔
      (mem.cx = 15 * 1024 ∨ mem.dx = 0) ∧
        ∃ qs, Walk m (firstEntry (findMADT m)) (entryBytes m (findMADT m)) qs := by
  unfold configInit
  constructor
  · rintro ⟨fuel, c, h⟩
    obtain ⟨above, habove, h⟩ := Option.bind_eq_some_iff.1 h
    obtain ⟨s, hrun, _⟩ := Option.bind_eq_some_iff.1 h
    constructor
    · by_contra hnot
      rw [memAbove1M, if_neg hnot] at habove
      cases habove
    · exact walk_of_run hrun (entryBytes_lt m _)
  · rintro ⟨hmem, hwalk⟩
    obtain ⟨above, habove⟩ : ∃ above, memAbove1M mem = some above := ⟨_, if_pos hmem⟩
    obtain ⟨s, fuel, hrun⟩ := (terminates_iff (beforeLoop above m config)).2 hwalk
    refine ⟨fuel, { s.config with totalProcs := u32 (s.config.nOtherProcs + 1) }, ?_⟩
    exact Option.bind_eq_some_iff.2 ⟨above, habove, Option.bind_eq_some_iff.2 ⟨s, hrun, rfl⟩⟩

end BadApple.Boot
