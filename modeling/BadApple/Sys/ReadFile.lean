/-
  Reading a file by calls of `read` (kernel/sys.cc, kernel/block_io.cc).

  1. **The calls** — `Reads`: calls of `read` on a descriptor, one after the other.  In between, anything may
     happen that leaves the descriptor, its open file and the file system as they are: so there is no
     `seek`.  The buffer of each call must be there for as many bytes as it is to get.
  2. **The results** — `read_file`: one call gets what it asks for, or what is left of the file, and moves the
     offset behind it.  `reads_deliver`: so do all, and together they get the bytes of the file from the
     first offset on, as many as are asked for and are there, in however many calls.
-/
import BadApple.Sys.Runs

namespace BadApple

open Effects

open Function (update)

namespace Sys

variable {m m' : Machine} {P : Access → Prop} {fd r file buf nbyte : Nat}

/-! ## The calls -/

/-- The descriptor refers to an open file on node `file`, the offset of which is not past its end. -/
structure Refers (m : Machine) (fd r file : Nat) : Prop where
  fd_lt : fd < pcbArrSize
  fdt : m.pcb.fdt fd = some r
  node : (m.files r).node = some (.ext2 file)
  size : (m.fs.node file).sizeInBytes < 4294967296
  offset : (m.files r).offset ≤ (m.fs.node file).sizeInBytes

/-- How many bytes a call is to get: those asked for, or those that are left. -/
def due (m : Machine) (r file nbyte : Nat) : Nat :=
  min nbyte ((m.fs.node file).sizeInBytes - (m.files r).offset)

/-- The buffer is in the user's memory, and its pages are there. -/
def Writable (m : Machine) (buf n : Nat) : Prop :=
  0x80000000 ≤ buf ∧ buf + n ≤ 4294967296 ∧ ∀ k, k < n → m.covered (buf + k) = true

/-- What happens between two calls leaves the descriptor, its open file and the file system as they are. -/
def KeepsFile (fd r : Nat) (m m' : Machine) : Prop :=
  m'.pcb.fdt fd = m.pcb.fdt fd ∧ m'.files r = m.files r ∧ m'.fs = m.fs

/-- What a call came to: how many bytes were asked for, what it returned, and what is in the buffer then. -/
structure Delivery where
  nbyte : Nat
  result : Except Stop Nat
  bytes : List UInt8

/-- How many bytes a call returned. -/
def Delivery.count (d : Delivery) : Nat :=
  match d.result with
  | .ok n => n
  | .error _ => 0

/-- A call of `read`. -/
def delivery (fd buf nbyte : Nat) (m : Machine) : Delivery :=
  let run := read fd buf nbyte m
  ⟨nbyte, run.result, match run.result with
    | .ok n => (List.range n).map fun k => run.state.mem (buf + k)
    | .error _ => []⟩

/-- Calls of `read` on a descriptor, one after the other. -/
inductive Reads (fd r file : Nat) : Machine → List Delivery → Prop
  | nil (m : Machine) : Reads fd r file m []
  | cons {m m' : Machine} {ds : List Delivery} (buf nbyte : Nat) :
      KeepsFile fd r m m' → Writable m' buf (due m' r file nbyte) →
      Reads fd r file (read fd buf nbyte m').state ds →
      Reads fd r file m (delivery fd buf nbyte m' :: ds)

/-- How many bytes are asked for. -/
def asked : List Delivery → Nat
  | [] => 0
  | d :: ds => d.nbyte + asked ds

/-- How many bytes are returned. -/
def returned : List Delivery → Nat
  | [] => 0
  | d :: ds => d.count + returned ds

/-- All bytes that are delivered. -/
def delivered : List Delivery → List UInt8
  | [] => []
  | d :: ds => d.bytes ++ delivered ds

/-! ## One call -/

/-- Bytes for which there is room are written. -/
theorem spec_storeBytes_eq (hstore : ∀ a, P (.store a)) {E : Stop → Machine → Prop} :
    ∀ (l : List UInt8) (a : Nat) (m : Machine), a + l.length ≤ 4294967296 →
    (∀ k, k < l.length → m.covered (a + k) = true) →
    Spec P (storeBytes a l) m (fun _ m' => { m with mem := Memory.store m.mem a l } = m') E := by
  intro l
  induction l with
  | nil =>
    intro a m _ _
    apply Spec.pure
    rw [Memory.store_nil]
  | cons b l ih =>
    intro a m hbound hcov
    have ha : m.covered a = true := hcov 0 (Nat.succ_pos _)
    refine Spec.bind (Spec.touch (Q := fun _ m' => m = m') (hstore a) rfl) ?_
    rintro _ _ rfl
    refine Spec.bind spec_getState ?_
    rintro _ _ ⟨rfl, rfl⟩
    rw [if_pos ha]
    refine Spec.bind spec_modify ?_
    rintro _ _ rfl
    rw [Memory.store_cons]
    rw [List.length_cons] at hbound hcov
    cases l with
    | nil =>
      apply Spec.pure
      rw [Memory.store_nil]
    | cons c l =>
      rw [List.length_cons] at hbound
      rw [u32_of_lt (by omega)]
      refine ih (a + 1) _ (by rw [List.length_cons]; omega) ?_
      intro k hk
      show m.covered (a + 1 + k) = true
      rw [Nat.add_assoc, Nat.add_comm 1 k]
      exact hcov (k + 1) (by omega)

/-- **One call of `read`** returns how many bytes it gets, writes them to the buffer, and moves the offset. -/
theorem read_file (h : Refers m fd r file) (hw : Writable m buf (due m r file nbyte)) :
    (read fd buf nbyte m).result = .ok (due m r file nbyte) ∧
    (read fd buf nbyte m).state = { m with
      mem := Memory.store m.mem buf ((m.fs.node file).io.bytesFrom (m.files r).offset (due m r file nbyte))
      files := update m.files r { m.files r with offset := (m.files r).offset + due m r file nbyte } } := by
  obtain ⟨hbuf, hbound, hcov⟩ := hw
  have hspec : Spec (fun _ => True) (read fd buf nbyte) m (fun v m' => v = due m r file nbyte ∧ m' = { m with
      mem := Memory.store m.mem buf ((m.fs.node file).io.bytesFrom (m.files r).offset (due m r file nbyte))
      files := update m.files r { m.files r with offset := (m.files r).offset + due m r file nbyte } })
      fun _ _ => False := by
    have hvalid : (!addressValid buf nbyte || decide (fd ≥ pcbArrSize)) = false := by
      have hend := u32_lt (buf + nbyte)
      have hfd := h.fd_lt
      simp only [addressValid, Bool.or_eq_false_iff, Bool.not_eq_false', Bool.and_eq_true, decide_eq_true_eq,
        decide_eq_false_iff_not]
      omega
    rw [read, hvalid, if_neg (by simp)]
    refine Spec.bind (spec_index trivial) ?_
    rintro v _ ⟨hv, rfl⟩
    rw [Machine.element, if_pos h.fd_lt, h.fdt] at hv
    obtain rfl := hv
    refine Spec.bind spec_getState ?_
    rintro _ _ ⟨rfl, rfl⟩
    rw [h.node]
    have hbs := (m.fs.node file).blockSize_pos
    have hall := BlockIo.readAll_eq hbs nbyte _ h.offset
    have hcount := BlockIo.readAllCount_eq hbs nbyte _ 0 h.offset
    change (m.fs.node file).io.readAll _ nbyte = (m.fs.node file).io.bytesFrom _ (due m r file nbyte) at hall
    change (m.fs.node file).io.readAllCount _ nbyte 0 = some (0 + due m r file nbyte) at hcount
    refine Spec.bind (Q := fun v m' => v = due m r file nbyte ∧ { m with
      mem := Memory.store m.mem buf
        ((m.fs.node file).io.bytesFrom (m.files r).offset (due m r file nbyte)) } = m') ?_ ?_
    · refine Spec.bind spec_getState ?_
      rintro _ _ ⟨rfl, rfl⟩
      show Spec _ (storeBytes buf ((m.fs.node file).io.readAll (m.files r).offset nbyte) >>= fun _ =>
        pure (((m.fs.node file).io.readAllCount (m.files r).offset nbyte 0).getD minusOne)) m _ _
      rw [hall, hcount, Nat.zero_add]
      refine Spec.bind (spec_storeBytes_eq (fun _ => trivial) _ buf m ?_ ?_) ?_
      · rw [BlockIo.bytesFrom_length]
        exact hbound
      · rw [BlockIo.bytesFrom_length]
        exact hcov
      · rintro _ _ rfl
        exact Spec.pure ⟨rfl, rfl⟩
    · rintro v _ ⟨rfl, rfl⟩
      refine Spec.bind spec_setOffset ?_
      rintro _ _ rfl
      have hoff : (m.files r).offset + due m r file nbyte < 4294967296 := by
        have hsize := h.size
        have hle := h.offset
        rw [due]
        omega
      rw [u32_of_lt hoff]
      exact Spec.pure ⟨rfl, rfl⟩
  obtain ⟨v, hres, rfl, hstate⟩ := hspec.returns
  exact ⟨hres, hstate⟩

/-- What one call delivers. -/
theorem delivery_file (h : Refers m fd r file) (hw : Writable m buf (due m r file nbyte)) :
    delivery fd buf nbyte m = ⟨nbyte, .ok (due m r file nbyte),
      (m.fs.node file).io.bytesFrom (m.files r).offset (due m r file nbyte)⟩ := by
  obtain ⟨hres, hstate⟩ := read_file h hw
  rw [delivery]
  simp only [hres, hstate]
  congr 1
  refine List.ext_getElem (by simp) ?_
  intro k h1 h2
  rw [List.getElem_map, List.getElem_range, Memory.store_at, List.getD_eq_getElem?_getD,
    List.getElem?_eq_getElem h2, Option.getD_some]

/-- The descriptor still refers to the file, and the offset is behind what was read. -/
theorem Refers.next (h : Refers m fd r file) (hw : Writable m buf (due m r file nbyte)) :
    Refers (read fd buf nbyte m).state fd r file ∧
    ((read fd buf nbyte m).state.files r).offset = (m.files r).offset + due m r file nbyte ∧
    (read fd buf nbyte m).state.fs = m.fs := by
  rw [(read_file h hw).2]
  have hoff : (m.files r).offset + due m r file nbyte ≤ (m.fs.node file).sizeInBytes := by
    have hle := h.offset
    rw [due]
    omega
  refine ⟨⟨h.fd_lt, h.fdt, ?_, h.size, ?_⟩, ?_, rfl⟩
  · show (update m.files r _ r).node = _
    rw [Function.update_self]
    exact h.node
  · show (update m.files r _ r).offset ≤ _
    rw [Function.update_self]
    exact hoff
  · show (update m.files r _ r).offset = _
    rw [Function.update_self]

theorem Refers.keeps (h : Refers m fd r file) (hk : KeepsFile fd r m m') : Refers m' fd r file := by
  obtain ⟨hfdt, hfiles, hfs⟩ := hk
  refine ⟨h.fd_lt, hfdt.trans h.fdt, ?_, ?_, ?_⟩
  · rw [hfiles]
    exact h.node
  · rw [hfs]
    exact h.size
  · rw [hfiles, hfs]
    exact h.offset

/-! ## All calls -/

/-- What the first `n` calls return, if they all get what is due. -/
theorem reads_cons {d : Delivery} {ds : List Delivery} (h : Refers m fd r file)
    (hreads : Reads fd r file m (d :: ds)) :
    d.result = .ok (due m r file d.nbyte) ∧ d.count = due m r file d.nbyte ∧
    d.bytes = (m.fs.node file).io.bytesFrom (m.files r).offset (due m r file d.nbyte) ∧
    ∃ m', Refers m' fd r file ∧ (m'.files r).offset = (m.files r).offset + d.count ∧ m'.fs = m.fs ∧
      Reads fd r file m' ds := by
  cases hreads with
  | cons buf nbyte hkeeps hw htail =>
    rename_i m'
    have h' := h.keeps hkeeps
    have hdue : due m' r file nbyte = due m r file nbyte := by
      rw [due, due, hkeeps.2.1, hkeeps.2.2]
    obtain ⟨hnext, hoff, hfs⟩ := h'.next hw
    rw [delivery_file h' hw, hkeeps.2.1, hkeeps.2.2, hdue]
    refine ⟨rfl, rfl, rfl, _, hnext, ?_, hfs.trans hkeeps.2.2, htail⟩
    rw [hoff, hkeeps.2.1, hdue]
    rfl

/-- Each call gets what is due at its offset. -/
theorem reads_count : ∀ (pre : List Delivery) (d : Delivery) (post : List Delivery) (m : Machine),
    Refers m fd r file → Reads fd r file m (pre ++ d :: post) →
    d.result = .ok (min d.nbyte ((m.fs.node file).sizeInBytes - ((m.files r).offset + returned pre))) := by
  intro pre
  induction pre with
  | nil =>
    intro d post m h hreads
    exact (reads_cons h hreads).1
  | cons c pre ih =>
    intro d post m h hreads
    obtain ⟨-, -, -, m', h', hoff, hfs, htail⟩ := reads_cons h hreads
    rw [ih d post m' h' htail, hoff, hfs, returned, Nat.add_assoc]

/-- All of them get the bytes of the file from the first offset on. -/
theorem reads_bytes : ∀ (ds : List Delivery) (m : Machine), Refers m fd r file → Reads fd r file m ds →
    returned ds = min (asked ds) ((m.fs.node file).sizeInBytes - (m.files r).offset) ∧
    delivered ds = (m.fs.node file).io.bytesFrom (m.files r).offset (returned ds) := by
  intro ds
  induction ds with
  | nil =>
    intro m _ _
    exact ⟨(Nat.zero_min _).symm, rfl⟩
  | cons d ds ih =>
    intro m h hreads
    obtain ⟨-, hcount, hbytes, m', h', hoff, hfs, htail⟩ := reads_cons h hreads
    obtain ⟨hret, hdel⟩ := ih m' h' htail
    have hle := h.offset
    constructor
    · rw [returned, asked, hret, hoff, hfs, hcount, due]
      omega
    · rw [delivered, returned, hdel, hbytes, hoff, hfs, ← hcount, BlockIo.bytesFrom_append]

/-- **Every call of `read` returns what it asks for or what is left of the file; all calls together deliver
    the bytes of the file from the first offset on; and these do not depend on how they are asked for.** -/
theorem reads_deliver (h : Refers m fd r file) {ds : List Delivery} (hreads : Reads fd r file m ds) :
    (∀ pre d post, ds = pre ++ d :: post →
      d.result = .ok (min d.nbyte ((m.fs.node file).sizeInBytes - ((m.files r).offset + returned pre)))) ∧
    delivered ds = (m.fs.node file).io.bytesFrom (m.files r).offset
      (min (asked ds) ((m.fs.node file).sizeInBytes - (m.files r).offset)) ∧
    ∀ ds', Reads fd r file m ds' → asked ds' = asked ds → delivered ds' = delivered ds := by
  obtain ⟨hret, hdel⟩ := reads_bytes ds m h hreads
  refine ⟨?_, ?_, ?_⟩
  · rintro pre d post rfl
    exact reads_count pre d post m h hreads
  · rw [hdel, hret]
  · intro ds' hreads' hsame
    obtain ⟨hret', hdel'⟩ := reads_bytes ds' m h hreads'
    rw [hdel', hdel, hret', hret, hsame]

/-- A process with descriptor 3 on a file of three bytes. -/
def fileProcess : Machine := { firstProcess with
  pcb := { firstProcess.pcb with fdt := update firstProcess.pcb.fdt 3 (some 3) }
  files := update firstProcess.files 3 ⟨some (.ext2 5), 0⟩
  nextFile := 4
  mapped := fun _ => true
  fs := { emptyFs with
    node := fun _ => ⟨0x8000, fun _ => 0, ⟨1024, 3, fun _ i => UInt8.ofNat (65 + i)⟩, by decide⟩ } }

theorem fileProcess_refers : Refers fileProcess 3 3 5 :=
  ⟨by decide, rfl, rfl, by decide, Nat.zero_le _⟩

/-- Two calls for two bytes each get the three bytes of the file. -/
theorem reads_deliver_twice :
    ∃ ds, Reads 3 3 5 fileProcess ds ∧ asked ds = 4 ∧ delivered ds = [65, 66, 67] := by
  have hw : ∀ m, m.mapped = (fun _ => true) → Writable m 0x87FFFF00 (due m 3 5 2) := by
    intro m hmapped
    have hdue : due m 3 5 2 ≤ 2 := Nat.min_le_left _ _
    refine ⟨by decide, by omega, ?_⟩
    intro k _
    rw [Machine.covered, hmapped, Bool.true_or]
  have hfirst := hw fileProcess rfl
  have hstate := (read_file fileProcess_refers hfirst).2
  have hreads : Reads 3 3 5 fileProcess _ :=
    .cons 0x87FFFF00 2 ⟨rfl, rfl, rfl⟩ hfirst
      (.cons 0x87FFFF00 2 ⟨rfl, rfl, rfl⟩ (hw _ (by rw [hstate]; rfl)) (.nil _))
  refine ⟨_, hreads, rfl, ?_⟩
  rw [(reads_deliver fileProcess_refers hreads).2.1]
  rfl

end Sys

end BadApple
