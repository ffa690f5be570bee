/-
  Writes, one after the other, and what is in memory after them.

  1. **Cells** — a trace of writes is a list of bytes with their addresses.  When no address comes twice each
     byte is still there in the end (`storeCells_at`), and what is not written to is as it was.
  2. **Stretches** — a `Write` puts bytes at consecutive places, to be counted from wherever one likes; those
     of writes that lie apart are all different (`nodup_places`).
  3. **Words** — `wordBytes` are the four bytes of a word, and what is read where they are (`word_of_bytes`).
  4. **Strings** — `readString` reads up to the first NUL.
-/
import Mathlib.Data.List.Nodup
import BadApple.Lib.Memory

namespace Memory

open Function (update)

variable {m : Mem} {a k p : Nat}

/-! ## Cells -/

/-- One byte after the other. -/
def storeCells (m : Mem) (cells : List (Nat × UInt8)) : Mem := cells.foldl (fun m c => update m c.1 c.2) m

variable {cells : List (Nat × UInt8)} {c : Nat × UInt8}

/-- **What is not written to** stays. -/
theorem storeCells_outside : ∀ {cells : List (Nat × UInt8)} {m : Mem}, a ∉ cells.map Prod.fst →
    storeCells m cells a = m a := by
  intro cells
  induction cells with
  | nil => exact fun _ => rfl
  | cons c cells ih =>
    intro m hout
    rw [List.map_cons, List.mem_cons, not_or] at hout
    show storeCells (update m c.1 c.2) cells a = m a
    rw [ih hout.2, Function.update_of_ne hout.1]

/-- **What is written is there in the end**, when no address comes twice. -/
theorem storeCells_at : ∀ {cells : List (Nat × UInt8)} {m : Mem}, (cells.map Prod.fst).Nodup → c ∈ cells →
    storeCells m cells c.1 = c.2 := by
  intro cells
  induction cells with
  | nil => exact fun _ hc => absurd hc List.not_mem_nil
  | cons d cells ih =>
    intro m hnodup hc
    rw [List.map_cons, List.nodup_cons] at hnodup
    show storeCells (update m d.1 d.2) cells c.1 = c.2
    rcases List.mem_cons.1 hc with rfl | hc
    · rw [storeCells_outside hnodup.1, Function.update_self]
    · exact ih hnodup.2 hc

/-! ## Stretches -/

/-- Bytes at consecutive places. -/
structure Write where
  addr : Nat
  bytes : List UInt8
deriving DecidableEq, Repr

/-- One past the last place. -/
def Write.stop (w : Write) : Nat := w.addr + w.bytes.length

/-- No place belongs to both. -/
def Write.Apart (v w : Write) : Prop := v.stop ≤ w.addr ∨ w.stop ≤ v.addr

/-- The places. -/
def Write.places (w : Write) : List Nat := List.range' w.addr w.bytes.length

variable {ws : List Write} {v w : Write}

theorem Write.mem_places : a ∈ w.places ↔ w.addr ≤ a ∧ a < w.stop := List.mem_range'_1

/-- **Places of writes that lie apart** are all different. -/
theorem nodup_places (h : ws.Pairwise Write.Apart) : (ws.flatMap Write.places).Nodup := by
  refine List.nodup_flatMap.2 ⟨fun w _ => List.nodup_range', h.imp fun {v w} happ a hv hw => ?_⟩
  have hv := Write.mem_places.1 hv
  have hw := Write.mem_places.1 hw
  rcases happ with happ | happ
  · omega
  · omega

/-! ## Words -/

/-- The bytes of a word, the lowest first. -/
def wordBytes (w : Nat) : List UInt8 :=
  [UInt8.ofNat w, UInt8.ofNat (w / 256), UInt8.ofNat (w / 65536), UInt8.ofNat (w / 16777216)]

/-- **A word is read where its bytes are.** -/
theorem word_of_bytes {w : Nat} (hw : w < 4294967296) (h : ∀ k < 4, m (a + k) = (wordBytes w).getD k 0) :
    word m a = w := by
  have h0 : m a = UInt8.ofNat w := h 0 (by omega)
  have h1 : m (a + 1) = UInt8.ofNat (w / 256) := h 1 (by omega)
  have h2 : m (a + 2) = UInt8.ofNat (w / 65536) := h 2 (by omega)
  have h3 : m (a + 3) = UInt8.ofNat (w / 16777216) := h 3 (by omega)
  unfold word
  rw [h0, h1, h2, h3]
  simp only [UInt8.toNat_ofNat']
  omega

/-! ## Strings -/

/-- The bytes at `p` up to a NUL, `fuel` at most. -/
def readString (m : Mem) : (fuel : Nat) → (p : Nat) → List UInt8
  | 0, _ => []
  | fuel + 1, p => if m p = 0 then [] else m p :: readString m fuel (p + 1)

/-- **A string is read where its bytes are**, with a NUL behind them. -/
theorem readString_eq : ∀ {s : List UInt8} {fuel p : Nat}, 0 ∉ s → s.length < fuel →
    (∀ k < s.length + 1, m (p + k) = (s ++ [0]).getD k 0) → readString m fuel p = s := by
  intro s
  induction s with
  | nil =>
    intro fuel p _ hfuel hm
    obtain ⟨fuel, rfl⟩ : ∃ n, fuel = n + 1 := ⟨fuel - 1, by omega⟩
    have hend : m p = 0 := hm 0 (by simp)
    rw [readString, if_pos hend]
  | cons b s ih =>
    intro fuel p hnul hfuel hm
    rw [List.length_cons] at hfuel hm
    obtain ⟨fuel, rfl⟩ : ∃ n, fuel = n + 1 := ⟨fuel - 1, by omega⟩
    have hfirst : m p = b := hm 0 (by omega)
    have hne : b ≠ 0 := fun hb => hnul (by simp [hb])
    rw [readString, hfirst, if_neg hne, ih (fun hmem => hnul (by simp [hmem])) (by omega)]
    intro k hk
    rw [Nat.add_assoc, Nat.add_comm 1 k, hm (k + 1) (by omega)]
    rfl

/-- Where a NUL is, there is no string. -/
theorem readString_nul {fuel : Nat} (h : m p = 0) : readString m fuel p = [] := by
  cases fuel with
  | zero => rfl
  | succ fuel => rw [readString, if_pos h]

end Memory
