import Mathlib.Data.List.Infix
import Zmux.ByteReader

/-!
# The fields of a file

A file in memory is read at offsets: numbers of a width in either byte
order, and strings up to the next zero. `At data offset piece` says that
the piece lies there; what was written as a number or a string, with its
zero, is then read as such (`word_of_at`, `cString_of_at`).
-/

namespace Zmux

/-! ## Pieces -/

section Pieces

variable {α : Type*} {data piece : List α} {offset : ℕ}

/-- The piece lies at the offset. -/
def At (data : List α) (offset : ℕ) (piece : List α) : Prop := piece <+: data.drop offset

instance [DecidableEq α] : Decidable (At data offset piece) :=
  inferInstanceAs (Decidable (piece <+: data.drop offset))

theorem at_iff_getElem? :
    At data offset piece ↔ ∀ k < piece.length, data[offset + k]? = piece[k]? := by
  rw [At, List.prefix_iff_getElem?]
  refine forall₂_congr ?_
  intro k hk
  rw [List.getElem?_drop, List.getElem?_eq_getElem hk]

theorem At.getElem? (h : At data offset piece) {k : ℕ} (hk : k < piece.length) :
    data[offset + k]? = piece[k]? :=
  at_iff_getElem?.mp h k hk

theorem At.split (h : At data offset piece) :
    ∃ back, data = data.take offset ++ (piece ++ back) := by
  obtain ⟨back, hback⟩ := h
  refine ⟨back, ?_⟩
  rw [hback, List.take_append_drop]

theorem at_middle (front piece back : List α) : At (front ++ (piece ++ back)) front.length piece :=
  ⟨back, (List.drop_left ..).symm⟩

theorem At.length_le (h : At data offset piece) (hne : piece ≠ []) :
    offset + piece.length ≤ data.length := by
  have hlength := List.IsPrefix.length_le h
  have hpos := List.length_pos_iff.mpr hne
  rw [List.length_drop] at hlength
  omega

theorem At.take_drop (h : At data offset piece) : (data.drop offset).take piece.length = piece :=
  (List.prefix_iff_eq_take.mp h).symm

end Pieces

/-! ## Numbers -/

inductive Endian where
  | little
  | big
deriving DecidableEq

/-- The number that the bytes are. -/
def Endian.number : Endian → List UInt8 → ℕ
  | .little, bytes => fromBytes bytes.reverse
  | .big, bytes => fromBytes bytes

def Endian.bytes (endian : Endian) (width n : ℕ) : List UInt8 :=
  match endian with
  | .little => (bigEndian width n).reverse
  | .big => bigEndian width n

@[simp] theorem Endian.length_bytes (endian : Endian) (width n : ℕ) :
    (endian.bytes width n).length = width := by
  cases endian with
  | little => rw [Endian.bytes, List.length_reverse, length_bigEndian]
  | big => exact length_bigEndian width n

theorem Endian.number_bytes (endian : Endian) {width n : ℕ} (h : n < 256 ^ width) :
    endian.number (endian.bytes width n) = n := by
  cases endian with
  | little => rw [Endian.number, Endian.bytes, List.reverse_reverse, fromBytes_bigEndian width n h]
  | big => exact fromBytes_bigEndian width n h

/-- The unsigned number at an offset. -/
def word (endian : Endian) (data : List UInt8) (offset width : ℕ) : ℕ :=
  endian.number ((data.drop offset).take width)

theorem word_of_at {endian : Endian} {data : List UInt8} {offset width n : ℕ}
    (h : At data offset (endian.bytes width n)) (hn : n < 256 ^ width) :
    word endian data offset width = n := by
  have htake := h.take_drop
  rw [Endian.length_bytes] at htake
  rw [word, htake, endian.number_bytes hn]

/-- The number in two's complement. -/
def signed (width n : ℕ) : ℤ :=
  if 2 * n < 256 ^ width then n else (n : ℤ) - (256 ^ width : ℕ)

def unsigned (width : ℕ) (z : ℤ) : ℕ := (z % (256 ^ width : ℕ)).toNat

theorem unsigned_lt (width : ℕ) (z : ℤ) : unsigned width z < 256 ^ width := by
  have hpos : 0 < 256 ^ width := Nat.pow_pos (by decide)
  have hlow := Int.emod_nonneg z (b := (256 ^ width : ℕ)) (by omega)
  have hhigh := Int.emod_lt_of_pos z (b := (256 ^ width : ℕ)) (by omega)
  rw [unsigned]
  omega

theorem signed_unsigned {width : ℕ} {z : ℤ} (hlow : -(256 ^ width : ℕ) ≤ 2 * z)
    (hhigh : 2 * z < (256 ^ width : ℕ)) : signed width (unsigned width z) = z := by
  have hpos : 0 < 256 ^ width := Nat.pow_pos (by decide)
  rw [signed, unsigned]
  generalize 256 ^ width = bound at *
  by_cases hz : 0 ≤ z
  · rw [Int.emod_eq_of_lt hz (by omega), if_pos (by omega)]
    omega
  · have hmod : z % (bound : ℤ) = z + bound := by
      rw [← Int.add_emod_right, Int.emod_eq_of_lt (by omega) (by omega)]
    rw [hmod, if_neg (by omega)]
    omega

/-! ## Strings -/

/-- The bytes before the next zero. -/
def cString (data : List UInt8) (start : ℕ) : List UInt8 :=
  (data.drop start).takeWhile (· ≠ 0)

/-- There is a zero in the range. -/
def Terminated (data : List UInt8) (start stop : ℕ) : Prop :=
  ∃ p, start ≤ p ∧ p < stop ∧ data[p]? = some 0

theorem cString_of_at {data s : List UInt8} {start : ℕ} (h : At data start (s ++ [0]))
    (hs : 0 ∉ s) : cString data start = s := by
  obtain ⟨rest, hrest⟩ := h
  have hall : ∀ b ∈ s, (decide (b ≠ 0)) = true := by
    intro b hb
    exact decide_eq_true fun h => hs (h ▸ hb)
  rw [cString, ← hrest, List.append_assoc, List.takeWhile_append_of_pos hall]
  simp

theorem terminated_of_at {data s : List UInt8} {start stop : ℕ} (h : At data start (s ++ [0]))
    (hstop : start + s.length < stop) : Terminated data start stop := by
  refine ⟨start + s.length, by omega, hstop, ?_⟩
  rw [h.getElem? (by simp)]
  simp

theorem zero_of_takeWhile {bytes : List UInt8}
    (h : (bytes.takeWhile (· ≠ 0)).length < bytes.length) :
    bytes[(bytes.takeWhile (· ≠ 0)).length]? = some 0 := by
  induction bytes with
  | nil => cases h
  | cons b bytes ih =>
      by_cases hb : b = 0
      · simp [hb]
      · simp only [List.takeWhile_cons, hb, ne_eq, not_false_eq_true, decide_true, if_true,
          List.length_cons, Nat.add_lt_add_iff_right] at h ⊢
        exact ih h

theorem takeWhile_le_of_zero {bytes : List UInt8} {k : ℕ} (h : bytes[k]? = some 0) :
    (bytes.takeWhile (· ≠ 0)).length ≤ k := by
  induction bytes generalizing k with
  | nil => exact Nat.zero_le _
  | cons b bytes ih =>
      by_cases hb : b = 0
      · simp [hb]
      · cases k with
        | zero => exact absurd (Option.some.inj h) hb
        | succ k =>
            simp only [List.takeWhile_cons, hb, ne_eq, not_false_eq_true, decide_true, if_true,
              List.length_cons, Nat.add_le_add_iff_right]
            exact ih h

theorem terminated_iff {data : List UInt8} {start stop : ℕ} : Terminated data start stop ↔
    start + (cString data start).length < min stop data.length := by
  constructor
  · rintro ⟨p, hstart, hstop, hzero⟩
    have hlength := (List.getElem?_eq_some_iff.mp hzero).1
    rw [show p = start + (p - start) by omega, ← List.getElem?_drop] at hzero
    have hle := takeWhile_le_of_zero hzero
    rw [cString]
    omega
  · intro h
    refine ⟨start + (cString data start).length, Nat.le_add_right _ _, by omega, ?_⟩
    rw [← List.getElem?_drop]
    refine zero_of_takeWhile ?_
    rw [List.length_drop]
    rw [cString] at h
    omega

end Zmux
