import Mathlib.Algebra.Ring.Nat
import Mathlib.Data.List.Basic

/-!
# Reading a stream that arrives in pieces

A `Chunked` stream is what a peer sends before it closes the connection,
together with the sizes in which it arrives: `recv` hands out between one
byte and what was asked for, and nothing only at the end of the stream. A
reader is a state transformer of such streams that can fail.

`Exactly m bytes a e` is the contract of a reader for one encoding: it
takes these bytes from the front of any stream, whatever their pieces,
and returns `a`; on a stream that ends before, it fails with `e`. The
contract composes along `>>=`, with the encodings concatenated
(`Exactly.bind`). The big-endian numbers at the end are the
field that most encodings share.
-/

namespace Zmux

structure Chunked (β : Type*) where
  bytes : List β
  /-- How many bytes beyond the first each call may hand out. -/
  sizes : ℕ → ℕ

/-- One call of `recv`. -/
def Chunked.recv {β : Type*} (asked : ℕ) (s : Chunked β) : List β × Chunked β :=
  let size := min asked (s.sizes 0 + 1)
  (s.bytes.take size, { bytes := s.bytes.drop size, sizes := fun i => s.sizes (i + 1) })

abbrev Reader (β ε : Type) := StateT (Chunked β) (Except ε)

section Contract

variable {β ε α γ : Type}

theorem Reader.bind_ok {m : Reader β ε α} {f : α → Reader β ε γ} {s s' : Chunked β} {a : α}
    (h : m s = .ok (a, s')) : (m >>= f) s = f a s' := by
  change Except.bind (m s) _ = _
  rw [h]
  rfl

theorem Reader.bind_error {m : Reader β ε α} {f : α → Reader β ε γ} {s : Chunked β} {e : ε}
    (h : m s = .error e) : (m >>= f) s = .error e := by
  change Except.bind (m s) _ = _
  rw [h]
  rfl

structure Exactly (m : Reader β ε α) (bytes : List β) (a : α) (e : ε) : Prop where
  whole : ∀ rest sizes, ∃ sizes', m ⟨bytes ++ rest, sizes⟩ = .ok (a, ⟨rest, sizes'⟩)
  cut : ∀ front sizes, front <+: bytes → front ≠ bytes → m ⟨front, sizes⟩ = .error e

theorem Exactly.pure (a : α) (e : ε) : Exactly (pure a : Reader β ε α) [] a e where
  whole _ sizes := ⟨sizes, rfl⟩
  cut _ _ hfront hne := absurd (List.prefix_nil.mp hfront) hne

/-- A proper start of two encodings ends in the first, or is the first and
a proper start of the second. -/
theorem prefix_append_cases {front a b : List β} (h : front <+: a ++ b) (hne : front ≠ a ++ b) :
    (front <+: a ∧ front ≠ a) ∨ ∃ front', front = a ++ front' ∧ front' <+: b ∧ front' ≠ b := by
  rcases List.prefix_or_prefix_of_prefix h (List.prefix_append a b) with hshort | ⟨front', rfl⟩
  · by_cases hall : front = a
    · refine Or.inr ⟨[], by rw [hall, List.append_nil], List.nil_prefix, ?_⟩
      rintro rfl
      exact hne (by rw [hall, List.append_nil])
    · exact Or.inl ⟨hshort, hall⟩
  · refine Or.inr ⟨front', rfl, List.prefix_append_right_inj a |>.mp h, ?_⟩
    rintro rfl
    exact hne rfl

theorem Exactly.bind {m : Reader β ε α} {f : α → Reader β ε γ} {xs ys : List β} {a : α} {c : γ}
    {e : ε} (hm : Exactly m xs a e) (hf : Exactly (f a) ys c e) :
    Exactly (m >>= f) (xs ++ ys) c e where
  whole rest sizes := by
    rw [List.append_assoc]
    obtain ⟨sizes₁, h₁⟩ := hm.whole (ys ++ rest) sizes
    obtain ⟨sizes₂, h₂⟩ := hf.whole rest sizes₁
    exact ⟨sizes₂, (Reader.bind_ok h₁).trans h₂⟩
  cut front sizes hfront hne := by
    rcases prefix_append_cases hfront hne with ⟨hxs, hne⟩ | ⟨front', rfl, hys, hne⟩
    · exact Reader.bind_error (hm.cut front sizes hxs hne)
    · obtain ⟨sizes₁, h₁⟩ := hm.whole front' sizes
      exact (Reader.bind_ok h₁).trans (hf.cut front' sizes₁ hys hne)

end Contract

/-! ## Big-endian numbers -/

/-- The last `size` digits of `n` in base 256. -/
def bigEndian : (size n : ℕ) → List UInt8
  | 0, _ => []
  | size + 1, n => bigEndian size (n / 256) ++ [(n % 256).toUInt8]

/-- `int.to_bytes(size, "big")`; `none` stands for its `OverflowError`. -/
def toBytes (size n : ℕ) : Option (List UInt8) :=
  if n < 256 ^ size then some (bigEndian size n) else none

/-- `int.from_bytes(bytes, "big")`. -/
def fromBytes (bytes : List UInt8) : ℕ :=
  bytes.foldl (fun n b => n * 256 + b.toNat) 0

theorem length_bigEndian (size : ℕ) : ∀ n, (bigEndian size n).length = size := by
  induction size with
  | zero => exact fun _ => rfl
  | succ size ih =>
      intro n
      rw [bigEndian, List.length_append, ih]
      rfl

theorem fromBytes_bigEndian (size : ℕ) :
    ∀ n, n < 256 ^ size → fromBytes (bigEndian size n) = n := by
  induction size with
  | zero =>
      intro n hn
      rw [Nat.pow_zero, Nat.lt_one_iff] at hn
      rw [hn]
      rfl
  | succ size ih =>
      intro n hn
      have hhigh : n / 256 < 256 ^ size := by
        rw [Nat.pow_succ] at hn
        exact Nat.div_lt_of_lt_mul (by omega)
      have hlow : (n % 256).toUInt8.toNat = n % 256 :=
        UInt8.toNat_ofNat_of_lt' (Nat.mod_lt _ (by decide))
      calc fromBytes (bigEndian size (n / 256) ++ [(n % 256).toUInt8])
          = fromBytes (bigEndian size (n / 256)) * 256 + (n % 256).toUInt8.toNat := by
            simp [fromBytes, List.foldl_append]
        _ = n / 256 * 256 + n % 256 := by rw [ih _ hhigh, hlow]
        _ = n := Nat.div_add_mod' n 256

end Zmux
