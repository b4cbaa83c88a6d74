import Zmux.Utf8

/-!
# UTF-8 without errors

The strict decoder, as a text stream uses it: the bytes come in pieces,
each piece is decoded from the state the last one left, and a byte that
continues no character is an error at once (`none`). It is the decoder of
`Zmux.Utf8` on the bytes it accepts. The encoding of a text is accepted
and gives the text back (`decodeStrict_encode`), in any pieces
(`decodeStrict_append`).
-/

namespace Zmux

namespace Utf8

/-- The byte may come here. -/
def accepts : State → ℕ → Bool
  | .start, b => decide (b < 0x80) || (lead? b).isSome
  | .inside _ low high _, b => decide (low + 0x80 ≤ b ∧ b ≤ high + 0x80)

/-- The text of a piece, and the state after it. -/
def decodeStrict : State → List UInt8 → Option (List Char × State)
  | s, [] => some ([], s)
  | s, b :: bs =>
    if accepts s b.toNat then
      (decodeStrict (feed [] s b.toNat).2 bs).map fun later =>
        ((feed [] s b.toNat).1 ++ later.1, later.2)
    else none

theorem decodeStrict_cons {s s' : State} {b : UInt8} {bs : List UInt8} {text : List Char}
    (h : decodeStrict s (b :: bs) = some (text, s')) :
    accepts s b.toNat = true ∧ ∃ later, decodeStrict (feed [] s b.toNat).2 bs = some (later, s')
      ∧ text = (feed [] s b.toNat).1 ++ later := by
  rw [decodeStrict] at h
  split at h
  · rename_i hb
    obtain ⟨⟨later, s₁⟩, hlater, heq⟩ := Option.map_eq_some_iff.mp h
    obtain ⟨rfl, rfl⟩ := Prod.mk.inj heq
    exact ⟨hb, later, hlater, rfl⟩
  · cases h

/-! ## Pieces -/

theorem decodeStrict_append (s : State) (front back : List UInt8) :
    decodeStrict s (front ++ back) = (decodeStrict s front).bind fun piece =>
      (decodeStrict piece.2 back).map fun later => (piece.1 ++ later.1, later.2) := by
  induction front generalizing s with
  | nil =>
      show _ = (decodeStrict s back).map fun later => ([] ++ later.1, later.2)
      simp
  | cons b front ih =>
      rw [List.cons_append, decodeStrict, decodeStrict]
      split
      · rw [ih, Option.bind_map]
        cases decodeStrict (feed [] s b.toNat).2 front with
        | none => rfl
        | some piece =>
            show (Option.map _ (decodeStrict piece.2 back)).map _ = Option.map _ _
            rw [Option.map_map]
            congr 1
            funext later
            simp only [Function.comp, List.append_assoc]
      · rfl

/-- A piece in the middle of what is accepted. -/
theorem decodeStrict_piece {s s₁ s' : State} {front back : List UInt8} {before text : List Char}
    (hfront : decodeStrict s front = some (before, s₁))
    (h : decodeStrict s (front ++ back) = some (text, s')) :
    ∃ later, decodeStrict s₁ back = some (later, s') ∧ text = before ++ later := by
  rw [decodeStrict_append, hfront, Option.bind_some] at h
  obtain ⟨⟨later, s₂⟩, hback, heq⟩ := Option.map_eq_some_iff.mp h
  obtain ⟨rfl, rfl⟩ := Prod.mk.inj heq
  exact ⟨later, hback, rfl⟩

theorem decodeStrict_prefix {s s' : State} {front back : List UInt8} {text : List Char}
    (h : decodeStrict s (front ++ back) = some (text, s')) :
    ∃ piece, decodeStrict s front = some piece := by
  rw [decodeStrict_append] at h
  obtain ⟨piece, hpiece, -⟩ := Option.bind_eq_some_iff.mp h
  exact ⟨piece, hpiece⟩

/-! ## At most one character for each byte -/

theorem length_feed_le (s : State) (b : ℕ) : (feed [] s b).1.length ≤ 1 := by
  have hfirst : (first [] b).1.length ≤ 1 := by
    rw [first]
    split
    · exact Nat.le_refl 1
    · split <;> exact Nat.zero_le 1
  cases s with
  | start => exact hfirst
  | inside value low high more =>
      rw [feed.eq_def]
      dsimp only
      split
      · cases more with
        | zero => exact Nat.le_refl 1
        | succ more => exact Nat.zero_le 1
      · exact hfirst

theorem length_decodeStrict_le {s s' : State} {bytes : List UInt8} {text : List Char}
    (h : decodeStrict s bytes = some (text, s')) : text.length ≤ bytes.length := by
  induction bytes generalizing s text with
  | nil =>
      obtain ⟨rfl, -⟩ := Prod.mk.inj (Option.some.inj h)
      exact Nat.le_refl 0
  | cons b bytes ih =>
      obtain ⟨-, later, hlater, rfl⟩ := decodeStrict_cons h
      have hfeed := length_feed_le s b.toNat
      have hle := ih hlater
      rw [List.length_append, List.length_cons]
      omega

/-! ## The encoding is accepted -/

section Marked

variable {mark : Char}

/-- A byte that may come is never an error. -/
theorem feed_of_accepts {s : State} {b : ℕ} (h : accepts s b = true) :
    feed [mark] s b = feed [] s b := by
  cases s with
  | start =>
      rw [feed, feed, first, first]
      split
      · rfl
      · rename_i hb
        have hlead : (lead? b).isSome = true := by simpa [accepts, hb] using h
        obtain ⟨s', hs'⟩ := Option.isSome_iff_exists.mp hlead
        rw [hs']
  | inside value low high more =>
      have hb : low + 0x80 ≤ b ∧ b ≤ high + 0x80 := of_decide_eq_true h
      rw [feed.eq_def, feed.eq_def]
      dsimp only
      rw [if_pos hb, if_pos hb]

theorem feed_state (s : State) (b : ℕ) : (feed [mark] s b).2 = (feed [] s b).2 := by
  have hfirst : (first [mark] b).2 = (first [] b).2 := by
    rw [first, first]
    split
    · rfl
    · split <;> rfl
  cases s with
  | start => exact hfirst
  | inside value low high more =>
      rw [feed.eq_def, feed.eq_def]
      dsimp only
      split
      · rfl
      · exact hfirst

theorem length_first_le (mark : Char) (b : ℕ) :
    (first [] b).1.length ≤ (first [mark] b).1.length := by
  rw [first, first]
  split
  · exact Nat.le_refl 1
  · split
    · exact Nat.le_refl 0
    · exact Nat.zero_le 1

/-- Any other leaves a mark. -/
theorem length_feed_lt {s : State} {b : ℕ} (h : accepts s b = false) :
    (feed [] s b).1.length < (feed [mark] s b).1.length := by
  cases s with
  | start =>
      obtain ⟨hb, hlead⟩ := Bool.or_eq_false_iff.mp h
      have hnone : lead? b = none := Option.not_isSome_iff_eq_none.mp (by simp [hlead])
      rw [feed, feed, first, first, if_neg (of_decide_eq_false hb),
        if_neg (of_decide_eq_false hb), hnone]
      exact Nat.zero_lt_one
  | inside value low high more =>
      have hb : ¬(low + 0x80 ≤ b ∧ b ≤ high + 0x80) := of_decide_eq_false h
      have hle := length_first_le mark b
      rw [feed.eq_def, feed.eq_def]
      dsimp only
      rw [if_neg hb, if_neg hb, List.length_append, List.length_append]
      exact Nat.add_lt_add_of_lt_of_le Nat.zero_lt_one hle

theorem length_decodeFrom_le (s : State) (bytes : List UInt8) :
    (decodeFrom [] s bytes).length ≤ (decodeFrom [mark] s bytes).length := by
  induction bytes generalizing s with
  | nil =>
      cases s with
      | start => exact Nat.le_refl 0
      | inside => exact Nat.zero_le 1
  | cons b bytes ih =>
      rw [decodeFrom, decodeFrom, feed_state, List.length_append, List.length_append]
      refine Nat.add_le_add ?_ (ih _)
      by_cases hb : accepts s b.toNat = true
      · rw [feed_of_accepts hb]
      · exact (length_feed_lt (eq_false_of_ne_true hb)).le

/-- What is accepted leaves no mark, and what is not leaves one. -/
theorem decodeStrict_or_lt (mark : Char) (s : State) (bytes : List UInt8) :
    decodeStrict s bytes = some (decodeFrom [] s bytes, .start)
      ∨ (decodeFrom [] s bytes).length < (decodeFrom [mark] s bytes).length := by
  induction bytes generalizing s with
  | nil =>
      cases s with
      | start => exact .inl rfl
      | inside => exact .inr Nat.zero_lt_one
  | cons b bytes ih =>
      rw [decodeStrict, decodeFrom, decodeFrom, feed_state, List.length_append,
        List.length_append]
      by_cases hb : accepts s b.toNat = true
      · rw [if_pos hb, feed_of_accepts hb]
        rcases ih (feed [] s b.toNat).2 with hstrict | hlt
        · left
          rw [hstrict]
          rfl
        · exact .inr (Nat.add_lt_add_left hlt _)
      · right
        exact Nat.add_lt_add_of_lt_of_le (length_feed_lt (eq_false_of_ne_true hb))
          (length_decodeFrom_le _ bytes)

end Marked

/-- The encoding of a text is accepted, and is that text. -/
theorem decodeStrict_encode (text : List Char) :
    decodeStrict .start (encode text) = some (text, .start) := by
  have hplain : decodeFrom [] .start (encode text) = text := decode_encode text
  have hmarked : decodeFrom ['?'] .start (encode text) = text := decode_encode text
  rcases decodeStrict_or_lt '?' .start (encode text) with h | hlt
  · rw [h, hplain]
  · rw [hplain, hmarked] at hlt
    exact absurd hlt (Nat.lt_irrefl _)

end Utf8

end Zmux
