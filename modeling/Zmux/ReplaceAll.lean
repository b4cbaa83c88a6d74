import Mathlib.Data.Nat.Find
import Zmux.ByteImage

/-!
# Replacing a word by one of its length

`replaceAll` scans from the left and goes on behind each occurrence, as
`bytes.replace` does. Where the word does not overlap with itself
(`Borderless`) this replaces all occurrences, each on its own, so the
result is known element by element (`getElem?_replaceAll_of_at`,
`getElem?_replaceAll_of_not`).

`cutAt` is what a reader sees of it that stops inside the first
occurrence.
-/

namespace Zmux

section Word

variable {α : Type*} [DecidableEq α]

/-- `data.replace(word, replacement)`; the first `skip` elements belong to
an occurrence before them. -/
def replaceFrom (word replacement : List α) : (skip : ℕ) → List α → List α
  | _, [] => []
  | skip + 1, _ :: rest => replaceFrom word replacement skip rest
  | 0, a :: rest =>
    if word <+: a :: rest then replacement ++ replaceFrom word replacement (word.length - 1) rest
    else a :: replaceFrom word replacement 0 rest

def replaceAll (word replacement data : List α) : List α := replaceFrom word replacement 0 data

/-- `data.count(word)`. -/
def countFrom (word : List α) : (skip : ℕ) → List α → ℕ
  | _, [] => 0
  | skip + 1, _ :: rest => countFrom word skip rest
  | 0, a :: rest =>
    if word <+: a :: rest then 1 + countFrom word (word.length - 1) rest
    else countFrom word 0 rest

/-- The elements before the first occurrence of the word, and `kept`; all
of them when there is none. -/
def cutAt (word kept : List α) : List α → List α
  | [] => []
  | a :: rest => if word <+: a :: rest then kept else a :: cutAt word kept rest

/-- No end of the word is a start of it. -/
def Borderless (word : List α) : Prop :=
  word ≠ [] ∧ ∀ k < word.length, 0 < k → ¬ word.drop k <+: word

instance (word : List α) : Decidable (Borderless word) := instDecidableAnd

variable {word replacement kept data rest : List α} {a : α} {i j k : ℕ}

omit [DecidableEq α] in
theorem at_zero : At data 0 word ↔ word <+: data := Iff.rfl

omit [DecidableEq α] in
theorem at_cons : At (a :: rest) (i + 1) word ↔ At rest i word := Iff.rfl

omit [DecidableEq α] in
theorem at_append_right : At (data ++ rest) (data.length + i) word ↔ At rest i word := by
  rw [At, ← List.drop_drop, List.drop_left, At]

omit [DecidableEq α] in
/-- Two occurrences do not overlap. -/
theorem Borderless.apart (hword : Borderless word) (hi : At data i word) (hj : At data j word)
    (hlt : i < j) : i + word.length ≤ j := by
  by_contra hle
  have hback : word.drop (j - i) <+: data.drop j := by
    obtain ⟨rest, hrest⟩ := hi
    refine ⟨rest, ?_⟩
    rw [show data.drop j = (data.drop i).drop (j - i) by rw [List.drop_drop]; congr 1; omega,
      ← hrest, List.drop_append_of_le_length (by omega)]
  refine hword.2 (j - i) (by omega) (by omega) (List.prefix_of_prefix_length_le hback hj ?_)
  rw [List.length_drop]
  omega

theorem replaceFrom_skip (skip : ℕ) :
    replaceFrom word replacement skip data = replaceAll word replacement (data.drop skip) := by
  induction data generalizing skip with
  | nil =>
      rw [List.drop_nil]
      cases skip <;> rfl
  | cons a rest ih =>
      cases skip with
      | zero => rfl
      | succ skip => exact ih skip

theorem replaceAll_hit (hne : word ≠ []) :
    replaceAll word replacement (word ++ rest)
      = replacement ++ replaceAll word replacement rest := by
  cases word with
  | nil => exact absurd rfl hne
  | cons a word =>
      have hprefix : a :: word <+: a :: (word ++ rest) := List.prefix_append (a :: word) rest
      rw [replaceAll, List.cons_append, replaceFrom, if_pos hprefix, replaceFrom_skip,
        List.length_cons, Nat.add_sub_cancel, List.drop_left]

theorem replaceAll_miss (h : ¬ word <+: a :: rest) :
    replaceAll word replacement (a :: rest) = a :: replaceAll word replacement rest :=
  if_neg h

omit [DecidableEq α] in
/-- The data is scanned: it is at its end, at an occurrence, or at an
element that starts none. -/
theorem scan_induction {motive : List α → Prop} (hne : word ≠ []) (nil : motive [])
    (hit : ∀ rest, motive rest → motive (word ++ rest))
    (miss : ∀ a rest, ¬ word <+: a :: rest → motive rest → motive (a :: rest)) (data : List α) :
    motive data := by
  induction hlength : data.length using Nat.strong_induction_on generalizing data with
  | _ length ih =>
      cases data with
      | nil => exact nil
      | cons a rest =>
          by_cases hprefix : word <+: a :: rest
          · obtain ⟨back, hback⟩ := hprefix
            have hpos := List.length_pos_iff.mpr hne
            have hshort : back.length < length := by
              rw [← hlength, ← hback, List.length_append]
              omega
            rw [← hback]
            exact hit back (ih _ hshort back rfl)
          · refine miss a rest hprefix (ih rest.length ?_ rest rfl)
            rw [← hlength, List.length_cons]
            exact Nat.lt_succ_self _

theorem length_replaceAll (hne : word ≠ []) (hlength : replacement.length = word.length) :
    (replaceAll word replacement data).length = data.length := by
  induction data using scan_induction hne with
  | nil => rfl
  | hit rest ih => rw [replaceAll_hit hne, List.length_append, List.length_append, ih, hlength]
  | miss a rest hmiss ih => rw [replaceAll_miss hmiss, List.length_cons, List.length_cons, ih]

omit [DecidableEq α] in
theorem not_at_nil (hne : word ≠ []) : ¬ At [] i word := by
  intro h
  have hle := h.length_le hne
  have hpos := List.length_pos_iff.mpr hne
  rw [List.length_nil] at hle
  omega

/-- An occurrence is replaced. -/
theorem getElem?_replaceAll_of_at (hword : Borderless word)
    (hlength : replacement.length = word.length) (h : At data i word) (hk : k < word.length) :
    (replaceAll word replacement data)[i + k]? = replacement[k]? := by
  induction data using scan_induction hword.1 generalizing i with
  | nil => exact absurd h (not_at_nil hword.1)
  | hit rest ih =>
      rw [replaceAll_hit hword.1]
      by_cases hi : i = 0
      · rw [hi, Nat.zero_add, List.getElem?_append_left (by omega)]
      · have hle :=
          hword.apart (at_zero.mpr (List.prefix_append word rest)) h (Nat.pos_of_ne_zero hi)
        obtain ⟨i, rfl⟩ := Nat.exists_eq_add_of_le ((Nat.zero_add _).symm ▸ hle)
        rw [List.getElem?_append_right (by omega), ← ih (at_append_right.mp h)]
        congr 1
        omega
  | miss a rest hmiss ih =>
      rw [replaceAll_miss hmiss]
      cases i with
      | zero => exact absurd (at_zero.mp h) hmiss
      | succ i =>
          rw [Nat.succ_add, List.getElem?_cons_succ]
          exact ih (at_cons.mp h)

/-- What is in no occurrence stays. -/
theorem getElem?_replaceAll_of_not (hne : word ≠ []) (hlength : replacement.length = word.length)
    (h : ∀ i, At data i word → i ≤ j → i + word.length ≤ j) :
    (replaceAll word replacement data)[j]? = data[j]? := by
  induction data using scan_induction hne generalizing j with
  | nil => rfl
  | hit rest ih =>
      have hle := h 0 (at_zero.mpr (List.prefix_append word rest)) (Nat.zero_le _)
      obtain ⟨j, rfl⟩ := Nat.exists_eq_add_of_le hle
      rw [replaceAll_hit hne, Nat.zero_add, List.getElem?_append_right (by omega),
        List.getElem?_append_right (by omega), hlength, Nat.add_sub_cancel_left]
      refine ih ?_
      intro i hi hij
      have := h (word.length + i) (at_append_right.mpr hi) (by omega)
      omega
  | miss a rest hmiss ih =>
      rw [replaceAll_miss hmiss]
      cases j with
      | zero => rfl
      | succ j =>
          rw [List.getElem?_cons_succ, List.getElem?_cons_succ]
          refine ih ?_
          intro i hi hij
          have := h (i + 1) (at_cons.mpr hi) (by omega)
          omega

theorem replaceFrom_of_count {skip : ℕ} (h : countFrom word skip data = 0) :
    replaceFrom word replacement skip data = data.drop skip := by
  induction data generalizing skip with
  | nil => cases skip <;> rfl
  | cons a rest ih =>
      cases skip with
      | succ skip => exact ih h
      | zero =>
          rw [countFrom] at h
          rw [replaceFrom]
          by_cases hprefix : word <+: a :: rest
          · rw [if_pos hprefix] at h
            omega
          · rw [if_neg hprefix] at h ⊢
            exact congrArg (a :: ·) (ih h)

/-! ## Cutting -/

theorem cutAt_of_not (h : ∀ k, ¬ At data k word) : cutAt word kept data = data := by
  induction data with
  | nil => rfl
  | cons a rest ih =>
      rw [cutAt, if_neg (mt at_zero.mpr (h 0)), ih fun k => mt at_cons.mpr (h (k + 1))]

theorem cutAt_of_first (hne : word ≠ []) (h : At data k word) (hfirst : ∀ i < k, ¬ At data i word) :
    cutAt word kept data = data.take k ++ kept := by
  induction data generalizing k with
  | nil => exact absurd h (not_at_nil hne)
  | cons a rest ih =>
      cases k with
      | zero => rw [cutAt, if_pos (at_zero.mp h), List.take_zero, List.nil_append]
      | succ k =>
          rw [cutAt, if_neg (mt at_zero.mpr (hfirst 0 (Nat.succ_pos k))),
            ih (at_cons.mp h) fun i hi => mt at_cons.mpr (hfirst (i + 1) (Nat.succ_lt_succ hi))]
          rfl

omit [DecidableEq α] in
/-- There is no occurrence, or a first one. -/
theorem first_or_not (word data : List α) : (∀ k, ¬ At data k word) ∨
    ∃ k, At data k word ∧ ∀ i < k, ¬ At data i word := by
  classical
  by_cases h : ∃ k, At data k word
  · exact .inr ⟨Nat.find h, Nat.find_spec h, fun i hi => Nat.find_min h hi⟩
  · exact .inl fun k hk => h ⟨k, hk⟩

end Word

end Zmux
