import Mathlib.Data.List.Basic

/-!
# Taking a sequence out of a stream

A stream without the occurrences of a needle: `uncovered` keeps the
elements that no occurrence covers, and `occurrences` counts the places
where one starts. Both look at the whole stream.

A filter that sees the stream chunk by chunk emits some of it, counts
some occurrences and holds back a tail. `Splits` says that this is right
so far: whatever comes next, the rest of the work is that of the tail and
what comes next. It composes along the chunks (`Splits.trans`), and it
holds for the two moves of a filter: to emit what no occurrence touches
(`splits_skip`), and to take out an occurrence at the front
(`splits_hit`). The latter needs a needle that does not overlap with
itself; `FirstOnce` is enough.
-/

namespace Zmux

section Needle

variable {α : Type*} [DecidableEq α] (needle : List α)

/-- The number of places where the needle occurs. -/
def occurrences : List α → ℕ
  | [] => 0
  | b :: bs => (if needle <+: b :: bs then 1 else 0) + occurrences bs

/-- The elements that no occurrence covers; the first `covered` ones are
covered by an occurrence before them. -/
def uncovered : (covered : ℕ) → List α → List α
  | _, [] => []
  | covered, b :: bs =>
    if needle <+: b :: bs then uncovered (needle.length - 1) bs
    else match covered with
      | 0 => b :: uncovered 0 bs
      | covered + 1 => uncovered covered bs

/-- The stream with all occurrences removed. -/
def without (data : List α) : List α := uncovered needle 0 data

/-- The first element of the needle does not come again in it. -/
def FirstOnce (needle : List α) : Prop :=
  ∃ first body, needle = first :: body ∧ first ∉ body

/-- `out`, `n` and `tail` are right for `data`, whatever comes next. -/
def Splits (data out : List α) (n : ℕ) (tail : List α) : Prop :=
  ∀ more, without needle (data ++ more) = out ++ without needle (tail ++ more) ∧
    occurrences needle (data ++ more) = n + occurrences needle (tail ++ more)

variable {needle}

theorem Splits.refl (data : List α) : Splits needle data [] 0 data :=
  fun _ => ⟨rfl, (Nat.zero_add _).symm⟩

theorem Splits.trans {data out out' tail tail' : List α} {n n' : ℕ}
    (h : Splits needle data out n tail) (h' : Splits needle tail out' n' tail') :
    Splits needle data (out ++ out') (n + n') tail' := by
  intro more
  obtain ⟨hout, hcount⟩ := h more
  obtain ⟨hout', hcount'⟩ := h' more
  rw [hout, hcount, hout', hcount', List.append_assoc, Nat.add_assoc]
  exact ⟨rfl, rfl⟩

theorem Splits.append {data out tail : List α} {n : ℕ} (h : Splits needle data out n tail)
    (chunk : List α) : Splits needle (data ++ chunk) out n (tail ++ chunk) := by
  intro more
  rw [List.append_assoc, List.append_assoc]
  exact h (chunk ++ more)

/-- Up to the first occurrence nothing is removed. -/
theorem without_skip {i : ℕ} : ∀ data : List α, i ≤ data.length →
    (∀ j < i, ¬ needle <+: data.drop j) →
      without needle data = data.take i ++ without needle (data.drop i) ∧
        occurrences needle data = occurrences needle (data.drop i) := by
  induction i with
  | zero => exact fun _ _ _ => ⟨rfl, rfl⟩
  | succ i ih =>
      intro data hlength hnone
      cases data with
      | nil => exact absurd hlength (Nat.not_succ_le_zero i)
      | cons b bs =>
          have hfirst : ¬ needle <+: b :: bs := hnone 0 (Nat.succ_pos i)
          obtain ⟨hout, hcount⟩ := ih bs (Nat.le_of_succ_le_succ hlength)
            fun j hj => hnone (j + 1) (Nat.succ_lt_succ hj)
          rw [List.take_succ_cons, List.drop_succ_cons, List.cons_append, ← hout, ← hcount]
          constructor
          · rw [without, uncovered, if_neg hfirst]
            rfl
          · rw [occurrences, if_neg hfirst, Nat.zero_add]

theorem splits_skip {data : List α} {i : ℕ} (hlength : i ≤ data.length)
    (hnone : ∀ more, ∀ j < i, ¬ needle <+: (data ++ more).drop j) :
    Splits needle data (data.take i) 0 (data.drop i) := by
  intro more
  have hskip := without_skip (data ++ more) (by rw [List.length_append]; omega) (hnone more)
  rw [List.take_append_of_le_length hlength, List.drop_append_of_le_length hlength] at hskip
  rw [Nat.zero_add]
  exact hskip

/-- Nothing is emitted from the rest of an occurrence. -/
theorem covered_body {first : α} {body : List α} (hneedle : needle = first :: body)
    (rest : List α) :
    ∀ w : List α, first ∉ w → uncovered needle w.length (w ++ rest) = without needle rest ∧
      occurrences needle (w ++ rest) = occurrences needle rest := by
  intro w
  induction w with
  | nil => exact fun _ => ⟨rfl, rfl⟩
  | cons b w ih =>
      intro hw
      have hno : ¬ needle <+: b :: (w ++ rest) := by
        rw [hneedle, List.cons_prefix_cons]
        rintro ⟨rfl, -⟩
        exact hw (List.mem_cons_self ..)
      obtain ⟨hout, hcount⟩ := ih fun h => hw (List.mem_cons_of_mem _ h)
      constructor
      · rw [List.cons_append, List.length_cons, uncovered, if_neg hno]
        exact hout
      · rw [List.cons_append, occurrences, if_neg hno, Nat.zero_add]
        exact hcount

theorem splits_hit (h : FirstOnce needle) (rest : List α) :
    Splits needle (needle ++ rest) [] 1 rest := by
  obtain ⟨first, body, hneedle, hfirst⟩ := h
  intro more
  have hcons : needle ++ rest ++ more = first :: (body ++ (rest ++ more)) := by
    rw [hneedle, List.append_assoc]
    rfl
  have hhit : needle <+: first :: (body ++ (rest ++ more)) := by
    rw [← hcons, List.append_assoc]
    exact List.prefix_append ..
  have hlength : needle.length - 1 = body.length := by
    rw [hneedle]
    rfl
  obtain ⟨hout, hcount⟩ := covered_body hneedle (rest ++ more) body hfirst
  rw [hcons]
  constructor
  · rw [without, uncovered, if_pos hhit, hlength]
    exact hout
  · rw [occurrences, if_pos hhit, hcount]

/-- There is no occurrence in less than its length. -/
theorem without_short {data : List α} (h : data.length < needle.length) :
    without needle data = data ∧ occurrences needle data = 0 := by
  have hnone : ∀ j < data.length, ¬ needle <+: data.drop j := by
    intro j _ hstarts
    have hle := hstarts.length_le
    rw [List.length_drop] at hle
    omega
  have hskip := without_skip data (Nat.le_refl _) hnone
  rw [List.take_length, List.drop_length] at hskip
  exact ⟨hskip.1.trans (List.append_nil _), hskip.2⟩

end Needle

end Zmux
