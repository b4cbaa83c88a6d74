import Mathlib.Data.List.Basic

/-!
# White space

`str.strip` and the first word of a line, on lists of characters.
-/

namespace Zmux

/-- Whether a text is one of a list of texts is decided by comparing. -/
instance lawfulBEqChars : LawfulBEq (List Char) := inferInstance

/-- The characters `str.strip` removes. -/
def isSpace (c : Char) : Bool :=
  c ∈ ['\t', '\n', '\x0b', '\x0c', '\r', '\x1c', '\x1d', '\x1e', '\x1f', ' ',
    '\u0085', '\u00a0', '\u1680', '\u2028', '\u2029', '\u202f', '\u205f', '\u3000']
  || ('\u2000' ≤ c && c ≤ '\u200a')

def strip (s : List Char) : List Char :=
  ((s.dropWhile isSpace).reverse.dropWhile isSpace).reverse

/-- `text.lstrip().split(maxsplit=1)[0]`, and the empty word of a blank text. -/
def firstWord (text : List Char) : List Char :=
  (text.dropWhile isSpace).takeWhile fun c => !isSpace c

theorem strip_of_noSpace {s : List Char} (h : ∀ c ∈ s, isSpace c = false) : strip s = s := by
  have hdrop : ∀ l : List Char, (∀ c ∈ l, isSpace c = false) → l.dropWhile isSpace = l := by
    intro l hl
    cases l with
    | nil => rfl
    | cons c cs => simp [hl c (List.mem_cons_self ..)]
  rw [strip, hdrop s h, hdrop _ (fun c hc => h c (List.mem_reverse.mp hc)), List.reverse_reverse]

/-- What stands between white space is kept. -/
theorem strip_between {before inner after : List Char} {c d : Char}
    (hbefore : ∀ x ∈ before, isSpace x) (hafter : ∀ x ∈ after, isSpace x)
    (hc : isSpace c = false) (hd : isSpace d = false) :
    strip (before ++ c :: (inner ++ d :: after)) = c :: (inner ++ [d]) := by
  have hleft : (before ++ c :: (inner ++ d :: after)).dropWhile isSpace
      = c :: (inner ++ d :: after) := by
    rw [List.dropWhile_append_of_pos hbefore]
    exact List.dropWhile_cons_of_neg (by simp [hc])
  have hreverse : (c :: (inner ++ d :: after)).reverse
      = after.reverse ++ d :: (c :: inner).reverse := by simp
  have hright : (c :: (inner ++ d :: after)).reverse.dropWhile isSpace
      = d :: (c :: inner).reverse := by
    rw [hreverse, List.dropWhile_append_of_pos fun x hx => hafter x (List.mem_reverse.mp hx)]
    exact List.dropWhile_cons_of_neg (by simp [hd])
  rw [strip, hleft, hright]
  simp

/-- A line with one word between white space starts with that word. -/
theorem firstWord_of_strip {line word : List Char} (h : strip line = word)
    (hword : ∀ c ∈ word, isSpace c = false) : firstWord line = word := by
  have hsplit : line.dropWhile isSpace
      = word ++ ((line.dropWhile isSpace).reverse.takeWhile isSpace).reverse := by
    have happend := List.takeWhile_append_dropWhile (p := isSpace)
      (l := (line.dropWhile isSpace).reverse)
    rw [← h, strip, ← List.reverse_append, happend, List.reverse_reverse]
  have hend : (((line.dropWhile isSpace).reverse.takeWhile isSpace).reverse).takeWhile
      (fun c => !isSpace c) = [] := by
    cases hspaces : ((line.dropWhile isSpace).reverse.takeWhile isSpace).reverse with
    | nil => rfl
    | cons c spaces =>
        have hc : c ∈ (line.dropWhile isSpace).reverse.takeWhile isSpace := by
          rw [← List.mem_reverse, hspaces]
          exact List.mem_cons_self
        rw [List.takeWhile_cons_of_neg (by simp [List.all_eq_true.mp List.all_takeWhile c hc])]
  rw [firstWord, hsplit, List.takeWhile_append_of_pos fun c hc => by simp [hword c hc], hend,
    List.append_nil]

end Zmux
