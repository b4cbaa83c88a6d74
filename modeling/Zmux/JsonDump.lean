import Mathlib.Data.List.Lex
import Mathlib.Data.List.Sort
import Zmux.JsonWrite

/-!
# Writing JSON, as Python does

`json.dumps(data)`, on one line, and `json.dump(data, handle, indent=2,
sort_keys=True)`, one field or item a line, the fields of an object by
their keys. Both write nothing but ASCII. What is beyond stands as
`\uXXXX`, and beyond the basic plane as two of them, which `json.loads`
joins again (`joinSurrogates_units`).

The two differ in the white space (`Layout`). The reader returns the value
with its fields in the order they were written (`parse_dumps`,
`parse_dump`); with sorted keys it is as a dict the same
(`get?_dumpedFields`).
-/

namespace Zmux

namespace Json

/-! ## Strings -/

/-- The code units that `encode_basestring_ascii` writes for a code point. -/
def units (n : ℕ) : Codes :=
  if n < 0x10000 then [n]
  else [0xd800 + (n - 0x10000) / 0x400, 0xdc00 + (n - 0x10000) % 0x400]

/-- The text of a code unit. -/
def escapeAscii (n : ℕ) : List Char :=
  if n = 8 then ['\x5c', 'b']
  else if n = 9 then ['\x5c', 't']
  else if n = 10 then ['\x5c', 'n']
  else if n = 12 then ['\x5c', 'f']
  else if n = 13 then ['\x5c', 'r']
  else if n = 0x22 then ['\x5c', '\x22']
  else if n = 0x5c then ['\x5c', '\x5c']
  else if 0x20 ≤ n ∧ n ≤ 0x7e then [Char.ofNat n]
  else '\x5c' :: 'u' :: hex4 n

def quoteAscii (text : Codes) : List Char :=
  '\x22' :: ((text.flatMap units).flatMap escapeAscii ++ ['\x22'])

theorem units_lt {n m : ℕ} (hn : n < 0x110000) (hm : m ∈ units n) : m < 0x10000 := by
  rw [units] at hm
  split_ifs at hm with hbasic
  · exact List.mem_singleton.mp hm ▸ hbasic
  · simp only [List.mem_cons, List.not_mem_nil, or_false] at hm
    omega

theorem scanString_escapeAscii {n : ℕ} (h : n < 0x10000) (s : List Char) :
    scanString (escapeAscii n ++ s) = mapRead (n :: ·) (scanString s) := by
  rw [escapeAscii]
  split_ifs with h₁ h₂ h₃ h₄ h₅ h₆ h₇ hplain
  · exact h₁ ▸ scanString_unescape (by decide) rfl s
  · exact h₂ ▸ scanString_unescape (by decide) rfl s
  · exact h₃ ▸ scanString_unescape (by decide) rfl s
  · exact h₄ ▸ scanString_unescape (by decide) rfl s
  · exact h₅ ▸ scanString_unescape (by decide) rfl s
  · exact h₆ ▸ scanString_unescape (by decide) rfl s
  · exact h₇ ▸ scanString_unescape (by decide) rfl s
  · have hn : (Char.ofNat n).toNat = n := by
      refine toNat_ofNat (by omega) ?_ ?_ <;> simp [isHigh, isLow] <;> omega
    have hne : ∀ c : Char, c.toNat ≠ n → Char.ofNat n ≠ c := by
      rintro c hc rfl
      exact hc hn
    rw [List.singleton_append, scanString_plain (hne _ (Ne.symm h₆)) (hne _ (Ne.symm h₇))
      (by omega), hn]
  · exact scanString_hex4 h s

theorem scanString_units {text : Codes} (h : ∀ n ∈ text, n < 0x10000) (rest : List Char) :
    scanString (text.flatMap escapeAscii ++ '\x22' :: rest) = some (text, rest) := by
  induction text with
  | nil =>
      unfold scanString
      rfl
  | cons n text ih =>
      obtain ⟨hn, htext⟩ := List.forall_mem_cons.mp h
      rw [List.flatMap_cons, List.append_assoc, scanString_escapeAscii hn, ih htext]
      rfl

theorem length_joinSurrogates_le (text : Codes) : (joinSurrogates text).length ≤ text.length := by
  induction text using joinSurrogates.induct with
  | case1 high low rest hpair ih =>
      rw [joinSurrogates, if_pos hpair, List.length_cons, List.length_cons, List.length_cons]
      omega
  | case2 high low rest hpair ih =>
      rw [joinSurrogates, if_neg hpair]
      exact Nat.succ_le_succ ih
  | case3 rest hrest => rw [joinSurrogates.eq_2 rest hrest]

/-- Two code points of a text are no pair of surrogates. -/
theorem IsText.not_pair {high low : ℕ} {rest : Codes} (h : IsText (high :: low :: rest)) :
    (isHigh high && isLow low) = false := by
  by_contra hpair
  have hlength := congrArg List.length h.joined
  have hrest := length_joinSurrogates_le rest
  rw [joinSurrogates, if_pos (Bool.eq_true_of_not_eq_false hpair)] at hlength
  simp only [List.length_cons] at hlength
  omega

theorem IsText.tail {n : ℕ} {rest : Codes} (h : IsText (n :: rest)) : IsText rest := by
  refine ⟨fun m hm => h.valid m (List.mem_cons_of_mem n hm), ?_⟩
  cases rest with
  | nil => rfl
  | cons low rest =>
      have hjoined := h.joined
      rw [joinSurrogates, h.not_pair, if_neg Bool.false_ne_true] at hjoined
      exact (List.cons.inj hjoined).2

/-- The first unit of a code point of the basic plane is that code point,
and of another it is no second half. -/
theorem units_isLow {n low : ℕ} {rest : Codes} (hn : n < 0x110000) (h : units n = low :: rest)
    (hlow : isLow low = true) : low = n := by
  rw [units] at h
  simp only [isLow, Bool.and_eq_true, decide_eq_true_eq] at hlow
  split_ifs at h with hbasic
  · exact (List.cons.inj h).1.symm
  · have hhead := (List.cons.inj h).1
    omega

theorem units_pair {n : ℕ} (hn : n < 0x110000) (hbasic : ¬n < 0x10000) (rest : Codes) :
    joinSurrogates (units n ++ rest) = n :: joinSurrogates rest := by
  have hhigh : isHigh (0xd800 + (n - 0x10000) / 0x400) = true := by
    simp only [isHigh, Bool.and_eq_true, decide_eq_true_eq]
    omega
  have hlow : isLow (0xdc00 + (n - 0x10000) % 0x400) = true := by
    simp only [isLow, Bool.and_eq_true, decide_eq_true_eq]
    omega
  have hjoin : 0x10000 + (0xd800 + (n - 0x10000) / 0x400 - 0xd800) * 0x400
      + (0xdc00 + (n - 0x10000) % 0x400 - 0xdc00) = n := by omega
  rw [units, if_neg hbasic, List.cons_append, List.cons_append, List.nil_append, joinSurrogates,
    hhigh, hlow, if_pos (Bool.and_self true), hjoin]

theorem joinSurrogates_cons {n : ℕ} {rest : Codes}
    (h : ∀ low tail, rest = low :: tail → (isHigh n && isLow low) = false) :
    joinSurrogates (n :: rest) = n :: joinSurrogates rest := by
  cases rest with
  | nil => rfl
  | cons low tail => rw [joinSurrogates, h low tail rfl, if_neg Bool.false_ne_true]

theorem IsText.cons {n : ℕ} {rest : Codes} (h : IsText rest) (hn : n < 0x110000)
    (hhigh : isHigh n = false) : IsText (n :: rest) where
  valid := List.forall_mem_cons.mpr ⟨hn, h.valid⟩
  joined := by
    rw [joinSurrogates_cons fun low tail _ => ?_, h.joined]
    rw [hhigh, Bool.false_and]

/-- No character is the half of a pair of surrogates. -/
theorem isText_chars (chars : List Char) : IsText (chars.map Char.toNat) := by
  induction chars with
  | nil => exact ⟨fun n hn => absurd hn List.not_mem_nil, rfl⟩
  | cons c chars ih =>
      refine ih.cons ?_ ?_
      · rcases c.valid with h | h
        · exact Nat.lt_trans h (by decide)
        · exact h.2
      · simp only [isHigh, Bool.and_eq_false_iff, decide_eq_false_iff_not, Nat.not_le]
        rcases c.valid with h | h
        · exact .inl h
        · exact .inr (Nat.lt_trans (by decide) h.1)

/-- The reader joins the units of each code point, and no others. -/
theorem joinSurrogates_units {text : Codes} (h : IsText text) :
    joinSurrogates (text.flatMap units) = text := by
  induction text with
  | nil => rfl
  | cons n rest ih =>
      have hn := h.valid n List.mem_cons_self
      rw [List.flatMap_cons]
      by_cases hbasic : n < 0x10000
      · rw [units, if_pos hbasic, List.singleton_append, joinSurrogates_cons, ih h.tail]
        -- a low unit after `n` is a code point of the text, and no pair with `n`
        intro low tail hunits
        cases rest with
        | nil => cases hunits
        | cons m rest =>
            obtain ⟨first, more, hm⟩ : ∃ first more, units m = first :: more := by
              rw [units]
              split_ifs <;> exact ⟨_, _, rfl⟩
            rw [List.flatMap_cons, hm, List.cons_append] at hunits
            obtain rfl := (List.cons.inj hunits).1
            cases hlow : isLow first with
            | false => exact Bool.and_false _
            | true =>
                have hfirst := units_isLow (h.tail.valid m List.mem_cons_self) hm hlow
                rw [← hlow, hfirst]
                exact h.not_pair
      · rw [units_pair hn hbasic, ih h.tail]

theorem Value.of_quoteAscii {text : Codes} (h : IsText text) (rest : List Char) :
    Value (quoteAscii text ++ rest) (.string text) rest := by
  have hunits : ∀ n ∈ text.flatMap units, n < 0x10000 := by
    intro n hn
    obtain ⟨m, hm, hmem⟩ := List.mem_flatMap.mp hn
    exact units_lt (h.valid m hm) hmem
  have hread := Value.string (scanString_units hunits rest)
  rw [joinSurrogates_units h] at hread
  rw [quoteAscii, List.cons_append, List.append_assoc]
  exact hread

/-! ## Values -/

/-- The white space in a container that is inside `level` others. -/
structure Layout where
  /-- After the opening bracket. -/
  first : ℕ → List Char
  /-- After a comma. -/
  next : ℕ → List Char
  /-- Before the closing bracket. -/
  last : ℕ → List Char
  skip_first : ∀ level s, skip (first level ++ s) = skip s
  skip_next : ∀ level s, skip (next level ++ s) = skip s
  skip_last : ∀ level s, skip (last level ++ s) = skip s
  delimited_last : ∀ level s, ∀ c ∈ [']', '\x7d'], Delimited (last level ++ c :: s)
  return_notMem : ∀ level, '\r' ∉ first level ++ next level ++ last level

/-- The line break before what stands at a level of indentation. -/
def newlineIndent (level : ℕ) : List Char := '\n' :: List.replicate (2 * level) ' '

theorem skip_newlineIndent (level : ℕ) (s : List Char) :
    skip (newlineIndent level ++ s) = skip s := by
  have hblanks : ∀ n, skip (List.replicate n ' ' ++ s) = skip s := by
    intro n
    induction n with
    | zero => rfl
    | succ n ih => exact ih
  exact hblanks (2 * level)

/-- `indent=2`. -/
def Layout.indented : Layout where
  first level := newlineIndent (level + 1)
  next level := newlineIndent (level + 1)
  last := newlineIndent
  skip_first level := skip_newlineIndent (level + 1)
  skip_next level := skip_newlineIndent (level + 1)
  skip_last := skip_newlineIndent
  delimited_last level s c _ := delimited_cons (by decide) _
  return_notMem level := by simp [newlineIndent, List.mem_replicate]

/-- No `indent`. -/
def Layout.compact : Layout where
  first _ := []
  next _ := [' ']
  last _ := []
  skip_first _ _ := rfl
  skip_next _ _ := rfl
  skip_last _ _ := rfl
  delimited_last _ s c hc := by
    simp only [List.mem_cons, List.not_mem_nil, or_false] at hc
    rcases hc with rfl | rfl <;> exact delimited_cons (by decide) s
  return_notMem _ := by decide

section Dump

variable (layout : Layout)

mutual

/-- `json.dumps(v)` inside `level` containers. -/
def dumpValue (level : ℕ) : Json → List Char
  | .null => "null".toList
  | .bool true => "true".toList
  | .bool false => "false".toList
  | .int n => decimal n
  | .float literal => literal
  | .string text => quoteAscii text
  | .array [] => ['[', ']']
  | .array (v :: items) =>
    '[' :: (layout.first level ++ (dumpValue (level + 1) v ++ dumpItems level items))
  | .object [] => ['\x7b', '\x7d']
  | .object ((key, v) :: fields) =>
    '\x7b' :: (layout.first level ++ (quoteAscii key ++ ':' :: ' ' ::
      (dumpValue (level + 1) v ++ dumpFields level fields)))

/-- The items after the first. -/
def dumpItems (level : ℕ) : List Json → List Char
  | [] => layout.last level ++ [']']
  | v :: items =>
    ',' :: (layout.next level ++ (dumpValue (level + 1) v ++ dumpItems level items))

/-- The fields after the first. -/
def dumpFields (level : ℕ) : List (Codes × Json) → List Char
  | [] => layout.last level ++ ['\x7d']
  | (key, v) :: fields =>
    ',' :: (layout.next level ++ (quoteAscii key ++ ':' :: ' ' ::
      (dumpValue (level + 1) v ++ dumpFields level fields)))

end

end Dump

def sortFields (fields : List (Codes × Json)) : List (Codes × Json) :=
  fields.mergeSort fun a b => a.1 ≤ b.1

mutual

/-- The value with the fields of every object sorted by their keys. -/
def sortKeys : Json → Json
  | .array items => .array (sortItems items)
  | .object fields => .object (sortFields (sortValues fields))
  | v => v

def sortItems : List Json → List Json
  | [] => []
  | v :: items => sortKeys v :: sortItems items

def sortValues : List (Codes × Json) → List (Codes × Json)
  | [] => []
  | (key, v) :: fields => (key, sortKeys v) :: sortValues fields

end

/-- `json.dumps(v)`. -/
def dumps (v : Json) : List Char := dumpValue .compact 0 v

/-- `json.dumps(v, indent=2, sort_keys=True)`. -/
def dump (v : Json) : List Char := dumpValue .indented 0 (sortKeys v)

/-! ## The round trip -/

variable {layout : Layout}

theorem delimited_dumpItems (layout : Layout) (level : ℕ) (items : List Json) (rest : List Char) :
    Delimited (dumpItems layout level items ++ rest) := by
  cases items with
  | nil =>
      rw [dumpItems, List.append_assoc]
      exact layout.delimited_last level rest _ (by decide)
  | cons v items => exact delimited_cons (by decide) _

theorem delimited_dumpFields (layout : Layout) (level : ℕ) (fields : List (Codes × Json))
    (rest : List Char) :
    Delimited (dumpFields layout level fields ++ rest) := by
  cases fields with
  | nil =>
      rw [dumpFields, List.append_assoc]
      exact layout.delimited_last level rest _ (by decide)
  | cons field fields => exact delimited_cons (by decide) _

/-- What is dumped at any level, in front of any text that may follow, is
read as the value. -/
def Dumped (layout : Layout) (v : Json) : Prop :=
  ∀ level rest, Delimited rest → Value (dumpValue layout level v ++ rest) v rest

theorem items_dumped {v : Json} (hv : Dumped layout v) {items : List Json}
    (h : ∀ w ∈ items, Dumped layout w) (level : ℕ) (rest : List Char) :
    Items (dumpValue layout (level + 1) v ++ (dumpItems layout level items ++ rest)) (v :: items)
      rest := by
  induction items generalizing v with
  | nil =>
      refine .last (hv (level + 1) _ (delimited_dumpItems layout level [] rest)) ?_
      rw [dumpItems, List.append_assoc, layout.skip_last]
      exact skip_delimiter (by decide) rest
  | cons w items ih =>
      obtain ⟨hw, hitems⟩ := List.forall_mem_cons.mp h
      have hmore := ih hw hitems
      rw [← hmore.skip_eq, ← layout.skip_next level] at hmore
      have hfirst := hv (level + 1) _ (delimited_dumpItems layout level (w :: items) rest)
      rw [dumpItems, List.cons_append, List.append_assoc, List.append_assoc] at hfirst ⊢
      exact .more hfirst (skip_delimiter (by decide) _) hmore

/-- A field with the text after it: the reader skips the blank behind the
colon. -/
theorem field_dumped {key : Codes} (hkey : IsText key) {v : Json} {s t : List Char}
    (hvalue : Value s v t) :
    ∃ read s₂, scanString ((key.flatMap units).flatMap escapeAscii ++ '\x22' :: ':' :: ' ' :: s)
      = some (read, ':' :: s₂) ∧ joinSurrogates read = key ∧ Value (skip s₂) v t := by
  have hunits : ∀ n ∈ key.flatMap units, n < 0x10000 := by
    intro n hn
    obtain ⟨m, hm, hmem⟩ := List.mem_flatMap.mp hn
    exact units_lt (hkey.valid m hm) hmem
  refine ⟨_, _, scanString_units hunits _, joinSurrogates_units hkey, ?_⟩
  have hblank : skip (' ' :: s) = skip s := rfl
  rw [hblank, hvalue.skip_eq]
  exact hvalue

theorem fields_dumped {key : Codes} {v : Json} (hkey : IsText key) (hv : Dumped layout v)
    {fields : List (Codes × Json)} (hkeys : ∀ field ∈ fields, IsText field.1)
    (hvalues : ∀ field ∈ fields, Dumped layout field.2) (level : ℕ) (rest : List Char) :
    Pairs (quoteAscii key ++ ':' :: ' ' :: (dumpValue layout (level + 1) v ++
      (dumpFields layout level fields ++ rest))) ((key, v) :: fields) rest := by
  induction fields generalizing key v with
  | nil =>
      have hvalue := hv (level + 1) _ (delimited_dumpFields layout level [] rest)
      obtain ⟨read, s₂, hread, rfl, hvalue⟩ := field_dumped hkey hvalue
      rw [quoteAscii, List.cons_append, List.append_assoc]
      refine .last hread (skip_delimiter (by decide) _) hvalue ?_
      rw [dumpFields, List.append_assoc, layout.skip_last]
      exact skip_delimiter (by decide) rest
  | cons field fields ih =>
      obtain ⟨next, w⟩ := field
      obtain ⟨hnext, hkeys⟩ := List.forall_mem_cons.mp hkeys
      obtain ⟨hw, hvalues⟩ := List.forall_mem_cons.mp hvalues
      have hmore := ih hnext hw hkeys hvalues
      rw [← hmore.skip_eq, ← layout.skip_next level] at hmore
      have hvalue := hv (level + 1) _ (delimited_dumpFields layout level ((next, w) :: fields) rest)
      obtain ⟨read, s₂, hread, rfl, hvalue⟩ := field_dumped hkey hvalue
      rw [quoteAscii, List.cons_append, List.append_assoc]
      refine .more hread (skip_delimiter (by decide) _) hvalue ?_ hmore
      rw [dumpFields, List.cons_append, List.append_assoc, List.append_assoc, List.cons_append,
        List.cons_append, List.append_assoc]
      exact skip_delimiter (by decide) _

theorem Sendable.dumped {v : Json} (h : Sendable v) : Dumped layout v := by
  induction h with
  | null => exact fun _ rest _ => .constant rfl
  | bool b => cases b <;> exact fun _ rest _ => .constant rfl
  | int n => exact fun _ rest hrest => .of_number (matchNumber_append hrest (matchNumber_decimal n))
  | float h => exact fun _ rest hrest => .of_number (matchNumber_append hrest h)
  | string h => exact fun _ rest _ => .of_quoteAscii h rest
  | @array items h ih =>
      intro level rest _
      cases items with
      | nil => exact .emptyArray rfl
      | cons v items =>
          obtain ⟨hv, hitems⟩ := List.forall_mem_cons.mp ih
          have hread := items_dumped hv hitems level rest
          rw [← hread.skip_eq, ← layout.skip_first level] at hread
          rw [dumpValue, List.cons_append, List.append_assoc, List.append_assoc]
          exact .array hread
  | @object fields hkeys _ ih =>
      intro level rest _
      cases fields with
      | nil => exact .emptyObject rfl
      | cons field fields =>
          obtain ⟨key, v⟩ := field
          obtain ⟨hkey, hkeys⟩ := List.forall_mem_cons.mp hkeys
          obtain ⟨hv, hvalues⟩ := List.forall_mem_cons.mp ih
          have hread := fields_dumped hkey hv hkeys hvalues level rest
          rw [← hread.skip_eq, ← layout.skip_first level] at hread
          rw [dumpValue, List.cons_append, List.append_assoc, List.append_assoc, List.cons_append,
            List.cons_append, List.append_assoc]
          exact .object hread

/-! ### No carriage return

What is dumped goes through the universal newlines of a text file and
comes back as it is. -/

theorem return_notMem_hex4 (n : ℕ) : '\r' ∉ hex4 n := by
  have hdigit : ∀ d < 16, d.digitChar ≠ '\r' := by decide
  have hmod (m : ℕ) : (m % 16).digitChar ≠ '\r' := hdigit _ (Nat.mod_lt m (by decide))
  simp only [hex4, List.mem_cons, List.not_mem_nil, or_false, not_or]
  exact ⟨(hmod _).symm, (hmod _).symm, (hmod _).symm, (hmod _).symm⟩

theorem return_notMem_escapeAscii (n : ℕ) : '\r' ∉ escapeAscii n := by
  rw [escapeAscii]
  split_ifs with h₁ h₂ h₃ h₄ h₅ h₆ h₇ hplain
  all_goals try decide
  · have hn : (Char.ofNat n).toNat = n := by
      refine toNat_ofNat (by omega) ?_ ?_ <;> simp [isHigh, isLow] <;> omega
    intro hmem
    rw [← List.mem_singleton.mp hmem] at hn
    exact h₅ hn.symm
  · intro hmem
    rcases List.mem_cons.mp hmem with heq | hmem
    · exact absurd heq (by decide)
    rcases List.mem_cons.mp hmem with heq | hmem
    · exact absurd heq (by decide)
    · exact return_notMem_hex4 n hmem

theorem return_notMem_quoteAscii (text : Codes) : '\r' ∉ quoteAscii text := by
  intro hmem
  rcases List.mem_cons.mp hmem with heq | hmem
  · exact absurd heq (by decide)
  rcases List.mem_append.mp hmem with hmem | hmem
  · obtain ⟨n, -, hn⟩ := List.mem_flatMap.mp hmem
    exact return_notMem_escapeAscii n hn
  · exact absurd (List.mem_singleton.mp hmem) (by decide)

theorem return_notMem_digits (s : List Char) : '\r' ∉ s.takeWhile Char.isDigit :=
  fun hmem => absurd (List.mem_takeWhile_imp hmem) (by decide)

theorem return_notMem_scanMark {marks : List Char} (h : '\r' ∉ marks) (s : List Char) :
    '\r' ∉ (scanMark marks s).1 := by
  unfold scanMark
  split
  · split_ifs with hc
    · exact fun hmem => h (List.mem_singleton.mp hmem ▸ hc)
    · exact List.not_mem_nil
  · exact List.not_mem_nil

theorem return_notMem_scanInt {s digits rest : List Char} (h : scanInt s = some (digits, rest)) :
    '\r' ∉ digits := by
  cases s with
  | nil => cases h
  | cons c s =>
      rw [scanInt] at h
      split_ifs at h with hzero hdigit
      · obtain ⟨rfl, -⟩ := Prod.mk.inj (Option.some.inj h)
        decide
      · obtain ⟨rfl, -⟩ := Prod.mk.inj (Option.some.inj h)
        intro hmem
        rcases List.mem_cons.mp hmem with rfl | hmem
        · exact absurd hdigit (by decide)
        · exact return_notMem_digits s hmem

theorem return_notMem_scanFraction (s : List Char) : '\r' ∉ (scanFraction s).1 := by
  unfold scanFraction
  split
  · split_ifs with h
    · intro hmem
      rcases List.mem_cons.mp hmem with heq | hmem
      · exact absurd (heq.trans h.1) (by decide)
      rcases List.mem_cons.mp hmem with rfl | hmem
      · exact absurd h.2 (by decide)
      · exact return_notMem_digits _ hmem
    · exact List.not_mem_nil
  · exact List.not_mem_nil

theorem return_notMem_scanExponent (s : List Char) : '\r' ∉ (scanExponent s).1 := by
  unfold scanExponent
  split
  · dsimp only
    split_ifs with hmark hempty
    · exact List.not_mem_nil
    · intro hmem
      rcases List.mem_append.mp hmem with hmem | hmem
      · rcases List.mem_cons.mp hmem with rfl | hmem
        · exact absurd hmark (by decide)
        · exact return_notMem_scanMark (by decide) _ hmem
      · exact return_notMem_digits _ hmem
    · exact List.not_mem_nil
  · exact List.not_mem_nil

theorem return_notMem_literal {s literal rest : List Char}
    (h : matchNumber s = some (.float literal, rest)) : '\r' ∉ literal := by
  unfold matchNumber at h
  dsimp only at h
  split at h
  · cases h
  · rename_i digits s₁ hint
    split_ifs at h
    · cases (Prod.mk.inj (Option.some.inj h)).1
    · cases (Prod.mk.inj (Option.some.inj h)).1
    · obtain rfl := Json.float.inj (Prod.mk.inj (Option.some.inj h)).1
      simp only [List.mem_append, not_or]
      exact ⟨⟨⟨return_notMem_scanMark (by decide) s, return_notMem_scanInt hint⟩,
        return_notMem_scanFraction s₁⟩, return_notMem_scanExponent _⟩

theorem return_notMem_decimal (n : ℤ) : '\r' ∉ decimal n := by
  have hdigits : '\r' ∉ Nat.toDigits 10 n.natAbs :=
    fun hmem => absurd (Nat.isDigit_of_mem_toDigits (by decide) (by decide) hmem) (by decide)
  rw [decimal]
  split_ifs
  · simpa using hdigits
  · exact hdigits

theorem return_notMem_dumpItems {items : List Json}
    (h : ∀ v ∈ items, ∀ level, '\r' ∉ dumpValue layout level v) (level : ℕ) :
    '\r' ∉ dumpItems layout level items := by
  have hblank := layout.return_notMem level
  simp only [List.mem_append, not_or] at hblank
  induction items with
  | nil => simp [dumpItems, hblank]
  | cons v items ih =>
      obtain ⟨hv, hitems⟩ := List.forall_mem_cons.mp h
      simp [dumpItems, hblank, hv, ih hitems]

theorem return_notMem_dumpFields {fields : List (Codes × Json)}
    (h : ∀ field ∈ fields, ∀ level, '\r' ∉ dumpValue layout level field.2) (level : ℕ) :
    '\r' ∉ dumpFields layout level fields := by
  have hblank := layout.return_notMem level
  simp only [List.mem_append, not_or] at hblank
  induction fields with
  | nil => simp [dumpFields, hblank]
  | cons field fields ih =>
      obtain ⟨hv, hfields⟩ := List.forall_mem_cons.mp h
      simp [dumpFields, hblank, return_notMem_quoteAscii, hv, ih hfields]

theorem Sendable.return_notMem {v : Json} (h : Sendable v) (level : ℕ) :
    '\r' ∉ dumpValue layout level v := by
  have hblank := layout.return_notMem
  simp only [List.mem_append, not_or] at hblank
  induction h generalizing level with
  | null => simp [dumpValue]
  | bool b => cases b <;> simp [dumpValue]
  | int n => exact return_notMem_decimal n
  | float h => exact return_notMem_literal h
  | string h => exact return_notMem_quoteAscii _
  | @array items h ih =>
      cases items with
      | nil => simp [dumpValue]
      | cons v items =>
          obtain ⟨hv, hitems⟩ := List.forall_mem_cons.mp ih
          simp [dumpValue, hblank, hv, return_notMem_dumpItems hitems]
  | @object fields hkeys _ ih =>
      cases fields with
      | nil => simp [dumpValue]
      | cons field fields =>
          obtain ⟨hv, hfields⟩ := List.forall_mem_cons.mp ih
          simp [dumpValue, hblank, return_notMem_quoteAscii, hv, return_notMem_dumpFields hfields]

/-! ### Sorted keys -/

theorem sortItems_eq_map (items : List Json) : sortItems items = items.map sortKeys := by
  induction items with
  | nil => rfl
  | cons v items ih => rw [sortItems, ih, List.map_cons]

theorem sortValues_eq_map (fields : List (Codes × Json)) :
    sortValues fields = fields.map (Prod.map id sortKeys) := by
  induction fields with
  | nil => rfl
  | cons field fields ih =>
      obtain ⟨key, v⟩ := field
      rw [sortValues, ih]
      rfl

theorem mem_sortFields {field : Codes × Json} {fields : List (Codes × Json)} :
    field ∈ sortFields fields ↔ field ∈ fields :=
  (List.mergeSort_perm ..).mem_iff

/-- The fields of an object as they are written. -/
def dumpedFields (fields : List (Codes × Json)) : List (Codes × Json) :=
  sortFields (sortValues fields)

theorem mem_dumpedFields {key : Codes} {v : Json} {fields : List (Codes × Json)} :
    (key, v) ∈ dumpedFields fields ↔ ∃ w, (key, w) ∈ fields ∧ sortKeys w = v := by
  rw [dumpedFields, mem_sortFields, sortValues_eq_map]
  simp only [List.mem_map, Prod.map, id, Prod.mk.injEq, Prod.exists]
  constructor
  · rintro ⟨k, w, hmem, rfl, rfl⟩
    exact ⟨w, hmem, rfl⟩
  · rintro ⟨w, hmem, rfl⟩
    exact ⟨key, w, hmem, rfl, rfl⟩

theorem keys_dumpedFields (fields : List (Codes × Json)) :
    ((dumpedFields fields).map Prod.fst).Perm (fields.map Prod.fst) := by
  rw [dumpedFields]
  refine ((List.mergeSort_perm ..).map Prod.fst).trans (List.Perm.of_eq ?_)
  rw [sortValues_eq_map, List.map_map]
  rfl

theorem Sendable.sorted {v : Json} (h : Sendable v) : Sendable (sortKeys v) := by
  induction h with
  | null => exact .null
  | bool b => exact .bool b
  | int n => exact .int n
  | float h => exact .float h
  | string h => exact .string h
  | @array items h ih =>
      rw [sortKeys, sortItems_eq_map]
      exact .array (List.forall_mem_map.mpr ih)
  | @object fields hkeys _ ih =>
      rw [sortKeys]
      refine .object ?_ ?_
      · rintro ⟨key, w⟩ hmem
        obtain ⟨v, hv, -⟩ := mem_dumpedFields.mp hmem
        exact hkeys (key, v) hv
      · rintro ⟨key, w⟩ hmem
        obtain ⟨v, hv, rfl⟩ := mem_dumpedFields.mp hmem
        exact ih _ hv

/-- With each key once, a dict has the fields that its text has. -/
theorem get?_eq_some {fields : List (Codes × Json)} (h : (fields.map Prod.fst).Nodup)
    {key : Codes} {v : Json} : get? fields key = some v ↔ (key, v) ∈ fields := by
  rw [get?, Option.map_eq_some_iff]
  constructor
  · rintro ⟨⟨k, w⟩, hfind, rfl⟩
    have hkey := List.find?_some hfind
    obtain rfl : k = key := of_decide_eq_true hkey
    exact List.mem_reverse.mp (List.mem_of_find?_eq_some hfind)
  · intro hmem
    cases hfind : fields.reverse.find? fun field => field.1 = key with
    | none =>
        have hnone := List.find?_eq_none.mp hfind (key, v) (List.mem_reverse.mpr hmem)
        exact absurd (decide_eq_true rfl) hnone
    | some found =>
        obtain ⟨k, w⟩ := found
        have hkey := List.find?_some hfind
        obtain rfl : k = key := of_decide_eq_true hkey
        have hfound := List.mem_reverse.mp (List.mem_of_find?_eq_some hfind)
        exact ⟨_, rfl, (Prod.mk.inj (List.inj_on_of_nodup_map h hfound hmem rfl)).2⟩

/-- As a dict, what is read back is what was written. -/
theorem get?_dumpedFields {fields : List (Codes × Json)} (h : (fields.map Prod.fst).Nodup)
    (key : Codes) : get? (dumpedFields fields) key = (get? fields key).map sortKeys := by
  have hdumped := (keys_dumpedFields fields).nodup_iff.mpr h
  refine Option.ext fun v => ?_
  rw [get?_eq_some hdumped, mem_dumpedFields, Option.map_eq_some_iff]
  simp only [get?_eq_some h]

/-- A value with white space after it, as far as it is a delimiter. -/
theorem parse_dumped {v : Json} (h : Sendable v) {rest : List Char} (hrest : Delimited rest)
    (hskip : skip rest = []) : parse (dumpValue layout 0 v ++ rest) = some v := by
  have hvalue : Value (dumpValue layout 0 v ++ rest) v rest := h.dumped 0 rest hrest
  refine parse_iff.mpr ⟨?_, rest, hvalue.skip_eq.symm ▸ hvalue, hskip⟩
  obtain ⟨c, s, hs, -, -, hbom⟩ := hvalue.head
  rw [hs]
  exact fun heq => hbom (Option.some.inj heq)

theorem parse_dumpValue {v : Json} (h : Sendable v) : parse (dumpValue layout 0 v) = some v := by
  rw [← List.append_nil (dumpValue layout 0 v)]
  exact parse_dumped h delimited_nil rfl

/-- `handle.write("\n")` after the value. -/
theorem parse_dumpValue_newline {v : Json} (h : Sendable v) :
    parse (dumpValue layout 0 v ++ ['\n']) = some v :=
  parse_dumped h (delimited_cons (by decide) []) (by decide)

theorem parse_dumps {v : Json} (h : Sendable v) : parse (dumps v) = some v := parse_dumpValue h

theorem parse_dump {v : Json} (h : Sendable v) : parse (dump v) = some (sortKeys v) :=
  parse_dumpValue h.sorted

end Json

end Zmux
