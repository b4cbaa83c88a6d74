import Zmux.JsonGrammar

/-!
# Writing JSON

`JSON.stringify` of JavaScript, and that `json.loads` reads back what it
writes (`parse_stringify`).
-/

namespace Zmux

namespace Json

/-! ## Writing

`JSON.stringify`, of what a JavaScript value can be: integers print in
decimal, other numbers print as they are given, and what stands for half
of a surrogate pair is escaped. -/

/-- The four digits of a `\uXXXX`. -/
def hex4 (n : ℕ) : List Char :=
  [Nat.digitChar (n / 4096 % 16), Nat.digitChar (n / 256 % 16), Nat.digitChar (n / 16 % 16),
    Nat.digitChar (n % 16)]

def escape (n : ℕ) : List Char :=
  if n = 8 then ['\x5c', 'b']
  else if n = 9 then ['\x5c', 't']
  else if n = 10 then ['\x5c', 'n']
  else if n = 12 then ['\x5c', 'f']
  else if n = 13 then ['\x5c', 'r']
  else if n = 0x22 then ['\x5c', '\x22']
  else if n = 0x5c then ['\x5c', '\x5c']
  else if n < 0x20 ∨ isHigh n ∨ isLow n then '\x5c' :: 'u' :: hex4 n
  else [Char.ofNat n]

def quote (text : Codes) : List Char := '\x22' :: (text.flatMap escape ++ ['\x22'])

def decimal (n : ℤ) : List Char :=
  if n < 0 then '-' :: Nat.toDigits 10 n.natAbs else Nat.toDigits 10 n.natAbs

mutual

def stringify : Json → List Char
  | .null => "null".toList
  | .bool true => "true".toList
  | .bool false => "false".toList
  | .int n => decimal n
  | .float literal => literal
  | .string text => quote text
  | .array [] => ['[', ']']
  | .array (v :: items) => '[' :: (stringify v ++ stringifyItems items)
  | .object [] => ['\x7b', '\x7d']
  | .object ((key, v) :: fields) =>
    '\x7b' :: (quote key ++ ':' :: (stringify v ++ stringifyPairs fields))

/-- The items after the first. -/
def stringifyItems : List Json → List Char
  | [] => [']']
  | v :: items => ',' :: (stringify v ++ stringifyItems items)

/-- The fields after the first. -/
def stringifyPairs : List (Codes × Json) → List Char
  | [] => ['\x7d']
  | (key, v) :: fields => ',' :: (quote key ++ ':' :: (stringify v ++ stringifyPairs fields))

end

/-- The code points of a string: a pair of surrogates is one code point. -/
structure IsText (text : Codes) : Prop where
  valid : ∀ n ∈ text, n < 0x110000
  joined : joinSurrogates text = text

instance (text : Codes) : Decidable (IsText text) :=
  decidable_of_iff ((∀ n ∈ text, n < 0x110000) ∧ joinSurrogates text = text)
    ⟨fun h => ⟨h.1, h.2⟩, fun h => ⟨h.valid, h.joined⟩⟩

/-- What a JavaScript value can be: a number that does not print as an
integer prints as a literal. -/
inductive Sendable : Json → Prop
  | null : Sendable .null
  | bool (b) : Sendable (.bool b)
  | int (n) : Sendable (.int n)
  | float {literal} (h : matchNumber literal = some (.float literal, [])) :
      Sendable (.float literal)
  | string {text} (h : IsText text) : Sendable (.string text)
  | array {items} (h : ∀ v ∈ items, Sendable v) : Sendable (.array items)
  | object {fields} (hkeys : ∀ field ∈ fields, IsText field.1)
      (hvalues : ∀ field ∈ fields, Sendable field.2) : Sendable (.object fields)

/-! ### Strings -/

theorem hexDigit?_digitChar {n : ℕ} (h : n < 16) : hexDigit? n.digitChar = some n := by
  have : ∀ n < 16, hexDigit? n.digitChar = some n := by decide
  exact this n h

theorem scanString_unescape {c : Char} {n : ℕ} (hu : c ≠ 'u') (h : unescape? c = some n)
    (s : List Char) : scanString ('\x5c' :: c :: s) = mapRead (n :: ·) (scanString s) := by
  rw [scanString.eq_def]
  simp [hu, h]

theorem scanString_hex4 {n : ℕ} (h : n < 0x10000) (s : List Char) :
    scanString ('\x5c' :: 'u' :: (hex4 n ++ s)) = mapRead (n :: ·) (scanString s) := by
  have hn : ((n / 4096 % 16 * 16 + n / 256 % 16) * 16 + n / 16 % 16) * 16 + n % 16 = n := by omega
  have hmod (m : ℕ) : m % 16 < 16 := Nat.mod_lt m (by decide)
  have hhex : hex4? (n / 4096 % 16).digitChar (n / 256 % 16).digitChar (n / 16 % 16).digitChar
      (n % 16).digitChar = some n := by
    simp only [hex4?, hexDigit?_digitChar (hmod _), Option.bind_eq_bind, Option.bind_some,
      Option.pure_def, hn]
  rw [scanString.eq_def]
  simp [hex4, hhex]

theorem scanString_plain {c : Char} (hquote : c ≠ '\x22') (hslash : c ≠ '\x5c')
    (hcontrol : ¬ c.toNat ≤ 0x1f) (s : List Char) :
    scanString (c :: s) = mapRead (c.toNat :: ·) (scanString s) := by
  rw [scanString.eq_def]
  dsimp only
  rw [if_neg hquote, if_neg hslash, if_neg hcontrol]

theorem toNat_ofNat {n : ℕ} (h : n < 0x110000) (hhigh : isHigh n = false)
    (hlow : isLow n = false) : (Char.ofNat n).toNat = n := by
  have hvalid : n.isValidChar := by
    simp [isHigh, isLow] at hhigh hlow
    rw [Nat.isValidChar]
    omega
  rw [Char.ofNat, dif_pos hvalid]
  rfl

/-- A code point is read back from its escape. -/
theorem scanString_escape {n : ℕ} (h : n < 0x110000) (s : List Char) :
    scanString (escape n ++ s) = mapRead (n :: ·) (scanString s) := by
  rw [escape]
  split_ifs with h₁ h₂ h₃ h₄ h₅ h₆ h₇ hescape
  · exact h₁ ▸ scanString_unescape (by decide) rfl s
  · exact h₂ ▸ scanString_unescape (by decide) rfl s
  · exact h₃ ▸ scanString_unescape (by decide) rfl s
  · exact h₄ ▸ scanString_unescape (by decide) rfl s
  · exact h₅ ▸ scanString_unescape (by decide) rfl s
  · exact h₆ ▸ scanString_unescape (by decide) rfl s
  · exact h₇ ▸ scanString_unescape (by decide) rfl s
  · refine scanString_hex4 ?_ s
    simp [isHigh, isLow] at hescape
    omega
  · obtain ⟨hcontrol, hsurrogate⟩ := not_or.mp hescape
    obtain ⟨hhigh, hlow⟩ := not_or.mp hsurrogate
    have hn := toNat_ofNat h (Bool.eq_false_iff.mpr hhigh) (Bool.eq_false_iff.mpr hlow)
    have hne : ∀ c : Char, c.toNat ≠ n → Char.ofNat n ≠ c := by
      rintro c hc rfl
      exact hc hn
    rw [List.singleton_append, scanString_plain (hne _ (Ne.symm h₆)) (hne _ (Ne.symm h₇))
      (by omega), hn]

theorem scanString_quote {text : Codes} (h : ∀ n ∈ text, n < 0x110000) (rest : List Char) :
    scanString (text.flatMap escape ++ '\x22' :: rest) = some (text, rest) := by
  induction text with
  | nil =>
      unfold scanString
      rfl
  | cons n text ih =>
      rw [List.flatMap_cons, List.append_assoc, scanString_escape (h n (List.mem_cons_self ..)),
        ih fun m hm => h m (List.mem_cons_of_mem _ hm)]
      rfl

/-! ### Numbers -/

/-- What follows a value in a text that is written. -/
def Delimited (rest : List Char) : Prop := ∀ c ∈ rest.head?, c ∈ [',', ']', '\x7d', '\n']

theorem delimited_nil : Delimited [] := nofun

theorem delimited_cons {c : Char} (h : c ∈ [',', ']', '\x7d', '\n']) (s : List Char) :
    Delimited (c :: s) := by
  intro d hd
  exact Option.some.inj hd ▸ h

theorem Delimited.eq_nil_or_cons {rest : List Char} (h : Delimited rest) :
    rest = [] ∨ ∃ c s, rest = c :: s ∧ (c = ',' ∨ c = ']' ∨ c = '\x7d' ∨ c = '\n') := by
  cases rest with
  | nil => exact Or.inl rfl
  | cons c s => exact Or.inr ⟨c, s, rfl, by simpa using h c rfl⟩

theorem digits_append {rest : List Char} (h : Delimited rest) (s : List Char) :
    (s ++ rest).takeWhile Char.isDigit = s.takeWhile Char.isDigit ∧
      (s ++ rest).dropWhile Char.isDigit = s.dropWhile Char.isDigit ++ rest := by
  induction s with
  | nil =>
      rcases h.eq_nil_or_cons with rfl | ⟨c, s, rfl, rfl | rfl | rfl | rfl⟩ <;> exact ⟨rfl, rfl⟩
  | cons c s ih =>
      rw [List.cons_append, List.takeWhile_cons, List.takeWhile_cons, List.dropWhile_cons,
        List.dropWhile_cons, ih.1, ih.2]
      split <;> exact ⟨rfl, rfl⟩

theorem scanMark_append {marks rest : List Char} (h : Delimited rest)
    (hmarks : ∀ c ∈ marks, c ∈ ['+', '-']) (s : List Char) :
    scanMark marks (s ++ rest) = ((scanMark marks s).1, (scanMark marks s).2 ++ rest) := by
  cases s with
  | nil =>
      rcases h.eq_nil_or_cons with rfl | ⟨c, s, rfl, hc⟩
      · rfl
      · have hmark : c ∉ marks := by
          intro hmem
          have hsign := hmarks c hmem
          rcases hc with rfl | rfl | rfl | rfl <;> exact absurd hsign (by decide)
        rw [List.nil_append, scanMark, if_neg hmark]
        rfl
  | cons c s =>
      rw [List.cons_append, scanMark, scanMark]
      split <;> rfl

theorem scanInt_append {rest : List Char} (h : Delimited rest) {s digits s' : List Char}
    (hint : scanInt s = some (digits, s')) : scanInt (s ++ rest) = some (digits, s' ++ rest) := by
  cases s with
  | nil => cases hint
  | cons c s =>
      rw [scanInt] at hint
      rw [List.cons_append, scanInt, (digits_append h s).1, (digits_append h s).2]
      split_ifs at hint ⊢
      all_goals
        obtain ⟨rfl, rfl⟩ := Prod.mk.inj (Option.some.inj hint)
        rfl

theorem scanFraction_append {rest : List Char} (h : Delimited rest) (s : List Char) :
    scanFraction (s ++ rest) = ((scanFraction s).1, (scanFraction s).2 ++ rest) := by
  match s with
  | [] =>
      rcases h.eq_nil_or_cons with rfl | ⟨c, s, rfl, rfl | rfl | rfl | rfl⟩
      · rfl
      all_goals cases s <;> rfl
  | [c] =>
      rcases h.eq_nil_or_cons with rfl | ⟨d, s, rfl, rfl | rfl | rfl | rfl⟩
      · rfl
      all_goals
        rw [List.singleton_append, scanFraction, if_neg (by simp)]
        rfl
  | c :: d :: s =>
      rw [List.cons_append, List.cons_append, scanFraction, scanFraction, (digits_append h s).1,
        (digits_append h s).2]
      split <;> rfl

theorem scanExponent_append {rest : List Char} (h : Delimited rest) (s : List Char) :
    scanExponent (s ++ rest) = ((scanExponent s).1, (scanExponent s).2 ++ rest) := by
  cases s with
  | nil =>
      rcases h.eq_nil_or_cons with rfl | ⟨c, s, rfl, rfl | rfl | rfl | rfl⟩ <;> rfl
  | cons c s =>
      have hsign := scanMark_append h (fun _ hc => hc) s
      have hdigits := digits_append h (scanMark ['+', '-'] s).2
      rw [List.cons_append, scanExponent, scanExponent]
      dsimp only
      rw [hsign]
      dsimp only
      rw [hdigits.1, hdigits.2]
      split_ifs <;> rfl

/-- What follows a number does not change how it is read. -/
theorem matchNumber_append {rest : List Char} (h : Delimited rest) {s : List Char} {v : Json}
    {s' : List Char} (hnumber : matchNumber s = some (v, s')) :
    matchNumber (s ++ rest) = some (v, s' ++ rest) := by
  unfold matchNumber at hnumber ⊢
  rw [scanMark_append h (by simp) s]
  dsimp only at hnumber ⊢
  split at hnumber
  · cases hnumber
  · rename_i digits s₁ hint
    rw [scanInt_append h hint]
    dsimp only
    rw [scanFraction_append h s₁]
    dsimp only
    rw [scanExponent_append h (scanFraction s₁).2]
    dsimp only
    split_ifs at hnumber ⊢
    all_goals
      obtain ⟨rfl, rfl⟩ := Prod.mk.inj (Option.some.inj hnumber)
      rfl

/-- The digits of a number: a zero alone, or no zero in front. -/
theorem toDigits_eq_cons (n : ℕ) : ∃ c digits, Nat.toDigits 10 n = c :: digits ∧
    c.isDigit ∧ (∀ d ∈ digits, d.isDigit) ∧ (c = '0' → digits = []) := by
  have hdigit : ∀ d < 10, d.digitChar.isDigit ∧ (d.digitChar = '0' → d = 0) := by decide
  induction n using Nat.strongRecOn with
  | ind n ih =>
      rw [Nat.toDigits_eq_if (by decide)]
      by_cases hn : n < 10
      · rw [if_pos hn]
        exact ⟨_, [], rfl, (hdigit n hn).1, nofun, fun _ => rfl⟩
      · have hlast := (hdigit (n % 10) (Nat.mod_lt n (by decide))).1
        obtain ⟨c, digits, hdigits, hc, hall, hzero⟩ := ih (n / 10) (by omega)
        rw [if_neg hn, hdigits]
        refine ⟨c, digits ++ [(n % 10).digitChar], rfl, hc, ?_, ?_⟩
        · intro d hd
          rcases List.mem_append.mp hd with hd | hd
          · exact hall d hd
          · exact List.mem_singleton.mp hd ▸ hlast
        · intro heq
          have hn' := Nat.ofDigitChars_ten_toDigits (n := n / 10)
          rw [hdigits, heq, hzero heq] at hn'
          exact absurd (Nat.div_eq_zero_iff.mp hn'.symm) (by omega)

theorem scanInt_toDigits (n : ℕ) :
    scanInt (Nat.toDigits 10 n) = some (Nat.toDigits 10 n, []) := by
  obtain ⟨c, digits, hdigits, hc, hall, hzero⟩ := toDigits_eq_cons n
  rw [hdigits, scanInt]
  split_ifs with h
  · rw [h, hzero h]
  · rw [List.takeWhile_eq_self_iff.mpr hall, List.dropWhile_eq_nil_iff.mpr hall]

theorem matchNumber_toDigits {s minus : List Char} {n : ℕ}
    (hminus : scanMark ['-'] s = (minus, Nat.toDigits 10 n)) :
    matchNumber s = some (.int (if minus = [] then n else -n), []) := by
  have hend : scanFraction [] = ([], []) ∧ scanExponent [] = ([], []) := ⟨rfl, rfl⟩
  rw [matchNumber, hminus]
  dsimp only
  rw [scanInt_toDigits]
  dsimp only
  rw [hend.1]
  dsimp only
  rw [hend.2]
  dsimp only
  rw [if_pos (List.append_nil _), Nat.ofDigitChars_ten_toDigits]

theorem matchNumber_decimal (n : ℤ) : matchNumber (decimal n) = some (.int n, []) := by
  rw [decimal]
  split_ifs with h
  · have hminus : scanMark ['-'] ('-' :: Nat.toDigits 10 n.natAbs)
        = (['-'], Nat.toDigits 10 n.natAbs) := rfl
    have hn : -(n.natAbs : ℤ) = n := by omega
    rw [matchNumber_toDigits hminus, if_neg (List.cons_ne_nil _ _), hn]
  · have hminus : scanMark ['-'] (Nat.toDigits 10 n.natAbs) = ([], Nat.toDigits 10 n.natAbs) := by
      obtain ⟨c, digits, hdigits, hc, -⟩ := toDigits_eq_cons n.natAbs
      have hne : c ≠ '-' := fun heq => absurd (heq ▸ hc) (by decide)
      rw [hdigits, scanMark, if_neg (by simpa using hne)]
    have hn : (n.natAbs : ℤ) = n := by omega
    rw [matchNumber_toDigits hminus, if_pos rfl, hn]

/-! ### The round trip -/

theorem matchNumber_constant : ∀ constant ∈ constants, ∀ rest,
    matchNumber (constant.1 ++ rest) = none := by
  simp [constants, matchNumber, scanMark, scanInt]

theorem Value.of_number {s : List Char} {v : Json} {rest : List Char}
    (h : matchNumber s = some (v, rest)) : Value s v rest := by
  refine .number ?_ h
  cases hconstant : scanConstant s with
  | none => rfl
  | some read =>
      obtain ⟨word, hmem, rfl⟩ := scanConstant_eq hconstant
      rw [matchNumber_constant _ hmem] at h
      cases h

theorem Value.of_string {text : Codes} (h : IsText text) (rest : List Char) :
    Value (quote text ++ rest) (.string text) rest := by
  have hread := Value.string (scanString_quote h.valid rest)
  rw [h.joined] at hread
  rw [quote, List.cons_append, List.append_assoc]
  exact hread

theorem skip_delimiter {c : Char} (h : c ∈ [',', ']', '\x7d', ':', '\x22']) (s : List Char) :
    skip (c :: s) = c :: s := by
  refine skip_cons ?_ s
  simp at h
  rcases h with rfl | rfl | rfl | rfl | rfl <;> decide

theorem delimited_items (items : List Json) (rest : List Char) :
    Delimited (stringifyItems items ++ rest) := by
  cases items with
  | nil => exact delimited_cons (by decide) rest
  | cons v items => exact delimited_cons (by decide) _

theorem delimited_pairs (fields : List (Codes × Json)) (rest : List Char) :
    Delimited (stringifyPairs fields ++ rest) := by
  cases fields with
  | nil => exact delimited_cons (by decide) rest
  | cons field fields => exact delimited_cons (by decide) _

/-- What `stringify` writes, in front of any text that may follow, is read
as the value. -/
def Written (v : Json) : Prop :=
  ∀ rest, Delimited rest → Value (stringify v ++ rest) v rest

theorem stringifyItems_append (v : Json) (items : List Json) (rest : List Char) :
    stringifyItems (v :: items) ++ rest
      = ',' :: (stringify v ++ (stringifyItems items ++ rest)) := by
  rw [stringifyItems, List.cons_append, List.append_assoc]

theorem stringifyPairs_append (key : Codes) (v : Json) (fields : List (Codes × Json))
    (rest : List Char) :
    stringifyPairs ((key, v) :: fields) ++ rest
      = ',' :: (quote key ++ ':' :: (stringify v ++ (stringifyPairs fields ++ rest))) := by
  rw [stringifyPairs, List.cons_append, List.append_assoc, List.cons_append, List.append_assoc]

theorem Items.skip_eq {s : List Char} {items : List Json} {rest : List Char}
    (h : Items s items rest) : skip s = s := by
  obtain ⟨c, s', rfl, hblank, -⟩ := h.head
  exact skip_cons hblank s'

theorem Pairs.skip_eq {s : List Char} {fields : List (Codes × Json)} {rest : List Char}
    (h : Pairs s fields rest) : skip s = s := by
  cases h with
  | last | more => exact skip_delimiter (by decide) _

theorem pairs_last {key : Codes} (hkey : IsText key) {s : List Char} {v : Json}
    {rest : List Char} (hvalue : Value s v ('\x7d' :: rest)) :
    Pairs (quote key ++ ':' :: s) [(key, v)] rest := by
  have hread := scanString_quote hkey.valid (':' :: s)
  rw [← hvalue.skip_eq] at hvalue
  have hpairs := Pairs.last hread (skip_delimiter (by decide) s) hvalue
    (skip_delimiter (by decide) rest)
  rw [hkey.joined] at hpairs
  rwa [quote, List.cons_append, List.append_assoc]

theorem pairs_more {key : Codes} (hkey : IsText key) {s : List Char} {v : Json} {t : List Char}
    (hvalue : Value s v (',' :: t)) {fields : List (Codes × Json)} {rest : List Char}
    (hmore : Pairs t fields rest) : Pairs (quote key ++ ':' :: s) ((key, v) :: fields) rest := by
  have hread := scanString_quote hkey.valid (':' :: s)
  rw [← hvalue.skip_eq] at hvalue
  rw [← hmore.skip_eq] at hmore
  have hpairs := Pairs.more hread (skip_delimiter (by decide) s) hvalue
    (skip_delimiter (by decide) t) hmore
  rw [hkey.joined] at hpairs
  rwa [quote, List.cons_append, List.append_assoc]

theorem items_written {v : Json} (hv : Written v) {items : List Json}
    (h : ∀ w ∈ items, Written w) (rest : List Char) :
    Items (stringify v ++ (stringifyItems items ++ rest)) (v :: items) rest := by
  induction items generalizing v with
  | nil => exact .last (hv _ (delimited_items [] rest)) rfl
  | cons w items ih =>
      obtain ⟨hw, hitems⟩ := List.forall_mem_cons.mp h
      have hfirst := hv _ (delimited_items (w :: items) rest)
      have hmore := ih hw hitems
      rw [stringifyItems_append] at hfirst ⊢
      rw [← hmore.skip_eq] at hmore
      exact .more hfirst (skip_delimiter (by decide) _) hmore

theorem pairs_written {key : Codes} {v : Json} (hkey : IsText key) (hv : Written v)
    {fields : List (Codes × Json)} (hkeys : ∀ field ∈ fields, IsText field.1)
    (hvalues : ∀ field ∈ fields, Written field.2) (rest : List Char) :
    Pairs (quote key ++ ':' :: (stringify v ++ (stringifyPairs fields ++ rest)))
      ((key, v) :: fields) rest := by
  induction fields generalizing key v with
  | nil => exact pairs_last hkey (hv _ (delimited_pairs [] rest))
  | cons field fields ih =>
      obtain ⟨next, w⟩ := field
      obtain ⟨hnext, hkeys⟩ := List.forall_mem_cons.mp hkeys
      obtain ⟨hw, hvalues⟩ := List.forall_mem_cons.mp hvalues
      have hfirst := hv _ (delimited_pairs ((next, w) :: fields) rest)
      rw [stringifyPairs_append] at hfirst ⊢
      exact pairs_more hkey hfirst (ih hnext hw hkeys hvalues)

theorem Sendable.written {v : Json} (h : Sendable v) : Written v := by
  induction h with
  | null => exact fun rest _ => .constant rfl
  | bool b => cases b <;> exact fun rest _ => .constant rfl
  | int n => exact fun rest hrest => .of_number (matchNumber_append hrest (matchNumber_decimal n))
  | float h => exact fun rest hrest => .of_number (matchNumber_append hrest h)
  | string h => exact fun rest _ => .of_string h rest
  | @array items h ih =>
      intro rest _
      cases items with
      | nil => exact .emptyArray rfl
      | cons v items =>
          obtain ⟨hv, hitems⟩ := List.forall_mem_cons.mp ih
          have hread := items_written hv hitems rest
          rw [← hread.skip_eq] at hread
          rw [stringify, List.cons_append, List.append_assoc]
          exact .array hread
  | @object fields hkeys _ ih =>
      intro rest _
      cases fields with
      | nil => exact .emptyObject rfl
      | cons field fields =>
          obtain ⟨key, v⟩ := field
          obtain ⟨hkey, hkeys⟩ := List.forall_mem_cons.mp hkeys
          obtain ⟨hv, hvalues⟩ := List.forall_mem_cons.mp ih
          have hread := pairs_written hkey hv hkeys hvalues rest
          rw [← hread.skip_eq] at hread
          rw [stringify, List.cons_append, List.append_assoc, List.cons_append, List.append_assoc]
          exact .object hread

theorem parse_stringify {v : Json} (h : Sendable v) : parse (stringify v) = some v := by
  have hvalue := h.written [] delimited_nil
  rw [List.append_nil] at hvalue
  refine parse_iff.mpr ⟨?_, [], hvalue.skip_eq.symm ▸ hvalue, rfl⟩
  obtain ⟨c, s, hs, -, -, hbom⟩ := hvalue.head
  rw [hs]
  exact fun heq => hbom (Option.some.inj heq)

end Json

end Zmux
