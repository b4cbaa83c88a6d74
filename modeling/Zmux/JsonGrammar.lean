import Mathlib.Data.List.TakeWhile
import Mathlib.Tactic.SplitIfs
import Zmux.Json

/-!
# What the JSON reader reads

The grammar that the scanner of `Json` follows, and that the two agree:
what the scanner reads is in the grammar, and it has fuel for everything
in the grammar (`parse_iff`). Each step of a derivation consumes text, and
this bounds the fuel. The text of an object stands in braces
(`parse_braces`).
-/

namespace Zmux

namespace Json

/-! ## The grammar

A value, the pairs of an object and the items of an array, each with the
text before and after it. -/

mutual

inductive Value : List Char → Json → List Char → Prop
  | string {s text rest} (h : scanString s = some (text, rest)) :
      Value ('\x22' :: s) (.string (joinSurrogates text)) rest
  | emptyObject {s rest} (h : skip s = '\x7d' :: rest) : Value ('\x7b' :: s) (.object []) rest
  | object {s fields rest} (h : Pairs (skip s) fields rest) :
      Value ('\x7b' :: s) (.object fields) rest
  | emptyArray {s rest} (h : skip s = ']' :: rest) : Value ('[' :: s) (.array []) rest
  | array {s items rest} (h : Items (skip s) items rest) : Value ('[' :: s) (.array items) rest
  | constant {s v rest} (h : scanConstant s = some (v, rest)) : Value s v rest
  | number {s v rest} (hconstant : scanConstant s = none) (h : matchNumber s = some (v, rest)) :
      Value s v rest

inductive Pairs : List Char → List (Codes × Json) → List Char → Prop
  | last {s key s₁ s₂ v s₃ rest} (hkey : scanString s = some (key, s₁))
      (hcolon : skip s₁ = ':' :: s₂) (hvalue : Value (skip s₂) v s₃)
      (hend : skip s₃ = '\x7d' :: rest) :
      Pairs ('\x22' :: s) [(joinSurrogates key, v)] rest
  | more {s key s₁ s₂ v s₃ s₄ fields rest} (hkey : scanString s = some (key, s₁))
      (hcolon : skip s₁ = ':' :: s₂) (hvalue : Value (skip s₂) v s₃)
      (hcomma : skip s₃ = ',' :: s₄) (hmore : Pairs (skip s₄) fields rest) :
      Pairs ('\x22' :: s) ((joinSurrogates key, v) :: fields) rest

inductive Items : List Char → List Json → List Char → Prop
  | last {s v s₁ rest} (hvalue : Value s v s₁) (hend : skip s₁ = ']' :: rest) :
      Items s [v] rest
  | more {s v s₁ s₂ items rest} (hvalue : Value s v s₁) (hcomma : skip s₁ = ',' :: s₂)
      (hmore : Items (skip s₂) items rest) :
      Items s (v :: items) rest

end

/-! ## What is consumed -/

/-- `rest` is what is left of `s`, and something was read. -/
def Reads (s rest : List Char) : Prop := rest <:+ s ∧ rest.length < s.length

theorem Reads.cons {c : Char} {s rest : List Char} (h : rest <:+ s) : Reads (c :: s) rest :=
  ⟨h.trans (List.suffix_cons c s), Nat.lt_succ_of_le h.length_le⟩

theorem Reads.of_cons {c : Char} {s rest : List Char} (h : c :: rest <:+ s) : Reads s rest :=
  ⟨(List.suffix_cons c rest).trans h, h.length_le⟩

theorem Reads.cons_suffix {c : Char} {s s' rest : List Char} (hs : skip s = c :: rest)
    (h : s <:+ s') : c :: rest <:+ s' :=
  have hskip : skip s <:+ s := List.dropWhile_suffix isBlank
  (hs ▸ hskip).trans h

theorem Reads.trans_suffix {s s' rest : List Char} (h : Reads s s') (hrest : rest <:+ s') :
    Reads s rest :=
  ⟨hrest.trans h.1, Nat.lt_of_le_of_lt hrest.length_le h.2⟩

theorem Reads.suffix_trans {s s' rest : List Char} (h : s' <:+ s) (hrest : Reads s' rest) :
    Reads s rest :=
  ⟨hrest.1.trans h, Nat.lt_of_lt_of_le hrest.2 h.length_le⟩

theorem mapRead_eq_some {α β : Type} {f : α → β} {read : Option (α × List Char)} {b : β}
    {rest : List Char} :
    mapRead f read = some (b, rest) ↔ ∃ a, read = some (a, rest) ∧ f a = b := by
  constructor
  · intro h
    obtain ⟨⟨a, rest'⟩, ha, heq⟩ := Option.map_eq_some_iff.mp h
    obtain ⟨hf, rfl⟩ := Prod.mk.inj heq
    exact ⟨a, ha, hf⟩
  · rintro ⟨a, rfl, rfl⟩
    rfl

/-- The quote that closes a string. -/
theorem scanString_suffix {s : List Char} {text : Codes} {rest : List Char}
    (h : scanString s = some (text, rest)) : '\x22' :: rest <:+ s := by
  fun_induction scanString s generalizing text with
  | case1 => cases h
  | case2 s =>
      obtain ⟨-, rfl⟩ := Prod.mk.inj (Option.some.inj h)
      exact List.suffix_refl _
  | case3 | case4 | case6 | case7 | case9 => cases h
  | case5 a b c d s n hn hquote ih =>
      obtain ⟨text', htext, -⟩ := mapRead_eq_some.mp h
      exact (ih htext).trans (List.suffix_append ['\x5c', 'u', a, b, c, d] s)
  | case8 e s hu n hn hquote ih =>
      obtain ⟨text', htext, -⟩ := mapRead_eq_some.mp h
      exact (ih htext).trans (List.suffix_append ['\x5c', e] s)
  | case10 e s hquote hslash hcontrol ih =>
      obtain ⟨text', htext, -⟩ := mapRead_eq_some.mp h
      exact (ih htext).trans (List.suffix_cons e s)

theorem scanInt_reads {s digits rest : List Char} (h : scanInt s = some (digits, rest)) :
    Reads s rest := by
  cases s with
  | nil => cases h
  | cons c s =>
      rw [scanInt] at h
      split_ifs at h
      · obtain ⟨-, rfl⟩ := Prod.mk.inj (Option.some.inj h)
        exact Reads.cons (List.suffix_refl _)
      · obtain ⟨-, rfl⟩ := Prod.mk.inj (Option.some.inj h)
        exact Reads.cons (List.dropWhile_suffix _)

theorem scanMark_suffix (marks s : List Char) : (scanMark marks s).2 <:+ s := by
  unfold scanMark
  split
  · split_ifs
    · exact List.suffix_cons _ _
    · exact List.suffix_refl _
  · exact List.suffix_refl _

theorem scanFraction_suffix (s : List Char) : (scanFraction s).2 <:+ s := by
  unfold scanFraction
  split
  · split_ifs
    · exact (List.dropWhile_suffix _).trans (List.suffix_append [_, _] _)
    · exact List.suffix_refl _
  · exact List.suffix_refl _

theorem scanExponent_suffix (s : List Char) : (scanExponent s).2 <:+ s := by
  unfold scanExponent
  split
  · dsimp only
    split_ifs
    · exact List.suffix_refl _
    · exact ((List.dropWhile_suffix _).trans (scanMark_suffix _ _)).trans (List.suffix_cons _ _)
    · exact List.suffix_refl _
  · exact List.suffix_refl _

theorem matchNumber_reads {s : List Char} {v : Json} {rest : List Char}
    (h : matchNumber s = some (v, rest)) : Reads s rest := by
  unfold matchNumber at h
  dsimp only at h
  split at h
  · cases h
  · rename_i digits s₁ hint
    have hread : Reads s s₁ := Reads.suffix_trans (scanMark_suffix _ s) (scanInt_reads hint)
    have hrest : (scanExponent (scanFraction s₁).2).2 <:+ s₁ :=
      (scanExponent_suffix _).trans (scanFraction_suffix _)
    split_ifs at h
    all_goals
      obtain ⟨-, rfl⟩ := Prod.mk.inj (Option.some.inj h)
      exact hread.trans_suffix hrest

/-- A number starts with a minus sign or a digit. -/
theorem matchNumber_head {s : List Char} {v : Json} {rest : List Char}
    (h : matchNumber s = some (v, rest)) : ∃ c s', s = c :: s' ∧ (c = '-' ∨ c.isDigit) := by
  cases s with
  | nil => cases h
  | cons c s =>
      refine ⟨c, s, rfl, ?_⟩
      by_contra hc
      obtain ⟨hminus, hdigit⟩ := not_or.mp hc
      have hzero : c ≠ '0' := fun heq => hdigit (by rw [heq]; rfl)
      simp [matchNumber, scanMark, scanInt, hminus, hdigit, hzero] at h

theorem scanConstant_eq {s : List Char} {v : Json} {rest : List Char}
    (h : scanConstant s = some (v, rest)) :
    ∃ word, (word, v) ∈ constants ∧ s = word ++ rest := by
  obtain ⟨⟨word, value⟩, hmem, hword⟩ := List.exists_of_findSome?_eq_some h
  dsimp only at hword
  split_ifs at hword with hstarts
  obtain ⟨rfl, rfl⟩ := Prod.mk.inj (Option.some.inj hword)
  obtain ⟨more, rfl⟩ := List.isPrefixOf_iff_prefix.mp hstarts
  exact ⟨word, hmem, by rw [List.drop_left]⟩

theorem constants_head : ∀ constant ∈ constants, ∃ c ∈ ['n', 't', 'f', 'N', 'I', '-'],
    constant.1.head? = some c := by
  simp [constants]

theorem scanConstant_head {s : List Char} {v : Json} {rest : List Char}
    (h : scanConstant s = some (v, rest)) :
    ∃ c s', s = c :: s' ∧ c ∈ ['n', 't', 'f', 'N', 'I', '-'] := by
  obtain ⟨word, hmem, rfl⟩ := scanConstant_eq h
  obtain ⟨c, hc, hhead⟩ := constants_head _ hmem
  obtain ⟨word', rfl⟩ := List.head?_eq_some_iff.mp hhead
  exact ⟨c, word' ++ rest, rfl, hc⟩

/-- What a value that is not a string, an object or an array starts with. -/
theorem plain_head {c : Char} {s : List Char} {v : Json} {rest : List Char}
    (h : scanConstant (c :: s) = some (v, rest) ∨ matchNumber (c :: s) = some (v, rest)) :
    c ∈ ['n', 't', 'f', 'N', 'I', '-'] ∨ c.isDigit := by
  rcases h with h | h
  · obtain ⟨d, s', heq, hd⟩ := scanConstant_head h
    obtain ⟨rfl, rfl⟩ := List.cons.inj heq
    exact Or.inl hd
  · obtain ⟨d, s', heq, hd⟩ := matchNumber_head h
    obtain ⟨rfl, rfl⟩ := List.cons.inj heq
    exact hd.imp_left fun hminus => by simp [hminus]

theorem ne_of_plain {c : Char} (h : c ∈ ['n', 't', 'f', 'N', 'I', '-'] ∨ c.isDigit) {d : Char}
    (hd : d ∈ ['\x22', '\x7b', '[', ']', ' ', '\t', '\n', '\r', '\ufeff']) : c ≠ d := by
  rintro rfl
  revert hd
  rcases h with h | h
  · simp at h
    rcases h with rfl | rfl | rfl | rfl | rfl | rfl <;> decide
  · intro hd
    simp at hd
    rcases hd with rfl | rfl | rfl | rfl | rfl | rfl | rfl | rfl | rfl <;>
      exact absurd h (by decide)

/-- No value starts with white space, with a bracket that closes or with a
byte order mark. -/
theorem Value.head {s : List Char} {v : Json} {rest : List Char} (h : Value s v rest) :
    ∃ c s', s = c :: s' ∧ isBlank c = false ∧ c ≠ ']' ∧ c ≠ '\ufeff' := by
  have hplain : ∀ c s', (c ∈ ['n', 't', 'f', 'N', 'I', '-'] ∨ c.isDigit) →
      ∃ d t, c :: s' = d :: t ∧ isBlank d = false ∧ d ≠ ']' ∧ d ≠ '\ufeff' :=
    fun c s' hc => ⟨c, s', rfl, by simp [isBlank, ne_of_plain hc], ne_of_plain hc (by decide),
      ne_of_plain hc (by decide)⟩
  cases h with
  | string | emptyObject | object | emptyArray | array =>
      exact ⟨_, _, rfl, by decide, by decide, by decide⟩
  | constant h =>
      obtain ⟨c, s', rfl, -⟩ := scanConstant_head h
      exact hplain c s' (plain_head (Or.inl h))
  | number _ h =>
      obtain ⟨c, s', rfl, -⟩ := matchNumber_head h
      exact hplain c s' (plain_head (Or.inr h))

theorem skip_length (s : List Char) : (skip s).length ≤ s.length :=
  (List.dropWhile_suffix _).length_le

theorem skip_cons {c : Char} (h : isBlank c = false) (s : List Char) : skip (c :: s) = c :: s :=
  List.dropWhile_cons_of_neg (by simp [h])

theorem Value.skip_eq {s : List Char} {v : Json} {rest : List Char} (h : Value s v rest) :
    skip s = s := by
  obtain ⟨c, s', rfl, hblank, -⟩ := h.head
  exact skip_cons hblank s'

theorem Items.head {s : List Char} {items : List Json} {rest : List Char} (h : Items s items rest) :
    ∃ c s', s = c :: s' ∧ isBlank c = false ∧ c ≠ ']' ∧ c ≠ '\ufeff' := by
  cases h with
  | last hvalue | more hvalue => exact hvalue.head

/-- From after the quote of a key to its value. -/
theorem field_reads {s s₁ s₂ : List Char} {key : Codes} (hkey : scanString s = some (key, s₁))
    (hcolon : skip s₁ = ':' :: s₂) : Reads s (skip s₂) := by
  have h₁ : s₁ <:+ s := (Reads.of_cons (scanString_suffix hkey)).1
  exact (Reads.of_cons (Reads.cons_suffix hcolon h₁)).trans_suffix (List.dropWhile_suffix _)

/-- From after a value to what follows the comma. -/
theorem comma_reads {s s' : List Char} (hcomma : skip s = ',' :: s') : Reads s (skip s') :=
  (Reads.of_cons (Reads.cons_suffix hcomma (List.suffix_refl _))).trans_suffix
    (List.dropWhile_suffix _)

mutual

theorem Value.reads : ∀ {s v rest}, Value s v rest → Reads s rest
  | _, _, _, .string h => Reads.cons (Reads.of_cons (scanString_suffix h)).1
  | _, _, _, .emptyObject h =>
      Reads.cons (Reads.of_cons (Reads.cons_suffix h (List.suffix_refl _))).1
  | _, _, _, .object h =>
      Reads.cons ((Reads.of_cons h.suffix).1.trans (List.dropWhile_suffix _))
  | _, _, _, .emptyArray h =>
      Reads.cons (Reads.of_cons (Reads.cons_suffix h (List.suffix_refl _))).1
  | _, _, _, .array h =>
      Reads.cons ((Reads.of_cons h.suffix).1.trans (List.dropWhile_suffix _))
  | _, _, _, .constant h => by
      obtain ⟨c, s', rfl, -⟩ := scanConstant_head h
      obtain ⟨word, hmem, heq⟩ := scanConstant_eq h
      obtain ⟨d, -, hhead⟩ := constants_head _ hmem
      obtain ⟨word', rfl⟩ := List.head?_eq_some_iff.mp hhead
      rw [heq]
      exact Reads.cons (List.suffix_append word' _)
  | _, _, _, .number _ h => matchNumber_reads h

/-- The brace that closes the object. -/
theorem Pairs.suffix : ∀ {s fields rest}, Pairs s fields rest → '\x7d' :: rest <:+ s
  | _, _, _, .last hkey hcolon hvalue hend => by
      have hend' := hvalue.reads.1.trans (field_reads hkey hcolon).1
      exact (Reads.cons_suffix hend hend').trans (List.suffix_cons _ _)
  | _, _, _, .more hkey hcolon hvalue hcomma hmore => by
      have hend' := hvalue.reads.1.trans (field_reads hkey hcolon).1
      exact (hmore.suffix.trans ((comma_reads hcomma).1.trans hend')).trans (List.suffix_cons _ _)

theorem Items.suffix : ∀ {s items rest}, Items s items rest → ']' :: rest <:+ s
  | _, _, _, .last hvalue hend => Reads.cons_suffix hend hvalue.reads.1
  | _, _, _, .more hvalue hcomma hmore =>
      hmore.suffix.trans ((comma_reads hcomma).1.trans hvalue.reads.1)

end

/-! ## The scanner and the grammar

First what one round of each scanner reads, with what the scanners of one
round less do, then the same by induction on the fuel. -/

section Rounds

variable {fuel : ℕ}

theorem scanOnce_sound
    (hpairs : ∀ s fields rest, scanPairs fuel s = some (fields, rest) → Pairs s fields rest)
    (hitems : ∀ s items rest, scanItems fuel s = some (items, rest) → Items s items rest)
    {s : List Char} {v : Json} {rest : List Char}
    (h : scanOnce (fuel + 1) s = some (v, rest)) : Value s v rest := by
  cases s with
  | nil => cases h
  | cons c s =>
      rw [scanOnce] at h
      split_ifs at h with hquote hbrace hbracket
      · obtain ⟨text, htext, rfl⟩ := mapRead_eq_some.mp h
        exact hquote ▸ .string htext
      · subst hbrace
        split at h
        · cases h
        · rename_i d more hskip
          split_ifs at h with hend
          · obtain ⟨rfl, rfl⟩ := Prod.mk.inj (Option.some.inj h)
            exact .emptyObject (hend ▸ hskip)
          · obtain ⟨fields, hfields, rfl⟩ := mapRead_eq_some.mp h
            exact .object (hskip ▸ hpairs _ _ _ hfields)
      · subst hbracket
        split at h
        · cases h
        · rename_i d more hskip
          split_ifs at h with hend
          · obtain ⟨rfl, rfl⟩ := Prod.mk.inj (Option.some.inj h)
            exact .emptyArray (hend ▸ hskip)
          · obtain ⟨items, hitems', rfl⟩ := mapRead_eq_some.mp h
            exact .array (hskip ▸ hitems _ _ _ hitems')
      · rcases Option.or_eq_some_iff.mp h with h | ⟨hconstant, h⟩
        · exact .constant h
        · exact .number hconstant h

theorem scanPairs_sound
    (hvalues : ∀ s v rest, scanOnce fuel s = some (v, rest) → Value s v rest)
    (hpairs : ∀ s fields rest, scanPairs fuel s = some (fields, rest) → Pairs s fields rest)
    {s : List Char} {fields : List (Codes × Json)} {rest : List Char}
    (h : scanPairs (fuel + 1) s = some (fields, rest)) : Pairs s fields rest := by
  cases s with
  | nil => cases h
  | cons c s =>
      rw [scanPairs] at h
      split_ifs at h with hquote
      obtain rfl := not_not.mp hquote
      split at h
      · cases h
      · rename_i key s₁ hkey
        split at h
        · cases h
        · rename_i d s₂ hskip
          split_ifs at h with hcolon
          obtain rfl := not_not.mp hcolon
          split at h
          · cases h
          · rename_i value s₃ hvalue
            split at h
            · cases h
            · rename_i d s₄ hskip'
              split_ifs at h with hend hcomma
              · obtain ⟨rfl, rfl⟩ := Prod.mk.inj (Option.some.inj h)
                exact .last hkey hskip (hvalues _ _ _ hvalue) (hend ▸ hskip')
              · obtain ⟨fields', hfields, rfl⟩ := mapRead_eq_some.mp h
                exact .more hkey hskip (hvalues _ _ _ hvalue) (hcomma ▸ hskip')
                  (hpairs _ _ _ hfields)

theorem scanItems_sound
    (hvalues : ∀ s v rest, scanOnce fuel s = some (v, rest) → Value s v rest)
    (hitems : ∀ s items rest, scanItems fuel s = some (items, rest) → Items s items rest)
    {s : List Char} {items : List Json} {rest : List Char}
    (h : scanItems (fuel + 1) s = some (items, rest)) : Items s items rest := by
  rw [scanItems] at h
  split at h
  · cases h
  · rename_i value s₁ hvalue
    split at h
    · cases h
    · rename_i d s₂ hskip
      split_ifs at h with hend hcomma
      · obtain ⟨rfl, rfl⟩ := Prod.mk.inj (Option.some.inj h)
        exact .last (hvalues _ _ _ hvalue) (hend ▸ hskip)
      · obtain ⟨items', hitems', rfl⟩ := mapRead_eq_some.mp h
        exact .more (hvalues _ _ _ hvalue) (hcomma ▸ hskip) (hitems _ _ _ hitems')

theorem scanOnce_plain {c : Char} (hc : c ∈ ['n', 't', 'f', 'N', 'I', '-'] ∨ c.isDigit)
    (s : List Char) :
    scanOnce (fuel + 1) (c :: s) = (scanConstant (c :: s)).or (matchNumber (c :: s)) := by
  rw [scanOnce, if_neg (ne_of_plain hc (by decide)), if_neg (ne_of_plain hc (by decide)),
    if_neg (ne_of_plain hc (by decide))]

theorem scanOnce_complete
    (hpairs : ∀ s fields rest, Pairs s fields rest → 2 * s.length < fuel →
      scanPairs fuel s = some (fields, rest))
    (hitems : ∀ s items rest, Items s items rest → 2 * s.length + 1 < fuel →
      scanItems fuel s = some (items, rest))
    {s : List Char} {v : Json} {rest : List Char} (h : Value s v rest)
    (hfuel : 2 * s.length < fuel + 1) : scanOnce (fuel + 1) s = some (v, rest) := by
  cases h with
  | @string s text _ h =>
      rw [scanOnce, if_pos rfl]
      exact mapRead_eq_some.mpr ⟨text, h, rfl⟩
  | emptyObject h =>
      rw [scanOnce, if_neg (by decide), if_pos rfl, h]
      rfl
  | @object s fields _ h =>
      rw [scanOnce, if_neg (by decide), if_pos rfl]
      have hread := hpairs _ _ _ h (by
        have := skip_length s
        rw [List.length_cons] at hfuel
        omega)
      generalize skip s = s' at h hread
      cases h with
      | last | more =>
          dsimp only
          rw [if_neg (by decide)]
          exact mapRead_eq_some.mpr ⟨_, hread, rfl⟩
  | emptyArray h =>
      rw [scanOnce, if_neg (by decide), if_neg (by decide), if_pos rfl, h]
      rfl
  | @array s items _ h =>
      rw [scanOnce, if_neg (by decide), if_neg (by decide), if_pos rfl]
      have hread := hitems _ _ _ h (by
        have := skip_length s
        rw [List.length_cons] at hfuel
        omega)
      obtain ⟨c, s', hs, -, hend, -⟩ := h.head
      rw [hs] at hread ⊢
      dsimp only
      rw [if_neg hend]
      exact mapRead_eq_some.mpr ⟨items, hread, rfl⟩
  | constant h =>
      obtain ⟨c, s', rfl, -⟩ := scanConstant_head h
      rw [scanOnce_plain (plain_head (Or.inl h)), h]
      rfl
  | number hconstant h =>
      obtain ⟨c, s', rfl, -⟩ := matchNumber_head h
      rw [scanOnce_plain (plain_head (Or.inr h)), hconstant, h]
      rfl

theorem scanPairs_complete
    (hvalues : ∀ s v rest, Value s v rest → 2 * s.length < fuel → scanOnce fuel s = some (v, rest))
    (hpairs : ∀ s fields rest, Pairs s fields rest → 2 * s.length < fuel →
      scanPairs fuel s = some (fields, rest))
    {s : List Char} {fields : List (Codes × Json)} {rest : List Char} (h : Pairs s fields rest)
    (hfuel : 2 * s.length < fuel + 1) : scanPairs (fuel + 1) s = some (fields, rest) := by
  cases h with
  | @last s key s₁ s₂ v s₃ _ hkey hcolon hvalue hend =>
      have hlength := (field_reads hkey hcolon).2
      rw [List.length_cons] at hfuel
      have hread := hvalues _ _ _ hvalue (by omega)
      rw [scanPairs, if_neg (not_not_intro rfl), hkey]
      dsimp only
      rw [hcolon]
      dsimp only
      rw [if_neg (not_not_intro rfl), hread]
      dsimp only
      rw [hend]
      rfl
  | @more s key s₁ s₂ v s₃ s₄ fields _ hkey hcolon hvalue hcomma hmore =>
      have hlength := (field_reads hkey hcolon).2
      have hlength' := hvalue.reads.2
      have hlength'' := (comma_reads hcomma).2
      rw [List.length_cons] at hfuel
      have hread := hvalues _ _ _ hvalue (by omega)
      have hrest := hpairs _ _ _ hmore (by omega)
      rw [scanPairs, if_neg (not_not_intro rfl), hkey]
      dsimp only
      rw [hcolon]
      dsimp only
      rw [if_neg (not_not_intro rfl), hread]
      dsimp only
      rw [hcomma]
      dsimp only
      rw [if_neg (by decide), if_pos rfl]
      exact mapRead_eq_some.mpr ⟨fields, hrest, rfl⟩

theorem scanItems_complete
    (hvalues : ∀ s v rest, Value s v rest → 2 * s.length < fuel →
      scanOnce fuel s = some (v, rest))
    (hitems : ∀ s items rest, Items s items rest → 2 * s.length + 1 < fuel →
      scanItems fuel s = some (items, rest))
    {s : List Char} {items : List Json} {rest : List Char} (h : Items s items rest)
    (hfuel : 2 * s.length + 1 < fuel + 1) : scanItems (fuel + 1) s = some (items, rest) := by
  cases h with
  | last hvalue hend =>
      rw [scanItems, hvalues _ _ _ hvalue (Nat.lt_of_succ_lt_succ hfuel)]
      dsimp only
      rw [hend]
      rfl
  | @more _ v s₁ s₂ items _ hvalue hcomma hmore =>
      have hlength := hvalue.reads.2
      have hlength' := (comma_reads hcomma).2
      have hrest := hitems _ _ _ hmore (by omega)
      rw [scanItems, hvalues _ _ _ hvalue (Nat.lt_of_succ_lt_succ hfuel)]
      dsimp only
      rw [hcomma]
      dsimp only
      rw [if_neg (by decide), if_pos rfl]
      exact mapRead_eq_some.mpr ⟨items, hrest, rfl⟩

end Rounds

theorem scan_sound (fuel : ℕ) :
    (∀ s v rest, scanOnce fuel s = some (v, rest) → Value s v rest) ∧
      (∀ s fields rest, scanPairs fuel s = some (fields, rest) → Pairs s fields rest) ∧
      (∀ s items rest, scanItems fuel s = some (items, rest) → Items s items rest) := by
  induction fuel with
  | zero => exact ⟨nofun, nofun, nofun⟩
  | succ fuel ih =>
      obtain ⟨hvalues, hpairs, hitems⟩ := ih
      exact ⟨fun _ _ _ => scanOnce_sound hpairs hitems, fun _ _ _ => scanPairs_sound hvalues hpairs,
        fun _ _ _ => scanItems_sound hvalues hitems⟩

theorem scan_complete (fuel : ℕ) :
    (∀ s v rest, Value s v rest → 2 * s.length < fuel → scanOnce fuel s = some (v, rest)) ∧
      (∀ s fields rest, Pairs s fields rest → 2 * s.length < fuel →
        scanPairs fuel s = some (fields, rest)) ∧
      (∀ s items rest, Items s items rest → 2 * s.length + 1 < fuel →
        scanItems fuel s = some (items, rest)) := by
  induction fuel with
  | zero => exact ⟨nofun, nofun, nofun⟩
  | succ fuel ih =>
      obtain ⟨hvalues, hpairs, hitems⟩ := ih
      exact ⟨fun _ _ _ => scanOnce_complete hpairs hitems,
        fun _ _ _ => scanPairs_complete hvalues hpairs,
        fun _ _ _ => scanItems_complete hvalues hitems⟩

/-- A text is a value of the grammar between white space. -/
theorem parse_iff {text : List Char} {v : Json} :
    parse text = some v ↔
      text.head? ≠ some '\ufeff' ∧ ∃ rest, Value (skip text) v rest ∧ skip rest = [] := by
  rw [parse]
  constructor
  · intro h
    split_ifs at h with hbom
    split at h
    · cases h
    · rename_i value rest hscan
      split_ifs at h with hrest
      obtain rfl := Option.some.inj h
      exact ⟨hbom, rest, (scan_sound _).1 _ _ _ hscan, hrest⟩
  · rintro ⟨hbom, rest, hvalue, hrest⟩
    have hscan := (scan_complete (2 * text.length + 1)).1 _ _ _ hvalue (by
      have := skip_length text
      omega)
    rw [if_neg hbom, hscan]
    exact if_pos hrest

/-! ## The braces of an object -/

theorem matchNumber_ne_object {s : List Char} {fields : List (Codes × Json)} {rest : List Char} :
    matchNumber s ≠ some (.object fields, rest) := by
  intro h
  unfold matchNumber at h
  dsimp only at h
  split at h
  · cases h
  · split_ifs at h <;> cases h

theorem scanConstant_ne_object {s : List Char} {fields : List (Codes × Json)}
    {rest : List Char} : scanConstant s ≠ some (.object fields, rest) := by
  intro h
  obtain ⟨word, hmem, -⟩ := scanConstant_eq h
  simp [constants] at hmem

theorem Value.braces {s : List Char} {fields : List (Codes × Json)} {rest : List Char}
    (h : Value s (.object fields) rest) :
    ∃ inner, s = '\x7b' :: (inner ++ '\x7d' :: rest) := by
  cases h with
  | @emptyObject s _ h =>
      obtain ⟨inner, hinner⟩ := Reads.cons_suffix h (List.suffix_refl s)
      exact ⟨inner, by rw [hinner]⟩
  | @object s _ _ h =>
      obtain ⟨inner, hinner⟩ := h.suffix.trans (List.dropWhile_suffix _)
      exact ⟨inner, by rw [hinner]⟩
  | constant h => exact absurd h scanConstant_ne_object
  | number _ h => exact absurd h matchNumber_ne_object

/-- The text of an object stands in braces. -/
theorem parse_braces {text : List Char} {fields : List (Codes × Json)}
    (h : parse text = some (.object fields)) :
    ∃ before inner after, text = before ++ '\x7b' :: (inner ++ '\x7d' :: after) ∧
      (∀ c ∈ before, isBlank c) ∧ ∀ c ∈ after, isBlank c := by
  obtain ⟨-, after, hvalue, hafter⟩ := parse_iff.mp h
  obtain ⟨inner, hinner⟩ := hvalue.braces
  refine ⟨text.takeWhile isBlank, inner, after, ?_, fun c hc => List.mem_takeWhile_imp hc,
    List.dropWhile_eq_nil_iff.mp hafter⟩
  rw [← hinner]
  exact List.takeWhile_append_dropWhile.symm

end Json

end Zmux
