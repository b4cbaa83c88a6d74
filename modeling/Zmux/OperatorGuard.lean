import Zmux.CommandMode

/-!
# The guard against shell operators

`execute` of `python_shell.py` looks for unsupported operators among the
words of a command line, without their quotes. The line itself tells more:
which of its characters are quoted (`Quoting`), and so which operators are
meant as such (`Unquoted`).

A word shows an operator if it is one, contains a substitution, or ends
with a semicolon (`Shown`). What is unquoted and between blanks is shown,
and so is a substitution wherever it is unquoted. An operator that sticks
to a word is not, and a quoted one may be: the guard is right about the
lines where what is shown and what is unquoted agree (`rejected_iff`).
-/

namespace Zmux

open Shlex (Word apostrophe quotationMark backslash)
open Pipeline (Parsed ParseError)

namespace CommandMode

/-! ## Quoting -/

/-- Where a character stands. -/
inductive Quoting where
  | unquoted
  | inside (mark : Char)
  /-- After a backslash, which may stand inside of quotation marks. -/
  | escaped (mark : Option Char)
deriving DecidableEq

def Quoting.next : Quoting → Char → Quoting
  | .unquoted, c =>
    if c = apostrophe ∨ c = quotationMark then .inside c
    else if c = backslash then .escaped none
    else .unquoted
  | .inside mark, c =>
    if c = mark then .unquoted
    else if c = backslash ∧ mark = quotationMark then .escaped (some mark)
    else .inside mark
  | .escaped none, _ => .unquoted
  | .escaped (some mark), _ => .inside mark

/-- Behind a text. -/
def quoting (text : List Char) : Quoting := text.foldl Quoting.next .unquoted

/-- `operator` stands in the line, outside of quotes and not escaped. -/
def UnquotedAt (operator : Word) (line before after : List Char) : Prop :=
  line = before ++ (operator ++ after) ∧ quoting before = .unquoted

def Unquoted (line : List Char) : Prop :=
  ∃ entry ∈ unsupportedOperators, ∃ before after, UnquotedAt entry.1 line before after

/-! ## The lexer and the quotes -/

/-- A character without a meaning for the lexer. -/
structure Literal (c : Char) : Prop where
  blank : Shlex.Lexer.isWhitespace c = false
  quote : c ≠ apostrophe ∧ c ≠ quotationMark
  escape : c ≠ backslash

/-- The lexer is where the quotes are. -/
def Follows (state : Shlex.State) : Quoting → Prop
  | .unquoted => state = .blank ∨ state = .word
  | .inside mark => state = .quoted mark
  | .escaped mark => state = .escaped mark

/-- Between words there is no token. -/
structure Fits (s : Shlex.Lexer) (q : Quoting) : Prop where
  state : Follows s.state q
  blank : s.state = .blank → s.token = [] ∧ s.quoted = false

theorem fits_start : Fits Shlex.Lexer.start .unquoted := ⟨Or.inl rfl, fun _ => ⟨rfl, rfl⟩⟩

theorem fits_emit (s : Shlex.Lexer) : Fits s.emit .unquoted := by
  rw [Shlex.Lexer.emit]
  split
  · exact ⟨Or.inl rfl, fun _ => ⟨rfl, rfl⟩⟩
  · rename_i h
    obtain ⟨htoken, hquoted⟩ := not_or.mp h
    exact ⟨Or.inl rfl, fun _ => ⟨not_not.mp htoken, Bool.eq_false_iff.mpr hquoted⟩⟩

theorem isQuote_iff {c : Char} :
    Shlex.Lexer.isQuote c = true ↔ c = apostrophe ∨ c = quotationMark := by
  simp [Shlex.Lexer.isQuote]

theorem emit_of_blank {s : Shlex.Lexer} (h : s.token = [] ∧ s.quoted = false)
    (hstate : s.state = .blank) : s.emit = s := by
  rw [Shlex.Lexer.emit, if_neg]
  · rw [← hstate]
  · rw [h.1, h.2]
    exact not_or.mpr ⟨not_not.mpr rfl, Bool.false_ne_true⟩

/-- Outside of quotes, between words and inside of them. -/
theorem feed_unquoted {s : Shlex.Lexer} (h : Fits s .unquoted) (c : Char) :
    feed s c =
      if Shlex.Lexer.isWhitespace c = true then s.emit
      else if c = apostrophe ∨ c = quotationMark then { s with state := .quoted c }
      else if c = backslash then { s with state := .escaped none }
      else { s with token := s.token ++ [c], state := .word } := by
  have hhash : Shlex.Lexer.isWhitespace '#' = false ∧ ¬('#' = apostrophe ∨ '#' = quotationMark)
      ∧ '#' ≠ backslash := by decide
  rcases h.state with hstate | hstate
  · have hempty := h.blank hstate
    by_cases hc : c = '#'
    · subst hc
      rw [feed, if_pos rfl, hstate, hhash.1, if_neg Bool.false_ne_true, if_neg hhash.2.1,
        if_neg hhash.2.2, hempty.1]
      rfl
    · rw [feed, if_neg hc, Shlex.Lexer.feed, hstate]
      dsimp only
      rw [Shlex.Lexer.outside, emit_of_blank hempty hstate, if_neg hc, if_neg List.not_mem_nil]
      simp only [isQuote_iff, hempty.1, List.nil_append]
      split
      · rfl
      · split
        · rename_i hslash
          subst hslash
          rfl
        · rfl
  · by_cases hc : c = '#'
    · subst hc
      rw [feed, if_pos rfl, hstate, hhash.1, if_neg Bool.false_ne_true, if_neg hhash.2.1,
        if_neg hhash.2.2]
    · rw [feed, if_neg hc, Shlex.Lexer.feed, hstate]
      dsimp only
      rw [if_neg hc, if_pos List.not_mem_nil]
      simp only [isQuote_iff]

theorem feed_inside {s : Shlex.Lexer} {mark : Char} (h : s.state = .quoted mark) (c : Char) :
    feed s c =
      if c = mark then { s with quoted := true, state := .word }
      else if c = backslash ∧ mark = quotationMark then
        { s with quoted := true, state := .escaped (some mark) }
      else { s with quoted := true, token := s.token ++ [c], state := .quoted mark } := by
  have hfeed : feed s c = s.feed [] c := by
    rw [feed, h]
    split <;> rfl
  rw [hfeed, Shlex.Lexer.feed, h]

theorem feed_escaped {s : Shlex.Lexer} (h : s.state = .escaped none) (c : Char) :
    feed s c = { s with token := s.token ++ [c], state := .word } := by
  have hfeed : feed s c = s.feed [] c := by
    rw [feed, h]
    split <;> rfl
  rw [hfeed, Shlex.Lexer.feed, h]

theorem feed_escapedInside {s : Shlex.Lexer} {mark : Char} (h : s.state = .escaped (some mark))
    (c : Char) : ∃ more, feed s c = { s with token := s.token ++ more, state := .quoted mark } := by
  have hfeed : feed s c = s.feed [] c := by
    rw [feed, h]
    split <;> rfl
  refine ⟨(if c ≠ backslash ∧ c ≠ mark then [backslash] else []) ++ [c], ?_⟩
  rw [hfeed, Shlex.Lexer.feed, h]
  dsimp only
  rw [List.append_assoc]

theorem fits_feed {s : Shlex.Lexer} {q : Quoting} (h : Fits s q) (c : Char) :
    Fits (feed s c) (q.next c) := by
  cases q with
  | unquoted =>
      rw [feed_unquoted h, Quoting.next]
      split
      · rename_i hblank
        have hplain : ¬(c = apostrophe ∨ c = quotationMark) ∧ c ≠ backslash := by
          refine ⟨?_, ?_⟩
          · rintro (rfl | rfl) <;> cases hblank
          · rintro rfl
            cases hblank
        rw [if_neg hplain.1, if_neg hplain.2]
        exact fits_emit s
      · split
        · exact ⟨rfl, nofun⟩
        · split
          · exact ⟨rfl, nofun⟩
          · exact ⟨Or.inr rfl, nofun⟩
  | inside mark =>
      rw [feed_inside h.state, Quoting.next]
      split
      · exact ⟨Or.inr rfl, nofun⟩
      · split
        · exact ⟨rfl, nofun⟩
        · exact ⟨rfl, nofun⟩
  | escaped mark =>
      cases mark with
      | none =>
          rw [feed_escaped h.state]
          exact ⟨Or.inr rfl, nofun⟩
      | some mark =>
          obtain ⟨more, hfeed⟩ := feed_escapedInside h.state c
          rw [hfeed]
          exact ⟨rfl, nofun⟩

theorem fits_foldl (text : List Char) :
    Fits (text.foldl feed Shlex.Lexer.start) (quoting text) := by
  induction text using List.reverseRecOn with
  | nil => exact fits_start
  | append_singleton text c ih =>
      rw [List.foldl_append, quoting, List.foldl_append]
      exact fits_feed ih c

/-! ## What happens to the characters of a word -/

/-- A word begins with `text`, or the word that is read does. -/
def Begun (s : Shlex.Lexer) (text : List Char) : Prop :=
  (∃ word ∈ s.tokens, text <+: word) ∨ (text <+: s.token ∧ s.state ≠ .blank)

theorem begun_emit {s : Shlex.Lexer} {text : List Char} (hne : text ≠ []) (h : Begun s text) :
    ∃ word ∈ s.emit.tokens, text <+: word := by
  rw [Shlex.Lexer.emit]
  rcases h with ⟨word, hword, hbegins⟩ | ⟨hbegins, -⟩
  · split
    · exact ⟨word, List.mem_append_left _ hword, hbegins⟩
    · exact ⟨word, hword, hbegins⟩
  · have htoken : s.token ≠ [] := by
      rintro hnil
      rw [hnil] at hbegins
      exact hne (List.prefix_nil.mp hbegins)
    rw [if_pos (Or.inl htoken)]
    exact ⟨s.token, List.mem_append_right _ (List.mem_singleton_self _), hbegins⟩

theorem Begun.grown {s s' : Shlex.Lexer} {text : List Char} (h : Begun s text)
    (htokens : s'.tokens = s.tokens) (htoken : s.token <+: s'.token) (hstate : s'.state ≠ .blank) :
    Begun s' text := by
  rcases h with ⟨word, hword, hbegins⟩ | ⟨hbegins, -⟩
  · exact Or.inl ⟨word, htokens ▸ hword, hbegins⟩
  · exact Or.inr ⟨hbegins.trans htoken, hstate⟩

theorem begun_feed {s : Shlex.Lexer} {q : Quoting} {text : List Char} (hfits : Fits s q)
    (hne : text ≠ []) (h : Begun s text) (c : Char) : Begun (feed s c) text := by
  cases q with
  | unquoted =>
      rw [feed_unquoted hfits]
      split
      · exact Or.inl (begun_emit hne h)
      · split
        · exact h.grown rfl (List.prefix_refl _) nofun
        · split
          · exact h.grown rfl (List.prefix_refl _) nofun
          · exact h.grown rfl (List.prefix_append _ _) nofun
  | inside mark =>
      rw [feed_inside hfits.state]
      split
      · exact h.grown rfl (List.prefix_refl _) nofun
      · split
        · exact h.grown rfl (List.prefix_refl _) nofun
        · exact h.grown rfl (List.prefix_append _ _) nofun
  | escaped mark =>
      cases mark with
      | none =>
          rw [feed_escaped hfits.state]
          exact h.grown rfl (List.prefix_append _ _) nofun
      | some mark =>
          obtain ⟨more, hfeed⟩ := feed_escapedInside hfits.state c
          rw [hfeed]
          exact h.grown rfl (List.prefix_append _ _) nofun

theorem begun_foldl {text : List Char} (hne : text ≠ []) (rest : List Char) :
    ∀ {s : Shlex.Lexer} {q : Quoting}, Fits s q → Begun s text →
      Begun (rest.foldl feed s) text := by
  induction rest with
  | nil => exact fun _ h => h
  | cons c rest ih => exact fun hfits h => ih (fits_feed hfits c) (begun_feed hfits hne h c)

/-- At the end of a line that lexes all words are taken. -/
theorem finish_words {s : Shlex.Lexer} {q : Quoting} {words : List Word} (hfits : Fits s q)
    (hfinish : s.finish = .ok words) : words = s.emit.tokens := by
  rw [Shlex.Lexer.finish] at hfinish
  cases q with
  | unquoted =>
      rcases hfits.state with hstate | hstate
      · rw [hstate] at hfinish
        rw [emit_of_blank (hfits.blank hstate) hstate]
        exact (Except.ok.inj hfinish).symm
      · rw [hstate] at hfinish
        exact (Except.ok.inj hfinish).symm
  | inside mark | escaped mark =>
      rw [hfits.state] at hfinish
      cases hfinish

theorem tokens_emit (s : Shlex.Lexer) : s.tokens <+: s.emit.tokens := by
  rw [Shlex.Lexer.emit]
  split
  · exact List.prefix_append _ _
  · exact List.prefix_refl _

theorem tokens_feed {s : Shlex.Lexer} {q : Quoting} (hfits : Fits s q) (c : Char) :
    s.tokens <+: (feed s c).tokens := by
  cases q with
  | unquoted =>
      rw [feed_unquoted hfits]
      split
      · exact tokens_emit s
      · split
        · exact List.prefix_refl _
        · split <;> exact List.prefix_refl _
  | inside mark =>
      rw [feed_inside hfits.state]
      split
      · exact List.prefix_refl _
      · split <;> exact List.prefix_refl _
  | escaped mark =>
      cases mark with
      | none =>
          rw [feed_escaped hfits.state]
      | some mark =>
          obtain ⟨more, hfeed⟩ := feed_escapedInside hfits.state c
          rw [hfeed]

theorem tokens_foldl (rest : List Char) : ∀ {s : Shlex.Lexer} {q : Quoting}, Fits s q →
    s.tokens <+: (rest.foldl feed s).tokens := by
  induction rest with
  | nil => exact fun _ => List.prefix_refl _
  | cons c rest ih => exact fun hfits => (tokens_feed hfits c).trans (ih (fits_feed hfits c))

/-! ## Unquoted operators in the words -/

theorem fits_word (s : Shlex.Lexer) (token : Word) :
    Fits { s with token := token, state := .word } .unquoted := ⟨Or.inr rfl, nofun⟩

theorem foldl_literal {text : List Char} (hne : text ≠ []) (hliteral : ∀ c ∈ text, Literal c) :
    ∀ {s : Shlex.Lexer}, Fits s .unquoted →
      text.foldl feed s = { s with token := s.token ++ text, state := .word } := by
  have hone : ∀ {s : Shlex.Lexer} {c : Char}, Fits s .unquoted → Literal c →
      feed s c = { s with token := s.token ++ [c], state := .word } := by
    intro s c hfits hc
    rw [feed_unquoted hfits, hc.blank, if_neg Bool.false_ne_true,
      if_neg (not_or.mpr hc.quote), if_neg hc.escape]
  induction text with
  | nil => exact (hne rfl).elim
  | cons c rest ih =>
      intro s hfits
      rw [List.foldl_cons, hone hfits (hliteral c (List.mem_cons_self ..))]
      cases rest with
      | nil => rfl
      | cons d rest =>
          rw [ih (List.cons_ne_nil _ _) (fun e he => hliteral e (List.mem_cons_of_mem _ he))
            (fits_word s _), List.append_assoc]
          rfl

def isLiteral (c : Char) : Bool :=
  !Shlex.Lexer.isWhitespace c && c != apostrophe && c != quotationMark && c != backslash

theorem literal_of_all {text : List Char} (h : text.all isLiteral = true) :
    ∀ c ∈ text, Literal c := by
  intro c hc
  have hliteral := List.all_eq_true.mp h c hc
  simp only [isLiteral, Bool.and_eq_true, Bool.not_eq_true', bne_iff_ne] at hliteral
  obtain ⟨⟨⟨hblank, hsingle⟩, hdouble⟩, hescape⟩ := hliteral
  exact ⟨hblank, ⟨hsingle, hdouble⟩, hescape⟩

theorem operator_literal {entry : Word × List Char} (h : entry ∈ unsupportedOperators) :
    entry.1 ≠ [] ∧ ∀ c ∈ entry.1, Literal c := by
  have hall : (unsupportedOperators.all fun entry =>
      !entry.1.isEmpty && entry.1.all isLiteral) = true := by decide
  have hentry := List.all_eq_true.mp hall entry h
  rw [Bool.and_eq_true, Bool.not_eq_true', List.isEmpty_eq_false_iff] at hentry
  exact ⟨hentry.1, literal_of_all hentry.2⟩

/-- A blank that is not escaped or quoted, or the beginning of the line. -/
def BlankBehind (before : List Char) : Prop :=
  before = [] ∨ ∃ front c, before = front ++ [c] ∧ Shlex.Lexer.isWhitespace c = true
    ∧ quoting front = .unquoted

def BlankAhead (after : List Char) : Prop :=
  after = [] ∨ ∃ c rest, after = c :: rest ∧ Shlex.Lexer.isWhitespace c = true

section Occurrence

variable {operator : Word} {line before after : List Char} {words : List Word}
  (hne : operator ≠ []) (hliteral : ∀ c ∈ operator, Literal c)
  (hat : UnquotedAt operator line before after) (hwords : split line = .ok words)
include hne hliteral hat hwords

/-- The lexer behind the operator, and what it makes of the rest. -/
theorem split_at_operator : ∃ s : Shlex.Lexer, Fits s .unquoted
    ∧ s = before.foldl feed Shlex.Lexer.start
    ∧ words = (after.foldl feed { s with token := s.token ++ operator, state := .word }).emit.tokens
    ∧ ∃ q, Fits (after.foldl feed { s with token := s.token ++ operator, state := .word }) q := by
  obtain ⟨hline, hquoting⟩ := hat
  have hfits : Fits (before.foldl feed Shlex.Lexer.start) .unquoted := hquoting ▸ fits_foldl before
  have hfold : line.foldl feed Shlex.Lexer.start
      = after.foldl feed { before.foldl feed Shlex.Lexer.start with
          token := (before.foldl feed Shlex.Lexer.start).token ++ operator, state := .word } := by
    rw [hline, List.foldl_append, List.foldl_append, foldl_literal hne hliteral hfits]
  have hend := fits_foldl line
  rw [hfold] at hend
  refine ⟨_, hfits, rfl, ?_, _, hend⟩
  rw [split, hfold] at hwords
  exact finish_words hend hwords

/-- An unquoted operator is in a word. -/
theorem word_of_unquoted : ∃ word ∈ words, operator <:+: word := by
  obtain ⟨s, hfits, -, rfl, -⟩ := split_at_operator hne hliteral hat hwords
  have hlong : s.token ++ operator ≠ [] := List.append_ne_nil_of_right_ne_nil _ hne
  obtain ⟨word, hword, hbegins⟩ := begun_emit hlong (begun_foldl hlong after (fits_word s _)
    (Or.inr ⟨List.prefix_refl _, nofun⟩))
  exact ⟨word, hword, (List.suffix_append _ _).isInfix.trans hbegins.isInfix⟩

/-- Before a blank it ends its word. -/
theorem word_of_blankAhead (hahead : BlankAhead after) : ∃ s : Shlex.Lexer, Fits s .unquoted
    ∧ s = before.foldl feed Shlex.Lexer.start ∧ s.token ++ operator ∈ words := by
  obtain ⟨s, hfits, hs, rfl, -⟩ := split_at_operator hne hliteral hat hwords
  refine ⟨s, hfits, hs, ?_⟩
  have htaken : ∀ s' : Shlex.Lexer, s'.token = s.token ++ operator →
      s.token ++ operator ∈ s'.emit.tokens := by
    intro s' htoken
    have hlong : s'.token ≠ [] := htoken ▸ List.append_ne_nil_of_right_ne_nil _ hne
    rw [Shlex.Lexer.emit, if_pos (Or.inl hlong), ← htoken]
    exact List.mem_append_right _ (List.mem_singleton_self _)
  rcases hahead with rfl | ⟨c, rest, rfl, hblank⟩
  · exact htaken _ rfl
  · rw [List.foldl_cons, feed_unquoted (fits_word s _), if_pos hblank]
    refine (tokens_emit _).mem ((tokens_foldl rest (fits_emit _)).mem (htaken _ rfl))

/-- Between blanks it is a word. -/
theorem operator_mem (hbehind : BlankBehind before) (hahead : BlankAhead after) :
    operator ∈ words := by
  obtain ⟨s, -, hs, hmem⟩ := word_of_blankAhead hne hliteral hat hwords hahead
  have htoken : s.token = [] := by
    rw [hs]
    rcases hbehind with rfl | ⟨front, c, rfl, hblank, hquoting⟩
    · rfl
    · have hfits : Fits (front.foldl feed Shlex.Lexer.start) .unquoted :=
        hquoting ▸ fits_foldl front
      rw [List.foldl_append, List.foldl_cons, List.foldl_nil, feed_unquoted hfits, if_pos hblank,
        Shlex.Lexer.emit]
      split
      · rfl
      · rename_i h
        exact not_not.mp (not_or.mp h).1
  rw [htoken, List.nil_append] at hmem
  exact hmem

end Occurrence

/-! ### Deciding it -/

/-- An unquoted operator in the text, where `q` is how it begins. -/
def hasUnquoted : Quoting → List Char → Bool
  | _, [] => false
  | q, c :: rest =>
    (q == .unquoted && unsupportedOperators.any fun entry => entry.1.isPrefixOf (c :: rest))
      || hasUnquoted (q.next c) rest

theorem hasUnquoted_iff (text : List Char) : ∀ {q : Quoting}, hasUnquoted q text = true ↔
    ∃ entry ∈ unsupportedOperators, ∃ before after, text = before ++ (entry.1 ++ after)
      ∧ before.foldl Quoting.next q = .unquoted := by
  induction text with
  | nil =>
      intro q
      refine ⟨nofun, ?_⟩
      rintro ⟨entry, hentry, before, after, htext, -⟩
      have hnil := (List.append_eq_nil_iff.mp (List.append_eq_nil_iff.mp htext.symm).2).1
      exact absurd hnil (operator_literal hentry).1
  | cons c rest ih =>
      intro q
      rw [hasUnquoted, Bool.or_eq_true, Bool.and_eq_true, beq_iff_eq, List.any_eq_true, ih]
      constructor
      · rintro (⟨hq, entry, hentry, hbegins⟩ | ⟨entry, hentry, before, after, hrest, hquoting⟩)
        · obtain ⟨after, hafter⟩ := List.isPrefixOf_iff_prefix.mp hbegins
          exact ⟨entry, hentry, [], after, hafter.symm, hq⟩
        · exact ⟨entry, hentry, c :: before, after, by rw [hrest]; rfl, hquoting⟩
      · rintro ⟨entry, hentry, before, after, htext, hquoting⟩
        cases before with
        | nil =>
            exact Or.inl ⟨hquoting, entry, hentry,
              List.isPrefixOf_iff_prefix.mpr ⟨after, htext.symm⟩⟩
        | cons d before =>
            obtain ⟨rfl, hrest⟩ := List.cons.inj htext
            exact Or.inr ⟨entry, hentry, before, after, hrest, hquoting⟩

theorem unquoted_iff (line : List Char) : Unquoted line ↔ hasUnquoted .unquoted line = true :=
  (hasUnquoted_iff line).symm

instance (line : List Char) : Decidable (Unquoted line) := decidable_of_iff' _ (unquoted_iff line)

/-! ## What the guard sees -/

/-- The word is the operator, contains the substitution, or ends with the
semicolon. -/
def Shows (operator word : Word) : Prop :=
  word = operator ∨ operator ∈ [['\x60'], "$(".toList] ∧ operator <:+: word
    ∨ operator = ";".toList ∧ operator <:+ word

def Shown (word : Word) : Prop := ∃ entry ∈ unsupportedOperators, Shows entry.1 word

theorem uses_iff {operator : Word} {words : List Word} :
    uses operator words = true ↔ ∃ word ∈ words, Shows operator word := by
  simp only [uses, Shows, Bool.or_eq_true, Bool.and_eq_true, decide_eq_true_eq, List.any_eq_true]
  constructor
  · rintro ((hmem | ⟨hsubstitution, word, hword, hin⟩) | ⟨hsemicolon, word, hword, hin⟩)
    · exact ⟨operator, hmem, Or.inl rfl⟩
    · exact ⟨word, hword, Or.inr (Or.inl ⟨hsubstitution, hin⟩)⟩
    · exact ⟨word, hword, Or.inr (Or.inr ⟨hsemicolon, hin⟩)⟩
  · rintro ⟨word, hword, rfl | ⟨hsubstitution, hin⟩ | ⟨hsemicolon, hin⟩⟩
    · exact Or.inl (Or.inl hword)
    · exact Or.inl (Or.inr ⟨hsubstitution, word, hword, hin⟩)
    · exact Or.inr ⟨hsemicolon, word, hword, hin⟩

/-- The result that names an operator. -/
def rejection (description : List Char) : Result :=
  ⟨[], noShellLanguage description ++ ("  For shell logic use Python instead, e.g. "
    ++ "subprocess.run(...) or run commands one per line.\n").toList, 2, false⟩

theorem unsupportedOperator_of_shown {words : List Word} (h : ∃ word ∈ words, Shown word) :
    ∃ entry ∈ unsupportedOperators, unsupportedOperator words = some (rejection entry.2) := by
  obtain ⟨word, hword, entry, hentry, hshows⟩ := h
  have hsome : (unsupportedOperators.find? fun entry => uses entry.1 words).isSome = true :=
    List.find?_isSome.mpr ⟨entry, hentry, uses_iff.mpr ⟨word, hword, hshows⟩⟩
  obtain ⟨found, hfound⟩ := Option.isSome_iff_exists.mp hsome
  exact ⟨found, List.mem_of_find?_eq_some hfound, by rw [unsupportedOperator, hfound]; rfl⟩

theorem unsupportedOperator_of_not {words : List Word} (h : ¬∃ word ∈ words, Shown word) :
    unsupportedOperator words = none := by
  have hnone : (unsupportedOperators.find? fun entry => uses entry.1 words) = none := by
    refine List.find?_eq_none.mpr fun entry hentry huses => h ?_
    obtain ⟨word, hword, hshows⟩ := uses_iff.mp huses
    exact ⟨word, hword, entry, hentry, hshows⟩
  rw [unsupportedOperator, hnone]
  rfl

/-! ## Rejection -/

section Reject

variable {W Path : Type}

/-- The line is rejected for an operator: whatever the host would do, the
result has code 2, and nothing has been run. -/
def Rejected (host : Host W Path) (line : List Char) (timeout : Option Word) (w : W) : Prop :=
  ∃ entry ∈ unsupportedOperators, ∀ host' : Host W Path,
    host'.findExecutable = host.findExecutable →
      execute host' line timeout w = (.ok (rejection entry.2), w)

/-- A host on which everything fails. -/
def Host.refusing (host : Host W Path) : Host W Path :=
  { host with
    builtin := fun _ _ => Op.raise .other
    execLinux := fun _ _ _ => Op.raise .other
    execZmuxCommand := fun _ _ => Op.raise .other
    execPythonCommand := fun _ => Op.raise .other
    execPython := fun _ _ => Op.raise .other
    openInput := fun _ => Op.raise .other
    spawn := fun _ _ => Op.raise .other
    collect := fun _ => Op.raise .other }

/-- Results that are no rejections. -/
def Other (op : Op W Result) : Prop :=
  ∀ w r w', op w = (.ok r, w') → r.exitCode ≠ 2 ∨ r.stderr.head? ≠ some 'z'

theorem not_other_rejection {op : Op W Result} {w w' : W} (h : Other op)
    (description : List Char) : op w ≠ (.ok (rejection description), w') := by
  intro hop
  rcases h w _ w' hop with hcode | hhead
  · exact hcode rfl
  · exact hhead rfl

theorem other_pure {r : Result} (h : r.exitCode ≠ 2 ∨ r.stderr.head? ≠ some 'z') :
    Other (pure r : Op W Result) := by
  intro w r' w' hr
  obtain rfl := Except.ok.inj (Prod.mk.inj hr).1
  exact h

theorem other_raise (e : Exn) : Other (Op.raise e : Op W Result) := fun _ _ _ h => by cases h

theorem other_bind {α : Type} {op : Op W α} {f : α → Op W Result} (h : ∀ a, Other (f a)) :
    Other (op >>= f) := by
  intro w r w' hr
  obtain ⟨a, w₁, -, hf⟩ := bind_ok.mp hr
  exact h a w₁ r w' hf

theorem other_tryCatch {op : Op W Result} {handle : Exn → Op W Result} (h : Other op)
    (hhandle : ∀ e, Other (handle e)) : Other (op.tryCatch handle) := by
  intro w r w' hr
  rw [Op.tryCatch] at hr
  cases hop : op w with
  | mk result w₁ =>
      rw [hop] at hr
      cases result with
      | ok a =>
          obtain ⟨hresult, rfl⟩ := Prod.mk.inj hr
          obtain rfl := Except.ok.inj hresult
          exact h w a w₁ hop
      | error e => exact hhandle e w₁ r w' hr

theorem other_showError (command : Word) (e : Exn) : Other (showError command e : Op W Result) := by
  rw [showError]
  split
  · exact other_pure (Or.inl fun h => by cases h)
  · exact other_raise e

theorem head_parseError (e : ParseError) : e.text.head? ≠ some 'z' := by
  cases e with
  | lexer error => cases error <;> decide
  | missingTarget token => exact nofun
  | invalidPipeline | notAtEdge | invalidCommand => decide

theorem other_raise_bind {α : Type} {e : Exn} {f : α → Op W Result} :
    Other ((Op.raise e : Op W α) >>= f) := fun _ _ _ h => by cases h

variable (host : Host W Path)

theorem other_runPipeline (parsed : Parsed Path) (timeout : Option Word) :
    Other (runPipeline host.refusing parsed timeout) := by
  refine other_bind fun _ => other_bind fun missing => ?_
  cases missing with
  | some name => exact other_pure (Or.inl fun h => by cases h)
  | none => exact other_raise_bind

theorem other_execSubprocess (line : List Char) (timeout : Option Word) :
    Other (execSubprocess host.refusing line timeout) := by
  intro w r w' hr
  rw [execSubprocess] at hr
  split at hr
  · cases hr
  · rename_i e _
    obtain rfl := Except.ok.inj (Prod.mk.inj hr).1
    exact Or.inr (head_parseError e)
  · rename_i parsed _
    have hrun : Other ((runPipeline host.refusing parsed timeout).tryCatch
        (timedOut host.refusing timeout)) := by
      refine other_tryCatch (other_runPipeline host parsed timeout) fun e => ?_
      cases e with
      | timeoutExpired =>
          intro w r w' hr
          obtain rfl := Except.ok.inj (Prod.mk.inj hr).1
          exact Or.inl fun h => by cases h
      | osError | valueError | other => exact other_raise _
    rw [Op.andFinally] at hr
    exact hrun w r _ (Prod.ext (Prod.mk.inj hr).1 rfl)

theorem other_dispatch {command : Word} {args : List Word} {line : List Char}
    {timeout : Option Word} {otherwise : Op W Result} (h : Other otherwise) :
    Other (dispatch host.refusing command args line timeout otherwise) := by
  rw [dispatch]
  split_ifs
  · exact other_raise_bind
  · exact other_raise _
  · exact other_raise _
  · exact other_raise _
  · exact other_raise _
  · refine other_bind fun external => ?_
    split
    · exact other_execSubprocess host line timeout
    · exact h

theorem other_otherwise (command : Word) (line : List Char) :
    Other (otherwiseExecute host.refusing command line) := by
  rw [otherwiseExecute]
  split
  · exact other_pure (Or.inl fun h => by cases h)
  · refine other_bind fun strict => ?_
    split
    · exact other_pure (Or.inl fun h => by cases h)
    · exact other_raise _

/-! ## Right and wrong -/

variable {host : Host W Path} {line : List Char} {command : Word} {args : List Word}
  {timeout : Option Word} {w : W} (hwords : split (strip line) = .ok (command :: args))
  (hcommand : command ∈ commandNames ∨ isExternalCommand host command w = true)
include hwords hcommand

/-- The guard goes by what the words show. -/
theorem rejected_iff_shown :
    Rejected host line timeout w ↔ ∃ word ∈ command :: args, Shown word := by
  have hexecute : ∀ host' : Host W Path, host'.findExecutable = host.findExecutable →
      command ∈ commandNames ∨ isExternalCommand host' command w = true := by
    intro host' hfind
    rw [isExternalCommand, hfind]
    exact hcommand
  constructor
  · rintro ⟨entry, -, hrejected⟩
    by_contra hshown
    have hother := hrejected host.refusing rfl
    rw [execute_eq hwords (hexecute host.refusing rfl), unsupportedOperator_of_not hshown]
      at hother
    refine not_other_rejection (other_tryCatch ?_ (other_showError command)) entry.2 hother
    split
    · exact other_execSubprocess host _ timeout
    · exact other_dispatch host (other_otherwise host command _)
  · intro hshown
    obtain ⟨entry, hentry, hrejection⟩ := unsupportedOperator_of_shown hshown
    refine ⟨entry, hentry, fun host' hfind => ?_⟩
    rw [execute_eq hwords (hexecute host' hfind), hrejection]
    rfl

omit hwords hcommand

/-- A word of the line shows an operator. -/
def SomeShown (line : List Char) : Prop :=
  ∃ words, split (strip line) = .ok words ∧ ∃ word ∈ words, Shown word

/-- An operator that the guard cannot miss: a substitution, a semicolon
before a blank, or any operator between blanks. -/
def Apart (operator before after : List Char) : Prop :=
  operator ∈ [['\x60'], "$(".toList]
    ∨ (operator = ";".toList ∨ BlankBehind before) ∧ BlankAhead after

/-- All unquoted operators of the line stick to other characters. -/
def OnlyGlued (line : List Char) : Prop :=
  ∀ entry ∈ unsupportedOperators, ∀ before after,
    UnquotedAt entry.1 (strip line) before after → ¬Apart entry.1 before after

theorem someShown_of_apart {words : List Word} {entry : Word × List Char}
    {before after : List Char} (hsplit : split (strip line) = .ok words)
    (hentry : entry ∈ unsupportedOperators) (hat : UnquotedAt entry.1 (strip line) before after)
    (hapart : Apart entry.1 before after) : SomeShown line := by
  obtain ⟨hne, hliteral⟩ := operator_literal hentry
  rcases hapart with hsubstitution | ⟨hsemicolon | hbehind, hahead⟩
  · obtain ⟨word, hword, hin⟩ := word_of_unquoted hne hliteral hat hsplit
    exact ⟨words, hsplit, word, hword, entry, hentry, Or.inr (Or.inl ⟨hsubstitution, hin⟩)⟩
  · obtain ⟨s, -, -, hword⟩ := word_of_blankAhead hne hliteral hat hsplit hahead
    exact ⟨words, hsplit, _, hword, entry, hentry,
      Or.inr (Or.inr ⟨hsemicolon, List.suffix_append _ _⟩)⟩
  · have hword := operator_mem hne hliteral hat hsplit hbehind hahead
    exact ⟨words, hsplit, _, hword, entry, hentry, Or.inl rfl⟩

/-- **The guard** rejects the lines with an unquoted operator, and no
others, except for two kinds: lines whose unquoted operators are all glued
and none is shown, and lines without unquoted operators that show one. -/
theorem rejected_iff (h : IsCommand host line w) :
    (Rejected host line timeout w ↔ Unquoted line)
      ↔ (Unquoted line → OnlyGlued line → SomeShown line) ∧ (SomeShown line → Unquoted line) := by
  obtain ⟨command, args, hwords, hcommand⟩ := h
  have hrejected : Rejected host line timeout w ↔ SomeShown line := by
    rw [rejected_iff_shown hwords hcommand]
    constructor
    · exact fun hshown => ⟨_, hwords, hshown⟩
    · rintro ⟨words, hsplit, hshown⟩
      obtain rfl := Except.ok.inj (hwords.symm.trans hsplit)
      exact hshown
  rw [hrejected]
  constructor
  · exact fun h => ⟨fun hunquoted _ => h.mpr hunquoted, h.mp⟩
  · rintro ⟨hglued, hquoted⟩
    refine ⟨hquoted, fun hunquoted => ?_⟩
    by_contra hnot
    refine hnot (hglued hunquoted fun entry hentry before after hat hapart => hnot ?_)
    exact someShown_of_apart hwords hentry hat hapart

end Reject

/-! ## Two lines of the two kinds -/

theorem echo_isCommand {line : List Char} {args : List Word}
    (h : split (strip line) = .ok ("echo".toList :: args)) : IsCommand sampleHost line [] :=
  ⟨_, _, h, Or.inl (by decide +kernel)⟩

/-- `echo a&&pwd` is run as one command, and the quoted text of
`echo "a;"` is rejected. -/
theorem glued_missed_quoted_rejected :
    (IsCommand sampleHost "echo a&&pwd".toList [] ∧ Unquoted "echo a&&pwd".toList
      ∧ ¬Rejected sampleHost "echo a&&pwd".toList none [])
    ∧ IsCommand sampleHost "echo \x22a;\x22".toList []
      ∧ ¬Unquoted "echo \x22a;\x22".toList
      ∧ Rejected sampleHost "echo \x22a;\x22".toList none [] := by
  have hglued : split (strip "echo a&&pwd".toList) = .ok ["echo".toList, "a&&pwd".toList] := by
    decide +kernel
  have hquoted : split (strip "echo \x22a;\x22".toList) = .ok ["echo".toList, "a;".toList] := by
    decide +kernel
  refine ⟨⟨echo_isCommand hglued, by decide +kernel, ?_⟩, echo_isCommand hquoted,
    by decide, ?_⟩
  · rw [rejected_iff_shown hglued (Or.inl (by decide +kernel))]
    rintro ⟨word, hword, entry, hentry, hshows⟩
    have huses := uses_iff.mpr ⟨word, hword, hshows⟩
    have hnone : (unsupportedOperators.all fun entry =>
        !uses entry.1 ["echo".toList, "a&&pwd".toList]) = true := by decide +kernel
    have hentry := List.all_eq_true.mp hnone entry hentry
    rw [huses] at hentry
    cases hentry
  · rw [rejected_iff_shown hquoted (Or.inl (by decide +kernel))]
    exact ⟨"a;".toList, by simp, (";".toList, "';' (command sequencing)".toList),
      by decide +kernel, Or.inr (Or.inr ⟨rfl, ['a'], rfl⟩)⟩

/-- An operator between blanks. -/
theorem rejected_spaced : Rejected sampleHost "echo a && pwd".toList none []
    ↔ Unquoted "echo a && pwd".toList := by
  have hsplit : split (strip "echo a && pwd".toList)
      = .ok ["echo".toList, "a".toList, "&&".toList, "pwd".toList] := by decide
  refine (rejected_iff (echo_isCommand hsplit)).mpr ⟨fun _ _ => ?_, fun _ => by decide +kernel⟩
  exact ⟨_, hsplit, "&&".toList, by simp, ("&&".toList, "'&&' (conditional AND)".toList),
    by decide +kernel, Or.inl rfl⟩

end CommandMode

end Zmux
