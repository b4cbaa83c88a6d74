import Mathlib.Data.List.Basic

/-!
# Shell words

`shlex.quote`, `shlex.join` and the lexer of Python's `shlex` module with
`posix=True`, a set of punctuation characters and `whitespace_split=True`,
as its documentation and source describe them. The lexer reads character
by character, so it is a fold; it can fail only at the end of the text, in
the middle of a quotation or an escape.

`lex_join` is the law of the pair: what `join` writes is read back word by
word, for any punctuation without the characters that `quote` leaves
alone. The words come back without their quotes. Whether a word was quoted
is lost.
-/

namespace Zmux

namespace Shlex

abbrev Word := List Char

def apostrophe : Char := '\x27'
def quotationMark : Char := '\x22'
def backslash : Char := '\x5c'

/-! ## Quoting -/

/-- The characters that need no quoting. -/
def isSafe (c : Char) : Bool :=
  ('A' ≤ c && c ≤ 'Z') || ('a' ≤ c && c ≤ 'z') || ('0' ≤ c && c ≤ '9')
    || c ∈ ['_', '@', '%', '+', '=', ':', ',', '.', '/', '-']

/-- An apostrophe is closed over, put in quotation marks and opened again. -/
def quoteChar (c : Char) : Word :=
  if c = apostrophe then [apostrophe, quotationMark, apostrophe, quotationMark, apostrophe] else [c]

/-- `shlex.quote`. -/
def quote (word : Word) : Word :=
  if word = [] then [apostrophe, apostrophe]
  else if word.all isSafe then word
  else apostrophe :: word.flatMap quoteChar ++ [apostrophe]

/-- `shlex.join`. -/
def join (words : List Word) : Word := [' '].intercalate (words.map quote)

/-! ## The lexer -/

/-- The texts of the `ValueError`s. -/
inductive LexError where
  | noClosingQuotation
  | noEscapedCharacter
deriving DecidableEq

def LexError.text : LexError → String
  | .noClosingQuotation => "No closing quotation"
  | .noEscapedCharacter => "No escaped character"

inductive State where
  | blank
  | word
  | punctuation
  | quoted (mark : Char)
  /-- After a backslash, in a word or in a quotation. -/
  | escaped (inside : Option Char)
  | comment
deriving DecidableEq

structure Lexer where
  tokens : List Word
  token : Word
  /-- The token has a quoted part, so it counts even if it is empty. -/
  quoted : Bool
  state : State
deriving DecidableEq

namespace Lexer

def start : Lexer where
  tokens := []
  token := []
  quoted := false
  state := .blank

/-- The end of a token, if there is one. -/
def emit (s : Lexer) : Lexer :=
  if s.token ≠ [] ∨ s.quoted = true then
    { tokens := s.tokens ++ [s.token], token := [], quoted := false, state := .blank }
  else { s with state := .blank }

def isWhitespace (c : Char) : Bool := c ∈ [' ', '\t', '\r', '\n']

def isQuote (c : Char) : Bool := c = apostrophe || c = quotationMark

/-- A character between two tokens. -/
def outside (punctuation : List Char) (s : Lexer) (c : Char) : Lexer :=
  if isWhitespace c then s
  else if c = '#' then { s with state := .comment }
  else if c = backslash then { s with state := .escaped none }
  else if c ∈ punctuation then { s with token := [c], state := .punctuation }
  else if isQuote c then { s with state := .quoted c }
  else { s with token := [c], state := .word }

/-- One turn of the loop in `read_token`. -/
def feed (punctuation : List Char) (s : Lexer) (c : Char) : Lexer :=
  match s.state with
  | .blank => outside punctuation s c
  | .word =>
    if isWhitespace c then s.emit
    else if c = '#' then { s.emit with state := .comment }
    else if isQuote c then { s with state := .quoted c }
    else if c = backslash then { s with state := .escaped none }
    else if c ∉ punctuation then { s with token := s.token ++ [c] }
    else outside punctuation s.emit c
  | .punctuation =>
    if isWhitespace c then s.emit
    else if c = '#' then { s.emit with state := .comment }
    else if c ∈ punctuation then { s with token := s.token ++ [c] }
    else outside punctuation s.emit c
  | .quoted mark =>
    if c = mark then { s with quoted := true, state := .word }
    else if c = backslash ∧ mark = quotationMark then
      { s with quoted := true, state := .escaped (some mark) }
    else { s with quoted := true, token := s.token ++ [c] }
  | .escaped none => { s with token := s.token ++ [c], state := .word }
  | .escaped (some mark) =>
    -- in a quotation the backslash stays, unless it escapes the mark or itself
    let kept := if c ≠ backslash ∧ c ≠ mark then [backslash] else []
    { s with token := s.token ++ kept ++ [c], state := .quoted mark }
  | .comment => if c = '\n' then { s with state := .blank } else s

def feedAll (punctuation : List Char) (s : Lexer) (text : List Char) : Lexer :=
  text.foldl (feed punctuation) s

/-- At the end of the text. -/
def finish (s : Lexer) : Except LexError (List Word) :=
  match s.state with
  | .blank | .comment => .ok s.tokens
  | .word | .punctuation => .ok s.emit.tokens
  | .quoted _ => .error .noClosingQuotation
  | .escaped _ => .error .noEscapedCharacter

end Lexer

/-- `list(lexer)`. -/
def lex (punctuation text : List Char) : Except LexError (List Word) :=
  (Lexer.start.feedAll punctuation text).finish

/-! ## What is quoted is read back -/

namespace Lexer

variable {punctuation : List Char}

/-- Between two tokens. -/
def between (tokens : List Word) : Lexer where
  tokens := tokens
  token := []
  quoted := false
  state := .blank

/-- At the end of a word, which counts even if it is empty. -/
structure Ready (s : Lexer) (tokens : List Word) (word : Word) : Prop where
  tokens : s.tokens = tokens
  token : s.token = word
  state : s.state = .word
  counts : word ≠ [] ∨ s.quoted = true

theorem feedAll_append (s : Lexer) (a b : List Char) :
    s.feedAll punctuation (a ++ b) = (s.feedAll punctuation a).feedAll punctuation b :=
  List.foldl_append

theorem Ready.emit {s : Lexer} {tokens : List Word} {word : Word} (h : s.Ready tokens word) :
    s.emit = between (tokens ++ [word]) := by
  rw [Lexer.emit, if_pos (by rw [h.token]; exact h.counts), h.tokens, h.token]
  rfl

theorem feed_space {s : Lexer} {tokens : List Word} {word : Word} (h : s.Ready tokens word) :
    s.feed punctuation ' ' = between (tokens ++ [word]) := by
  unfold feed
  rw [h.state]
  exact h.emit

/-- What the lexer does not treat in a special way, inside or outside words. -/
structure Plain (punctuation : List Char) (c : Char) : Prop where
  whitespace : isWhitespace c = false
  comment : c ≠ '#'
  escape : c ≠ backslash
  quote : isQuote c = false
  punctuation : c ∉ punctuation

theorem Ready.plain {s : Lexer} {tokens : List Word} {word : Word} (h : s.Ready tokens word)
    {c : Char} (hc : Plain punctuation c) :
    (s.feed punctuation c).Ready tokens (word ++ [c]) := by
  have hfeed : s.feed punctuation c = { s with token := s.token ++ [c] } := by
    unfold feed
    simp [h.state, hc.whitespace, hc.comment, hc.escape, hc.quote, hc.punctuation]
  rw [hfeed]
  exact ⟨h.tokens, by rw [h.token], h.state, Or.inl (by simp)⟩

theorem Ready.plainAll {tokens : List Word} {rest : List Char} :
    ∀ {s : Lexer} {word : Word}, s.Ready tokens word → (∀ c ∈ rest, Plain punctuation c) →
      (s.feedAll punctuation rest).Ready tokens (word ++ rest) := by
  induction rest with
  | nil =>
      intro s word h _
      rw [List.append_nil]
      exact h
  | cons c rest ih =>
      intro s word h hplain
      have hnext := ih (h.plain (hplain c (List.mem_cons_self ..)))
        fun d hd => hplain d (List.mem_cons_of_mem _ hd)
      rw [List.append_assoc] at hnext
      exact hnext

theorem plain_word {tokens : List Word} {word : Word} (hne : word ≠ [])
    (hplain : ∀ c ∈ word, Plain punctuation c) :
    ((between tokens).feedAll punctuation word).Ready tokens word := by
  cases word with
  | nil => exact absurd rfl hne
  | cons c rest =>
      have hc := hplain c (List.mem_cons_self ..)
      have hfirst : (between tokens).feed punctuation c
          = { between tokens with token := [c], state := .word } := by
        simp [feed, outside, between, hc.whitespace, hc.comment, hc.escape, hc.quote,
          hc.punctuation]
      have hready : ((between tokens).feed punctuation c).Ready tokens [c] := by
        rw [hfirst]
        exact ⟨rfl, rfl, rfl, Or.inl (by simp)⟩
      exact hready.plainAll fun d hd => hplain d (List.mem_cons_of_mem _ hd)

/-- Between apostrophes. -/
def inside (tokens : List Word) (word : Word) (quoted : Bool) : Lexer where
  tokens := tokens
  token := word
  quoted := quoted
  state := .quoted apostrophe

theorem feedAll_quoteChar (tokens : List Word) (word : Word) (quoted : Bool) (c : Char) :
    (inside tokens word quoted).feedAll punctuation (quoteChar c)
      = inside tokens (word ++ [c]) true := by
  unfold quoteChar
  split
  · rename_i hc
    subst hc
    simp [feedAll, feed, inside, isWhitespace, isQuote, apostrophe, quotationMark, backslash]
  · rename_i hc
    have hmark : apostrophe ≠ quotationMark := by decide
    simp [feedAll, feed, inside, hc, hmark]

theorem feedAll_quoted (tokens : List Word) (rest : List Char) : ∀ (word : Word) (quoted : Bool),
    ∃ quoted', (inside tokens word quoted).feedAll punctuation (rest.flatMap quoteChar)
      = inside tokens (word ++ rest) quoted' := by
  induction rest with
  | nil =>
      intro word quoted
      rw [List.append_nil]
      exact ⟨quoted, rfl⟩
  | cons c rest ih =>
      intro word quoted
      obtain ⟨quoted', hrest⟩ := ih (word ++ [c]) true
      refine ⟨quoted', ?_⟩
      rw [List.flatMap_cons, feedAll_append, feedAll_quoteChar, hrest, List.append_assoc]
      rfl

theorem quoted_word (hmark : apostrophe ∉ punctuation) (tokens : List Word) (word : Word) :
    ((between tokens).feedAll punctuation
      (apostrophe :: word.flatMap quoteChar ++ [apostrophe])).Ready tokens word := by
  obtain ⟨quoted, hword⟩ := feedAll_quoted tokens word [] false
  have hopen : (between tokens).feed punctuation apostrophe = inside tokens [] false := by
    have hspecial : isWhitespace apostrophe = false ∧ apostrophe ≠ '#' ∧ apostrophe ≠ backslash
        ∧ isQuote apostrophe = true := by decide
    simp [feed, outside, between, inside, hspecial, hmark]
  rw [feedAll_append]
  show (((between tokens).feed punctuation apostrophe).feedAll punctuation
    (word.flatMap quoteChar)).feed punctuation apostrophe |>.Ready tokens word
  rw [hopen, hword, List.nil_append]
  refine ⟨?_, ?_, ?_, Or.inr ?_⟩ <;> simp [feed, inside]

end Lexer

/-- The punctuation has none of the characters that quoted words have
outside of their quotes. -/
structure Separate (punctuation : List Char) : Prop where
  apostrophe : apostrophe ∉ punctuation
  safe : ∀ c ∈ punctuation, isSafe c = false

variable {punctuation : List Char}

theorem plain_of_safe (h : Separate punctuation) {c : Char} (hc : isSafe c = true) :
    Lexer.Plain punctuation c where
  whitespace := by
    refine Bool.eq_false_iff.mpr fun hw => ?_
    simp only [Lexer.isWhitespace, List.mem_cons, List.not_mem_nil, or_false,
      decide_eq_true_eq] at hw
    rcases hw with rfl | rfl | rfl | rfl <;> exact absurd hc (by decide)
  comment := by
    rintro rfl
    exact absurd hc (by decide)
  escape := by
    rintro rfl
    exact absurd hc (by decide)
  quote := by
    refine Bool.eq_false_iff.mpr fun hq => ?_
    simp only [Lexer.isQuote, Bool.or_eq_true, decide_eq_true_eq] at hq
    rcases hq with rfl | rfl <;> exact absurd hc (by decide)
  punctuation hmem := absurd hc (by rw [h.safe c hmem]; decide)

theorem quote_ready (h : Separate punctuation) (tokens : List Word) (word : Word) :
    ((Lexer.between tokens).feedAll punctuation (quote word)).Ready tokens word := by
  unfold quote
  split
  · rename_i hempty
    subst hempty
    exact Lexer.quoted_word h.apostrophe tokens []
  · rename_i hne
    split
    · rename_i hsafe
      exact Lexer.plain_word hne fun c hc => plain_of_safe h (List.all_eq_true.mp hsafe c hc)
    · exact Lexer.quoted_word h.apostrophe tokens word

theorem join_cons_cons (word next : Word) (words : List Word) :
    join (word :: next :: words) = quote word ++ ' ' :: join (next :: words) := by
  simp [join, List.intercalate]

/-- The words after a blank are read one by one. -/
theorem join_ready (h : Separate punctuation) (word : Word) (words : List Word) :
    ∀ tokens, ∃ front last, word :: words = front ++ [last] ∧
      ((Lexer.between tokens).feedAll punctuation (join (word :: words))).Ready
        (tokens ++ front) last := by
  induction words generalizing word with
  | nil =>
      intro tokens
      have hword := quote_ready h tokens word
      refine ⟨[], word, rfl, ?_⟩
      rw [List.append_nil]
      simpa [join] using hword
  | cons next words ih =>
      intro tokens
      obtain ⟨front, last, hsplit, hready⟩ := ih next (tokens ++ [word])
      refine ⟨word :: front, last, by rw [hsplit]; rfl, ?_⟩
      rw [join_cons_cons, Lexer.feedAll_append]
      show ((((Lexer.between tokens).feedAll punctuation (quote word)).feed punctuation
        ' ').feedAll punctuation (join (next :: words))).Ready _ last
      rw [Lexer.feed_space (quote_ready h tokens word)]
      simpa using hready

/-- **Quoted words are read back** as they were. -/
theorem lex_join (h : Separate punctuation) : ∀ words, lex punctuation (join words) = .ok words
  | [] => rfl
  | word :: words => by
      obtain ⟨front, last, hsplit, hready⟩ := join_ready h word words []
      rw [lex]
      show (Lexer.feedAll punctuation (Lexer.between []) _).finish = _
      rw [Lexer.finish, hready.state]
      dsimp only
      rw [hready.emit, hsplit]
      rfl

end Shlex

end Zmux
