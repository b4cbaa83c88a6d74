import Mathlib.Data.Int.Order.Basic

/-!
# Reading JSON

`json.loads` of CPython: strict strings, numbers as `_match_number` cuts
them, and the constants `NaN`, `Infinity` and `-Infinity`. The scanner
goes by fuel, of which `parse` gives it enough for every text
(`Json.parse_iff`). A float stays the text of its literal.

What the interpreter sets a limit to, the nesting and the digits of an
integer, is looked at afterwards: to exceed a limit is an exception like
any other.

Strings are lists of code points. An escape may give half of a surrogate
pair, which is no `Char`.
-/

namespace Zmux

abbrev Codes := List ℕ

def codes (text : String) : Codes := text.toList.map Char.toNat

/-- The fields of an object are kept as they stand in the text. -/
inductive Json where
  | null
  | bool (b : Bool)
  | int (n : ℤ)
  | float (literal : List Char)
  | string (text : Codes)
  | array (items : List Json)
  | object (fields : List (Codes × Json))

namespace Json

/-- `data.get(key)` of the dict with these fields: the last one wins. -/
def get? (fields : List (Codes × Json)) (key : Codes) : Option Json :=
  (fields.reverse.find? fun field => field.1 = key).map Prod.snd

/-! ## Reading -/

def isBlank (c : Char) : Bool := c ∈ [' ', '\t', '\n', '\r']

def skip (s : List Char) : List Char := s.dropWhile isBlank

def hexDigit? (c : Char) : Option ℕ :=
  if c.isDigit then some (c.toNat - '0'.toNat)
  else if 'a' ≤ c ∧ c ≤ 'f' then some (c.toNat - 'a'.toNat + 10)
  else if 'A' ≤ c ∧ c ≤ 'F' then some (c.toNat - 'A'.toNat + 10)
  else none

/-- The code unit of `\uXXXX`. -/
def hex4? (a b c d : Char) : Option ℕ := do
  let a ← hexDigit? a
  let b ← hexDigit? b
  let c ← hexDigit? c
  let d ← hexDigit? d
  return ((a * 16 + b) * 16 + c) * 16 + d

/-- The escapes of one character. -/
def unescape? (c : Char) : Option ℕ :=
  if c ∈ ['\x22', '\x5c', '/'] then some c.toNat
  else if c = 'b' then some 8
  else if c = 'f' then some 12
  else if c = 'n' then some 10
  else if c = 'r' then some 13
  else if c = 't' then some 9
  else none

/-- What a scanner read, as something else. -/
def mapRead {α β : Type} (f : α → β) (read : Option (α × List Char)) : Option (β × List Char) :=
  read.map (Prod.map f id)

/-- The text after an opening quote, before surrogates are joined. -/
def scanString : List Char → Option (Codes × List Char)
  | [] => none
  | c :: rest =>
    if c = '\x22' then some ([], rest)
    else if c = '\x5c' then
      match rest with
      | [] => none
      | e :: rest =>
        if e = 'u' then
          match rest with
          | a :: b :: c :: d :: rest =>
            match hex4? a b c d with
            | none => none
            | some n => mapRead (n :: ·) (scanString rest)
          | _ => none
        else
          match unescape? e with
          | none => none
          | some n => mapRead (n :: ·) (scanString rest)
    else if c.toNat ≤ 0x1f then none
    else mapRead (c.toNat :: ·) (scanString rest)

def isHigh (n : ℕ) : Bool := 0xd800 ≤ n && n ≤ 0xdbff

def isLow (n : ℕ) : Bool := 0xdc00 ≤ n && n ≤ 0xdfff

def joinSurrogates : Codes → Codes
  | high :: low :: rest =>
    if isHigh high && isLow low then
      (0x10000 + (high - 0xd800) * 0x400 + (low - 0xdc00)) :: joinSurrogates rest
    else high :: joinSurrogates (low :: rest)
  | rest => rest

/-- A zero, or all digits up to the next character. -/
def scanInt : List Char → Option (List Char × List Char)
  | [] => none
  | c :: rest =>
    if c = '0' then some (['0'], rest)
    else if c.isDigit then
      some (c :: rest.takeWhile Char.isDigit, rest.dropWhile Char.isDigit)
    else none

def scanFraction : List Char → List Char × List Char
  | c :: d :: rest =>
    if c = '.' ∧ d.isDigit then
      (c :: d :: rest.takeWhile Char.isDigit, rest.dropWhile Char.isDigit)
    else ([], c :: d :: rest)
  | rest => ([], rest)

/-- One of these characters, if it comes next. -/
def scanMark (marks : List Char) : List Char → List Char × List Char
  | c :: rest => if c ∈ marks then ([c], rest) else ([], c :: rest)
  | [] => ([], [])

def scanExponent : List Char → List Char × List Char
  | c :: rest =>
    if c = 'e' ∨ c = 'E' then
      let (sign, digits) := scanMark ['+', '-'] rest
      if digits.takeWhile Char.isDigit = [] then ([], c :: rest)
      else (c :: sign ++ digits.takeWhile Char.isDigit, digits.dropWhile Char.isDigit)
    else ([], c :: rest)
  | [] => ([], [])

/-- `_match_number`. -/
def matchNumber (s : List Char) : Option (Json × List Char) :=
  let (minus, s) := scanMark ['-'] s
  match scanInt s with
  | none => none
  | some (digits, s) =>
    let (fraction, s) := scanFraction s
    let (exponent, s) := scanExponent s
    if fraction ++ exponent = [] then
      let n : ℤ := Nat.ofDigitChars 10 digits 0
      some (.int (if minus = [] then n else -n), s)
    else some (.float (minus ++ digits ++ fraction ++ exponent), s)

def constants : List (List Char × Json) :=
  [("null".toList, .null), ("true".toList, .bool true), ("false".toList, .bool false),
    ("NaN".toList, .float "NaN".toList), ("Infinity".toList, .float "Infinity".toList),
    ("-Infinity".toList, .float "-Infinity".toList)]

def scanConstant (s : List Char) : Option (Json × List Char) :=
  constants.findSome? fun (word, value) =>
    if word.isPrefixOf s then some (value, s.drop word.length) else none

mutual

/-- `scan_once`. -/
def scanOnce : ℕ → List Char → Option (Json × List Char)
  | 0, _ => none
  | _ + 1, [] => none
  | fuel + 1, c :: rest =>
    if c = '\x22' then
      mapRead (fun text => .string (joinSurrogates text)) (scanString rest)
    else if c = '\x7b' then
      match skip rest with
      | [] => none
      | d :: more =>
        if d = '\x7d' then some (.object [], more)
        else mapRead .object (scanPairs fuel (d :: more))
    else if c = '[' then
      match skip rest with
      | [] => none
      | d :: more =>
        if d = ']' then some (.array [], more)
        else mapRead .array (scanItems fuel (d :: more))
    else (scanConstant (c :: rest)).or (matchNumber (c :: rest))

/-- The loop of `_parse_object`, at the quote of a key. -/
def scanPairs : ℕ → List Char → Option (List (Codes × Json) × List Char)
  | 0, _ => none
  | _ + 1, [] => none
  | fuel + 1, c :: rest =>
    if c ≠ '\x22' then none
    else
      match scanString rest with
      | none => none
      | some (key, rest) =>
        match skip rest with
        | [] => none
        | d :: rest =>
          if d ≠ ':' then none
          else
            match scanOnce fuel (skip rest) with
            | none => none
            | some (value, rest) =>
              match skip rest with
              | [] => none
              | d :: rest =>
                if d = '\x7d' then some ([(joinSurrogates key, value)], rest)
                else if d = ',' then
                  mapRead ((joinSurrogates key, value) :: ·) (scanPairs fuel (skip rest))
                else none

/-- The loop of `_parse_array`, at an item. -/
def scanItems : ℕ → List Char → Option (List Json × List Char)
  | 0, _ => none
  | fuel + 1, s =>
    match scanOnce fuel s with
    | none => none
    | some (value, rest) =>
      match skip rest with
      | [] => none
      | d :: rest =>
        if d = ']' then some ([value], rest)
        else if d = ',' then
          mapRead (value :: ·) (scanItems fuel (skip rest))
        else none

end

/-- `json.loads`, without the limits of the interpreter. -/
def parse (text : List Char) : Option Json :=
  if text.head? = some '\ufeff' then none
  else
    match scanOnce (2 * text.length + 1) (skip text) with
    | none => none
    | some (value, rest) => if skip rest = [] then some value else none

/-! ## The limits of an interpreter -/

/-- How deep containers may stand in each other, and how many digits an
integer may have. -/
structure Limits where
  nesting : ℕ
  maxDigits : Option ℕ

mutual

def within (maxDigits : Option ℕ) : (nesting : ℕ) → Json → Bool
  | _, .int n =>
    match maxDigits with
    | none => true
    | some limit => (Nat.toDigits 10 n.natAbs).length ≤ limit
  | 0, .array _ => false
  | nesting + 1, .array items => withinItems maxDigits nesting items
  | 0, .object _ => false
  | nesting + 1, .object fields => withinFields maxDigits nesting fields
  | _, _ => true

def withinItems (maxDigits : Option ℕ) (nesting : ℕ) : List Json → Bool
  | [] => true
  | v :: items => within maxDigits nesting v && withinItems maxDigits nesting items

def withinFields (maxDigits : Option ℕ) (nesting : ℕ) : List (Codes × Json) → Bool
  | [] => true
  | (_, v) :: fields => within maxDigits nesting v && withinFields maxDigits nesting fields

end

/-- `json.loads`; `none` is an exception. -/
def loads (limits : Limits) (text : List Char) : Option Json :=
  (parse text).filter (within limits.maxDigits limits.nesting)

end Json

end Zmux
