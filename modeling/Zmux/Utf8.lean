import Mathlib.Data.List.Infix
import Mathlib.Tactic.SplitIfs

/-!
# UTF-8 with errors

A decoder of UTF-8 that does not stop at an error: it writes `onError` in
the place of each maximal part that is no character, as `bytes.decode`
does with `errors="ignore"` (nothing) and `errors="replace"` (U+FFFD). It
works byte by byte, so it can be followed through any cut of its input.

It returns the text of which the bytes are the encoding
(`decode_encode`). ASCII bytes are always their text, whatever is before
them (`decodeFrom_word`), and where every error leaves a trace beyond
ASCII, such a text comes from its bytes only (`word_of_decode`).
-/

namespace Zmux

namespace Utf8

/-- Between characters, or inside of one: its value so far, the least and
the greatest six bits of the next byte, and how many bytes come after
that. -/
inductive State where
  | start
  | inside (value low high more : ℕ)
deriving DecidableEq

/-- The state after the first byte of a character of several bytes. -/
def lead? (b : ℕ) : Option State :=
  if b < 0xc2 then none
  else if b < 0xe0 then some (.inside (b - 0xc0) 0 0x3f 0)
  else if b = 0xe0 then some (.inside 0 0x20 0x3f 1)
  else if b = 0xed then some (.inside 0xd 0 0x1f 1)
  else if b < 0xf0 then some (.inside (b - 0xe0) 0 0x3f 1)
  else if b = 0xf0 then some (.inside 0 0x10 0x3f 2)
  else if b < 0xf4 then some (.inside (b - 0xf0) 0 0x3f 2)
  else if b = 0xf4 then some (.inside 4 0 0xf 2)
  else none

section Decoder

variable (onError : List Char)

/-- A byte between characters. -/
def first (b : ℕ) : List Char × State :=
  if b < 0x80 then ([Char.ofNat b], .start)
  else
    match lead? b with
    | some s => ([], s)
    | none => (onError, .start)

/-- What a byte adds to the text. -/
def feed : State → ℕ → List Char × State
  | .start, b => first onError b
  | .inside value low high more, b =>
    if low + 0x80 ≤ b ∧ b ≤ high + 0x80 then
      match more with
      | 0 => ([Char.ofNat (value * 64 + (b - 0x80))], .start)
      | more + 1 => ([], .inside (value * 64 + (b - 0x80)) 0 0x3f more)
    else (onError ++ (first onError b).1, (first onError b).2)

/-- What an end in this state adds. -/
def flush : State → List Char
  | .start => []
  | .inside .. => onError

def decodeFrom : State → List UInt8 → List Char
  | s, [] => flush onError s
  | s, b :: bs => (feed onError s b.toNat).1 ++ decodeFrom (feed onError s b.toNat).2 bs

def decode (bytes : List UInt8) : List Char := decodeFrom onError .start bytes

end Decoder

def encode (text : List Char) : List UInt8 := text.flatMap String.utf8EncodeChar

variable {onError : List Char}

/-! ## Characters -/

/-- A byte in the bounds of the state. -/
theorem feed_inside {value low high more bits : ℕ} (hlow : low ≤ bits) (hhigh : bits ≤ high) :
    feed onError (.inside value low high (more + 1)) (bits + 0x80)
      = ([], .inside (value * 64 + bits) 0 0x3f more) := by
  rw [feed, if_pos ⟨Nat.add_le_add_right hlow _, Nat.add_le_add_right hhigh _⟩,
    Nat.add_sub_cancel]

theorem feed_last {value low high bits : ℕ} (hlow : low ≤ bits) (hhigh : bits ≤ high) :
    feed onError (.inside value low high 0) (bits + 0x80)
      = ([Char.ofNat (value * 64 + bits)], .start) := by
  rw [feed, if_pos ⟨Nat.add_le_add_right hlow _, Nat.add_le_add_right hhigh _⟩,
    Nat.add_sub_cancel]

theorem decodeFrom_byte {s s' : State} {n : ℕ} {out : List Char} (hn : n < 256)
    (h : feed onError s n = (out, s')) (bs : List UInt8) :
    decodeFrom onError s (UInt8.ofNat n :: bs) = out ++ decodeFrom onError s' bs := by
  have hbyte : (UInt8.ofNat n).toNat = n := Nat.mod_eq_of_lt hn
  rw [decodeFrom, hbyte, h]

theorem lead?_two {high : ℕ} (hlow : 2 ≤ high) (hhigh : high < 32) :
    lead? (high + 0xc0) = some (.inside high 0 0x3f 0) := by
  rw [lead?, if_neg (by omega), if_pos (by omega), Nat.add_sub_cancel]

/-- The bounds of the second byte leave out the values that are too small
for three bytes, and the surrogates. -/
theorem lead?_three {high second : ℕ} (hhigh : high < 16) (hsmall : high = 0 → 0x20 ≤ second)
    (hsurrogate : high = 13 → second ≤ 0x1f) (hle : second ≤ 0x3f) :
    ∃ least most, lead? (high + 0xe0) = some (.inside high least most 1)
      ∧ least ≤ second ∧ second ≤ most := by
  rw [lead?, if_neg (by omega), if_neg (by omega)]
  by_cases hzero : high = 0
  · subst hzero
    exact ⟨_, _, rfl, hsmall rfl, hle⟩
  by_cases hd : high = 13
  · subst hd
    exact ⟨_, _, rfl, Nat.zero_le _, hsurrogate rfl⟩
  rw [if_neg (by omega), if_neg (by omega), if_pos (by omega), Nat.add_sub_cancel]
  exact ⟨_, _, rfl, Nat.zero_le _, hle⟩

theorem lead?_four {high second : ℕ} (hhigh : high ≤ 4) (hsmall : high = 0 → 0x10 ≤ second)
    (hlarge : high = 4 → second ≤ 0xf) (hle : second ≤ 0x3f) :
    ∃ least most, lead? (high + 0xf0) = some (.inside high least most 2)
      ∧ least ≤ second ∧ second ≤ most := by
  rw [lead?, if_neg (by omega), if_neg (by omega), if_neg (by omega), if_neg (by omega),
    if_neg (by omega)]
  by_cases hzero : high = 0
  · subst hzero
    exact ⟨_, _, rfl, hsmall rfl, hle⟩
  by_cases hfour : high = 4
  · subst hfour
    exact ⟨_, _, rfl, Nat.zero_le _, hlarge rfl⟩
  rw [if_neg (by omega), if_pos (by omega), Nat.add_sub_cancel]
  exact ⟨_, _, rfl, Nat.zero_le _, hle⟩

theorem feed_lead {b : ℕ} {s : State} (hb : 0x80 ≤ b) (h : lead? b = some s) :
    feed onError .start b = ([], s) := by
  rw [feed, first, if_neg (Nat.not_lt.mpr hb), h]

/-- The bytes of a character are that character. -/
theorem decode_encodeChar (c : Char) (bs : List UInt8) :
    decode onError (String.utf8EncodeChar c ++ bs) = c :: decode onError bs := by
  have hvalid : c.val.toNat < 0xd800 ∨ 0xdfff < c.val.toNat ∧ c.val.toNat < 0x110000 := c.valid
  have hout : ∀ n, n = c.val.toNat →
      [Char.ofNat n] ++ decode onError bs = c :: decode onError bs := by
    rintro n rfl
    exact congrArg (· :: decode onError bs) (Char.ofNat_toNat c)
  rw [String.utf8EncodeChar.eq_def]
  dsimp only
  generalize c.val.toNat = v at hvalid hout ⊢
  split
  · rename_i hone
    have hfeed : feed onError .start v = ([Char.ofNat v], .start) := if_pos (by omega)
    exact (decodeFrom_byte (by omega) hfeed bs).trans (hout v rfl)
  split
  · rename_i hone htwo
    have hlead := lead?_two (show 2 ≤ v / 64 % 0x20 by omega) (by omega)
    have hfirst : feed onError .start (v / 64 % 0x20 + 0xc0) = ([], _) :=
      feed_lead (by omega) hlead
    refine (decodeFrom_byte (by omega) hfirst _).trans ?_
    refine (decodeFrom_byte (by omega) (feed_last (Nat.zero_le _) (by omega)) bs).trans ?_
    exact hout _ (by omega)
  split
  · rename_i hone htwo hthree
    obtain ⟨least, most, hlead, hleast, hmost⟩ := lead?_three
      (show v / 4096 % 0x10 < 16 by omega) (show _ → _ ≤ v / 64 % 0x40 by omega)
      (by omega) (by omega)
    have hfirst : feed onError .start (v / 4096 % 0x10 + 0xe0) = ([], _) :=
      feed_lead (by omega) hlead
    refine (decodeFrom_byte (by omega) hfirst _).trans ?_
    refine (decodeFrom_byte (by omega) (feed_inside hleast hmost) _).trans ?_
    refine (decodeFrom_byte (by omega) (feed_last (Nat.zero_le _) (by omega)) bs).trans ?_
    exact hout _ (by omega)
  · rename_i hone htwo hthree
    obtain ⟨least, most, hlead, hleast, hmost⟩ := lead?_four
      (show v / 262144 % 0x08 ≤ 4 by omega) (show _ → _ ≤ v / 4096 % 0x40 by omega)
      (by omega) (by omega)
    have hfirst : feed onError .start (v / 262144 % 0x08 + 0xf0) = ([], _) :=
      feed_lead (by omega) hlead
    refine (decodeFrom_byte (by omega) hfirst _).trans ?_
    refine (decodeFrom_byte (by omega) (feed_inside hleast hmost) _).trans ?_
    refine (decodeFrom_byte (by omega) (feed_inside (Nat.zero_le _) (by omega)) _).trans ?_
    refine (decodeFrom_byte (by omega) (feed_last (Nat.zero_le _) (by omega)) bs).trans ?_
    exact hout _ (by omega)

theorem decode_encode (text : List Char) : decode onError (encode text) = text := by
  induction text with
  | nil => rfl
  | cons c text ih =>
      have hcons : encode (c :: text) = String.utf8EncodeChar c ++ encode text := rfl
      rw [hcons, decode_encodeChar, ih]

/-! ## ASCII -/

theorem feed_ascii {b : ℕ} (hb : b < 0x80) (s : State) :
    feed onError s b = (flush onError s ++ [Char.ofNat b], .start) := by
  have hfirst : first onError b = ([Char.ofNat b], .start) := if_pos hb
  cases s with
  | start => exact hfirst
  | inside value low high more =>
      rw [feed.eq_def]
      dsimp only
      rw [if_neg (by omega), hfirst]
      rfl

/-- An ASCII byte is its character, and what is before it ends there. -/
theorem decodeFrom_ascii {b : UInt8} (hb : b.toNat < 0x80) (s : State) (front back : List UInt8) :
    decodeFrom onError s (front ++ b :: back)
      = decodeFrom onError s front ++ Char.ofNat b.toNat :: decode onError back := by
  induction front generalizing s with
  | nil =>
      show (feed onError s b.toNat).1 ++ decodeFrom onError (feed onError s b.toNat).2 back = _
      rw [feed_ascii hb, List.append_assoc]
      rfl
  | cons a front ih => rw [List.cons_append, decodeFrom, ih, decodeFrom, List.append_assoc]

/-- The text of ASCII bytes. -/
def ofAscii (bytes : List UInt8) : List Char := bytes.map fun b => Char.ofNat b.toNat

/-- ASCII bytes in the middle of the input. -/
theorem decodeFrom_word {word : List UInt8} (hword : ∀ b ∈ word, b.toNat < 0x80) (hne : word ≠ [])
    (s : State) (front back : List UInt8) :
    decodeFrom onError s (front ++ (word ++ back))
      = decodeFrom onError s front ++ (ofAscii word ++ decode onError back) := by
  have hfrom : ∀ word : List UInt8, (∀ b ∈ word, b.toNat < 0x80) →
      decode onError (word ++ back) = ofAscii word ++ decode onError back := by
    intro word hword
    induction word with
    | nil => rfl
    | cons b word ih =>
        obtain ⟨hb, hword⟩ := List.forall_mem_cons.mp hword
        exact (decodeFrom_ascii hb .start [] (word ++ back)).trans
          (congrArg (Char.ofNat b.toNat :: ·) (ih hword))
  cases word with
  | nil => exact absurd rfl hne
  | cons b word =>
      obtain ⟨hb, hword⟩ := List.forall_mem_cons.mp hword
      rw [List.cons_append, decodeFrom_ascii hb, hfrom word hword]
      rfl

/-! ## Where ASCII comes from -/

theorem toNat_ofNat {n : ℕ} (h : n.isValidChar) : (Char.ofNat n).toNat = n := by
  rw [Char.ofNat, dif_pos h]
  rfl

/-- How many values so many bytes tell apart. -/
def values : (more : ℕ) → ℕ
  | 0 => 1
  | more + 1 => values more * 64

/-- What the state becomes is a character beyond ASCII. -/
def State.Wf : State → Prop
  | .start => True
  | .inside value low high more =>
    0x80 ≤ (value * 64 + low) * values more ∧ more ≤ 2 ∧
      ((value * 64 + high + 1) * values more ≤ 0xd800 ∨
        0xe000 ≤ (value * 64 + low) * values more ∧
          (value * 64 + high + 1) * values more ≤ 0x110000)

theorem wf_lead {b : ℕ} {s : State} (h : lead? b = some s) : s.Wf := by
  rw [lead?] at h
  split_ifs at h <;> obtain rfl := Option.some.inj h <;> simp only [State.Wf, values] <;> omega

/-- A byte beyond ASCII adds none. -/
theorem first_beyond {b : ℕ} (hb : 0x80 ≤ b) (hbeyond : ∀ c ∈ onError, 0x80 ≤ c.toNat) :
    (∀ c ∈ (first onError b).1, 0x80 ≤ c.toNat) ∧ (first onError b).2.Wf := by
  rw [first, if_neg (Nat.not_lt.mpr hb)]
  split
  · rename_i s hs
    exact ⟨nofun, wf_lead hs⟩
  · exact ⟨hbeyond, trivial⟩

theorem feed_beyond {s : State} {b : ℕ} (hs : s.Wf) (hb : 0x80 ≤ b)
    (hbeyond : ∀ c ∈ onError, 0x80 ≤ c.toNat) :
    (∀ c ∈ (feed onError s b).1, 0x80 ≤ c.toNat) ∧ (feed onError s b).2.Wf := by
  cases s with
  | start => exact first_beyond hb hbeyond
  | inside value low high more =>
      obtain ⟨hleast, hmore, hmost⟩ := hs
      rw [feed.eq_def]
      dsimp only
      split
      · rename_i hbits
        cases more with
        | zero =>
            simp only [values, Nat.mul_one] at hleast hmost
            have hvalid : (value * 64 + (b - 0x80)).isValidChar := by
              rw [Nat.isValidChar]
              omega
            refine ⟨fun c hc => ?_, trivial⟩
            rw [List.mem_singleton.mp hc, toNat_ofNat hvalid]
            omega
        | succ more =>
            refine ⟨nofun, ?_⟩
            have hone : more = 0 ∨ more = 1 := by omega
            rcases hone with rfl | rfl
            all_goals
              simp only [values] at hleast hmost
              simp only [State.Wf, values]
              omega
      · obtain ⟨hfirst, hwf⟩ := first_beyond hb hbeyond
        refine ⟨fun c hc => ?_, hwf⟩
        rcases List.mem_append.mp hc with hc | hc
        · exact hbeyond c hc
        · exact hfirst c hc

theorem wf_feed {s : State} (hs : s.Wf) (hbeyond : ∀ c ∈ onError, 0x80 ≤ c.toNat) (b : ℕ) :
    (feed onError s b).2.Wf := by
  by_cases hb : b < 0x80
  · rw [feed_ascii hb]
    trivial
  · exact (feed_beyond hs (Nat.not_lt.mp hb) hbeyond).2

theorem mem_flush {s : State} {c : Char} (h : c ∈ flush onError s) : c ∈ onError := by
  cases s with
  | start => cases h
  | inside => exact h

/-- An element that is not in the front is after it. -/
theorem append_eq_skip {α : Type*} {out rest before after : List α} {c : α} (hout : c ∉ out)
    (h : out ++ rest = before ++ c :: after) :
    ∃ before', before = out ++ before' ∧ rest = before' ++ c :: after := by
  rcases List.append_eq_append_iff.mp h with ⟨w, rfl, hw⟩ | ⟨w, rfl, hw⟩
  · exact ⟨w, rfl, hw⟩
  · cases w with
    | nil => exact ⟨[], by simp, hw.symm⟩
    | cons d w =>
        obtain ⟨rfl, -⟩ := List.cons.inj hw
        exact absurd (List.mem_append_cons_self) hout

/-- An ASCII character comes from its byte. -/
theorem split_of_decodeFrom (hbeyond : ∀ c ∈ onError, 0x80 ≤ c.toNat) {c : Char}
    (hc : c.toNat < 0x80) {before after : List Char} {bytes : List UInt8} {s : State} (hs : s.Wf)
    (h : decodeFrom onError s bytes = before ++ c :: after) :
    ∃ front b back, bytes = front ++ b :: back ∧ Char.ofNat b.toNat = c ∧ b.toNat < 0x80 ∧
      decodeFrom onError s front = before ∧ decode onError back = after := by
  have hflush : ∀ s, c ∉ flush onError s := by
    intro s hmem
    have := hbeyond c (mem_flush hmem)
    omega
  induction bytes generalizing s before with
  | nil =>
      have hend : flush onError s = before ++ c :: after := h
      exact absurd (hend ▸ List.mem_append_cons_self) (hflush s)
  | cons b bytes ih =>
      -- The character is not of this byte.
      have hlater : ∀ {before'}, before = (feed onError s b.toNat).1 ++ before' →
          decodeFrom onError (feed onError s b.toNat).2 bytes = before' ++ c :: after →
          ∃ front b' back, b :: bytes = front ++ b' :: back ∧ Char.ofNat b'.toNat = c ∧
            b'.toNat < 0x80 ∧ decodeFrom onError s front = before ∧
            decode onError back = after := by
        intro before' hbefore hrest
        obtain ⟨front, b', back, rfl, hb', hascii, rfl, hback⟩ :=
          ih (wf_feed hs hbeyond b.toNat) hrest
        exact ⟨b :: front, b', back, rfl, hb', hascii, hbefore.symm, hback⟩
      by_cases hb : b.toNat < 0x80
      · have hfeed : feed onError s b.toNat = (flush onError s ++ [Char.ofNat b.toNat], .start) :=
          feed_ascii hb s
        have hsplit : flush onError s ++ Char.ofNat b.toNat :: decode onError bytes
            = before ++ c :: after := by
          rw [← h, decodeFrom, hfeed, List.append_assoc]
          rfl
        obtain ⟨w, rfl, hw⟩ := append_eq_skip (hflush s) hsplit
        cases w with
        | nil =>
            obtain ⟨hchar, hback⟩ := List.cons.inj hw
            exact ⟨[], b, bytes, rfl, hchar, hb, (List.append_nil _).symm, hback⟩
        | cons d w =>
            obtain ⟨rfl, hrest⟩ := List.cons.inj hw
            rw [hfeed] at hlater
            exact hlater (by rw [List.append_assoc]; rfl) hrest
      · have hout : c ∉ (feed onError s b.toNat).1 := by
          intro hmem
          have := (feed_beyond hs (Nat.not_lt.mp hb) hbeyond).1 c hmem
          omega
        obtain ⟨before', hbefore, hrest⟩ := append_eq_skip hout h
        exact hlater hbefore hrest

/-- Where every error leaves something, no byte is without a trace. -/
theorem eq_nil_of_decode (hne : onError ≠ []) {bytes : List UInt8}
    (h : decode onError bytes = []) : bytes = [] := by
  have hinside : ∀ (bytes : List UInt8) (value low high more : ℕ),
      decodeFrom onError (.inside value low high more) bytes ≠ [] := by
    intro bytes
    induction bytes with
    | nil => exact fun _ _ _ _ => hne
    | cons b bytes ih =>
        intro value low high more
        rw [decodeFrom, feed.eq_def]
        dsimp only
        split
        · cases more with
          | zero => exact List.cons_ne_nil _ _
          | succ more => exact ih _ _ _ _
        · rw [List.append_assoc]
          exact fun h => hne (List.append_eq_nil_iff.mp h).1
  cases bytes with
  | nil => rfl
  | cons b bytes =>
      rw [decode, decodeFrom, feed.eq_def] at h
      dsimp only at h
      rw [first] at h
      split at h
      · cases h
      split at h
      · rename_i s hs
        cases s with
        | start =>
            rw [lead?] at hs
            split_ifs at hs <;> cases hs
        | inside value low high more => exact absurd h (hinside _ _ _ _ _)
      · exact absurd (List.append_eq_nil_iff.mp h).1 hne

theorem ofNat_lt {b : UInt8} (h : b.toNat < 0x80) : (Char.ofNat b.toNat).toNat < 0x80 := by
  rwa [toNat_ofNat (Or.inl (by omega))]

theorem byte_eq {b d : UInt8} (hb : b.toNat < 0x80) (hd : d.toNat < 0x80)
    (h : Char.ofNat b.toNat = Char.ofNat d.toNat) : b = d := by
  have hnat := congrArg Char.toNat h
  rw [toNat_ofNat (Or.inl (by omega)), toNat_ofNat (Or.inl (by omega))] at hnat
  exact UInt8.toNat_inj.mp hnat

theorem wf_start : State.start.Wf := trivial

theorem prefix_of_decode (hne : onError ≠ []) (hbeyond : ∀ c ∈ onError, 0x80 ≤ c.toNat)
    {word : List UInt8} (hword : ∀ b ∈ word, b.toNat < 0x80) {after : List Char}
    {bytes : List UInt8} (h : decode onError bytes = ofAscii word ++ after) :
    ∃ back, bytes = word ++ back ∧ decode onError back = after := by
  induction word generalizing bytes with
  | nil => exact ⟨bytes, rfl, h⟩
  | cons b word ih =>
      obtain ⟨hb, htail⟩ := List.forall_mem_cons.mp hword
      have hfirst : decodeFrom onError .start bytes
          = [] ++ Char.ofNat b.toNat :: (ofAscii word ++ after) := h
      obtain ⟨front, b', rest, rfl, hchar, hb', hfront, hrest⟩ :=
        split_of_decodeFrom hbeyond (ofNat_lt hb) wf_start hfirst
      obtain rfl := eq_nil_of_decode hne hfront
      obtain rfl := byte_eq hb' hb hchar
      obtain ⟨back, rfl, hback⟩ := ih htail hrest
      exact ⟨back, rfl, hback⟩

/-- ASCII text comes from its bytes. -/
theorem word_of_decode (hne : onError ≠ []) (hbeyond : ∀ c ∈ onError, 0x80 ≤ c.toNat)
    {word : List UInt8} (hword : ∀ b ∈ word, b.toNat < 0x80) (hsome : word ≠ [])
    {before after : List Char} {bytes : List UInt8}
    (h : decode onError bytes = before ++ (ofAscii word ++ after)) :
    ∃ front back, bytes = front ++ (word ++ back) ∧ decode onError front = before ∧
      decode onError back = after := by
  cases word with
  | nil => exact absurd rfl hsome
  | cons b word =>
      obtain ⟨hb, htail⟩ := List.forall_mem_cons.mp hword
      obtain ⟨front, b', rest, rfl, hchar, hb', hfront, hrest⟩ :=
        split_of_decodeFrom hbeyond (ofNat_lt hb) wf_start h
      obtain rfl := byte_eq hb' hb hchar
      obtain ⟨back, rfl, hback⟩ := prefix_of_decode hne hbeyond htail hrest
      exact ⟨front, back, rfl, hfront, hback⟩

end Utf8

end Zmux
