import Mathlib.Data.List.DropRight
import Zmux.Runs
import Zmux.Utf8

/-!
# The crash log

`record` of `crash.py` appends one entry to the log. A log that has grown
past `MAX_LOG_BYTES` is first cut to its last `MAX_LOG_BYTES // 2`. But the
cap counts bytes and the cut counts characters, of the text that the log is
read as, and a character takes up to four bytes. So the cut log may be
above the cap still: a run keeps to the cap and one entry when the last
characters of each log past the cap are `Balanced` (`log_kept`), as they are
where none takes more than two bytes (`narrow_log_kept`). What any run keeps
to is twice the cap and one entry (`log_le`).

The calls come one at a time and the file system does what it is asked.
Lines end in `\n` on the phone, so only reading translates line ends.
-/

namespace Zmux

open Utf8 (encode decode)

/-- `MAX_LOG_BYTES`. -/
def maxLogBytes : ℕ := 256 * 1024

/-- `latest` is a ghost: the entry of the last call. -/
structure CrashLog where
  file : Option (List UInt8)
  latest : Option (List Char)

namespace CrashLog

/-- The entry of a crash. -/
def entryText (stamp source body : List Char) : List Char :=
  "\n===== ".toList ++ stamp ++ " [".toList ++ source ++ "] =====\n".toList ++ body

/-- `\r\n` and `\r` are read as `\n`. -/
def newlines : List Char → List Char
  | [] => []
  | '\r' :: '\n' :: text => '\n' :: newlines text
  | c :: text => (if c = '\r' then '\n' else c) :: newlines text

/-- `path.read_text(encoding="utf-8", errors="replace")`. -/
def readText (bytes : List UInt8) : List Char := newlines (decode ['\ufffd'] bytes)

/-- `text[-MAX_LOG_BYTES // 2:]`. -/
def tail (text : List Char) : List Char := text.drop (text.length - maxLogBytes / 2)

/-- What of the file is there when the entry is written. -/
def kept : Option (List UInt8) → List UInt8
  | none => []
  | some bytes => if maxLogBytes < bytes.length then encode (tail (readText bytes)) else bytes

/-- `record`. -/
def record (s : CrashLog) (entry : List Char) : CrashLog where
  file := some (kept s.file ++ encode entry)
  latest := some entry

def start (file : Option (List UInt8)) : CrashLog := ⟨file, none⟩

def step (s : CrashLog) (entry : List Char) : Option CrashLog := some (s.record entry)

/-- The log as it is on the disk. -/
def bytes (s : CrashLog) : List UInt8 := s.file.getD []

def Sized (E : ℕ) (entry : List Char) : Prop := (encode entry).length ≤ E

/-- The log is bounded and ends with the latest entry. -/
structure Kept (E : ℕ) (s : CrashLog) (entry : List Char) : Prop where
  bounded : s.bytes.length ≤ maxLogBytes + E
  latest : encode entry <:+ s.bytes

/-- How many of the characters take `k` bytes. -/
def countSize (k : ℕ) (text : List Char) : ℕ := text.countP fun c => c.utf8Size = k

/-- The characters take two bytes each on average: the wider ones are made up
for by ASCII ones, or by what is missing of half the cap. -/
def Balanced (text : List Char) : Prop :=
  countSize 3 text + 2 * countSize 4 text ≤ countSize 1 text + 2 * (maxLogBytes / 2 - text.length)

/-- If the log is past the cap, the end of its text is balanced. -/
def Fits (s : CrashLog) : Prop :=
  maxLogBytes < s.bytes.length → Balanced ((readText s.bytes).rtake (maxLogBytes / 2))

variable {s s' : CrashLog} {entry : List Char} {E : ℕ}

/-! ## Characters and bytes -/

theorem length_encode_cons (c : Char) (text : List Char) :
    (encode (c :: text)).length = c.utf8Size + (encode text).length := by
  rw [← String.length_utf8EncodeChar c, ← List.length_append]
  rfl

theorem countSize_cons (k : ℕ) (c : Char) (text : List Char) :
    countSize k (c :: text) = countSize k text + if c.utf8Size = k then 1 else 0 := by
  simp only [countSize, List.countP_cons, decide_eq_true_eq]

/-- The bytes, counted from two a character. -/
theorem length_encode_add (text : List Char) :
    (encode text).length + countSize 1 text
      = 2 * text.length + countSize 3 text + 2 * countSize 4 text := by
  induction text with
  | nil => rfl
  | cons c text ih =>
      have hpos := c.utf8Size_pos
      have hle := c.utf8Size_le_four
      rw [length_encode_cons, countSize_cons, countSize_cons, countSize_cons, List.length_cons]
      split_ifs <;> omega

theorem length_encode_le (text : List Char) : (encode text).length ≤ 4 * text.length := by
  induction text with
  | nil => exact Nat.zero_le _
  | cons c text ih =>
      have hc := c.utf8Size_le_four
      rw [length_encode_cons, List.length_cons]
      omega

theorem length_encode_replicate (n : ℕ) (c : Char) :
    (encode (List.replicate n c)).length = n * c.utf8Size := by
  rw [encode, List.length_flatMap, List.map_replicate, List.sum_replicate_nat,
    String.length_utf8EncodeChar]

theorem length_tail_le (text : List Char) : (tail text).length ≤ maxLogBytes / 2 := by
  rw [tail, List.length_drop]
  omega

theorem balanced_iff {text : List Char} (h : text.length ≤ maxLogBytes / 2) :
    Balanced text ↔ (encode text).length ≤ maxLogBytes := by
  have hadd := length_encode_add text
  have hhalf : 2 * (maxLogBytes / 2) = maxLogBytes := rfl
  rw [Balanced]
  omega

/-! ## One call -/

theorem bytes_record (s : CrashLog) (entry : List Char) :
    (s.record entry).bytes = kept s.file ++ encode entry := rfl

theorem latest_record (s : CrashLog) (entry : List Char) :
    encode entry <:+ (s.record entry).bytes := List.suffix_append ..

theorem kept_eq (s : CrashLog) : kept s.file =
    if maxLogBytes < s.bytes.length then encode (tail (readText s.bytes)) else s.bytes := by
  cases hfile : s.file with
  | none =>
      rw [CrashLog.bytes, hfile, kept, Option.getD_none, List.length_nil,
        if_neg (Nat.not_lt_zero _)]
  | some bytes => rw [CrashLog.bytes, hfile, kept, Option.getD_some]

/-- What is left fits under the cap just when the log `Fits`. -/
theorem kept_le_iff (s : CrashLog) : (kept s.file).length ≤ maxLogBytes ↔ s.Fits := by
  rw [kept_eq, Fits]
  split
  · rename_i hpast
    rw [← balanced_iff (length_tail_le _)]
    exact ⟨fun h _ => h, fun h => h hpast⟩
  · rename_i hpast
    exact iff_of_true (Nat.le_of_not_lt hpast) fun h => absurd h hpast

theorem kept_record (hfits : s.Fits) (hsized : Sized E entry) : Kept E (s.record entry) entry where
  bounded := by
    rw [bytes_record, List.length_append]
    exact Nat.add_le_add ((kept_le_iff s).mpr hfits) hsized
  latest := latest_record s entry

/-- No other log will do for every entry. -/
theorem fits_iff (s : CrashLog) (E : ℕ) :
    s.Fits ↔ ∀ entry, Sized E entry → Kept E (s.record entry) entry := by
  refine ⟨fun hfits entry => kept_record hfits, fun h => (kept_le_iff s).mp ?_⟩
  have hlength : (encode (List.replicate E 'a')).length = E :=
    (length_encode_replicate E 'a').trans (Nat.mul_one E)
  have hbounded := (h (List.replicate E 'a') (Nat.le_of_eq hlength)).bounded
  rw [bytes_record, List.length_append, hlength] at hbounded
  exact Nat.le_of_add_le_add_right hbounded

/-! ## Narrow characters -/

/-- It takes at most two bytes. -/
def Narrow (c : Char) : Prop := c.utf8Size ≤ 2

theorem narrow_a : Narrow 'a' := Nat.le_succ 1

theorem narrow_newlines {text : List Char} (h : ∀ c ∈ text, Narrow c) :
    ∀ c ∈ newlines text, Narrow c := by
  have hlf : '\n'.utf8Size ≤ 2 := by decide
  induction text using newlines.induct with
  | case1 => exact h
  | case2 text ih =>
      rw [newlines]
      intro c hc
      rcases List.mem_cons.mp hc with rfl | hc
      · exact hlf
      · exact ih (fun c hc => h c (List.mem_cons_of_mem _ (List.mem_cons_of_mem _ hc))) c hc
  | case3 c text hne ih =>
      rw [newlines]
      · intro d hd
        rcases List.mem_cons.mp hd with rfl | hd
        · split
          · exact hlf
          · exact h c List.mem_cons_self
        · exact ih (fun c hc => h c (List.mem_cons_of_mem _ hc)) d hd
      · exact hne

theorem countSize_eq_zero {text : List Char} (h : ∀ c ∈ text, Narrow c) {k : ℕ} (hk : 2 < k) :
    countSize k text = 0 := by
  refine List.countP_eq_zero.mpr fun c hc hsize => ?_
  have hle : c.utf8Size ≤ 2 := h c hc
  rw [of_decide_eq_true hsize] at hle
  omega

/-- The log is the encoding of a text of narrow characters. -/
def NarrowText (s : CrashLog) : Prop := ∃ text, (∀ c ∈ text, Narrow c) ∧ s.bytes = encode text

theorem readText_encode (text : List Char) : readText (encode text) = newlines text := by
  rw [readText, Utf8.decode_encode]

theorem fits_of_narrow (h : s.NarrowText) : s.Fits := by
  obtain ⟨text, htext, hbytes⟩ := h
  intro _
  rw [hbytes, readText_encode]
  have hnarrow : ∀ c ∈ (newlines text).rtake (maxLogBytes / 2), Narrow c :=
    fun c hc => narrow_newlines htext c (List.mem_of_mem_drop hc)
  rw [Balanced, countSize_eq_zero hnarrow (by omega), countSize_eq_zero hnarrow (by omega)]
  exact Nat.zero_le _

theorem narrowText_record (h : s.NarrowText) (hentry : ∀ c ∈ entry, Narrow c) :
    (s.record entry).NarrowText := by
  obtain ⟨text, htext, hbytes⟩ := h
  obtain ⟨front, hfront, hkept⟩ :
      ∃ front, (∀ c ∈ front, Narrow c) ∧ kept s.file = encode front := by
    rw [kept_eq, hbytes, readText_encode]
    split
    · exact ⟨_, fun c hc => narrow_newlines htext c (List.mem_of_mem_drop hc), rfl⟩
    · exact ⟨text, htext, rfl⟩
  refine ⟨front ++ entry, fun c hc => ?_, ?_⟩
  · rcases List.mem_append.mp hc with hc | hc
    · exact hfront c hc
    · exact hentry c hc
  · rw [bytes_record, hkept, encode, encode, encode, List.flatMap_append]

/-! ## Runs -/

theorem step_eq (h : step s entry = some s') : s' = s.record entry := (Option.some.inj h).symm

/-- **The crash log** after every call of a run whose logs all fit; and
after a log that does not, some entry goes over the bound. -/
theorem log_kept (E : ℕ) (file : Option (List UInt8)) :
    (∀ s, Reach step (fun s entry => Sized E entry ∧ s.Fits) (start file) s →
      ∀ entry, s.latest = some entry → Kept E s entry)
    ∧ ∀ s, Reach step (fun _ entry => Sized E entry) (start file) s →
      (s.Fits ↔ ∀ entry, Sized E entry → Kept E (s.record entry) entry) := by
  refine ⟨fun s h => ?_, fun s _ => fits_iff s E⟩
  refine h.invariant (fun s => ∀ entry, s.latest = some entry → Kept E s entry)
    (fun _ hlatest => by cases hlatest) ?_
  rintro s entry s' - ⟨hsized, hfits⟩ hs entry' hlatest
  obtain rfl := step_eq hs
  obtain rfl := Option.some.inj hlatest
  exact kept_record hfits hsized

/-- A log of 300,000 bytes has its first 168,928 dropped. -/
theorem long_log_kept :
    Kept 17 ((start (some (encode (List.replicate 300000 'a')))).record "ValueError: ouch\n".toList)
      "ValueError: ouch\n".toList :=
  have hnarrow : NarrowText (start (some (encode (List.replicate 300000 'a')))) :=
    ⟨_, fun _ hc => List.eq_of_mem_replicate hc ▸ narrow_a, rfl⟩
  have hsized : (encode "ValueError: ouch\n".toList).length ≤ 17 := by decide
  (log_kept 17 _).1 _ (.next .start ⟨hsized, fits_of_narrow hnarrow⟩ rfl) _ rfl

/-- Whatever the characters, a log has at most twice the cap and one entry. -/
theorem log_le {file : Option (List UInt8)}
    (h : Reach step (fun _ entry => Sized E entry) (start file) s) (entry : List Char)
    (hlatest : s.latest = some entry) : s.bytes.length ≤ 2 * maxLogBytes + E := by
  refine h.invariant (fun s => s.latest ≠ none → s.bytes.length ≤ 2 * maxLogBytes + E)
    (fun hne => absurd rfl hne) ?_ (hlatest ▸ Option.some_ne_none _)
  rintro s entry s' - hsized hs -
  obtain rfl := step_eq hs
  rw [bytes_record, List.length_append]
  refine Nat.add_le_add ?_ hsized
  rw [kept_eq]
  split
  · have hcut : (encode (tail (readText s.bytes))).length ≤ 4 * (maxLogBytes / 2) :=
      (length_encode_le _).trans (Nat.mul_le_mul_left 4 (length_tail_le _))
    exact hcut
  · omega

/-- A run of narrow entries that starts without a log keeps to the bound. -/
theorem narrow_log_kept
    (h : Reach step (fun _ entry => Sized E entry ∧ ∀ c ∈ entry, Narrow c) (start none) s) :
    ∀ entry, s.latest = some entry → Kept E s entry := by
  refine (h.invariant (fun s => s.NarrowText ∧ ∀ entry, s.latest = some entry → Kept E s entry)
    ⟨⟨[], fun _ hc => absurd hc List.not_mem_nil, rfl⟩, fun _ hlatest => by cases hlatest⟩ ?_).2
  rintro s entry s' ⟨htext, -⟩ ⟨hsized, hentry⟩ hs
  obtain rfl := step_eq hs
  refine ⟨narrowText_record htext hentry, fun entry' hlatest => ?_⟩
  obtain rfl := Option.some.inj hlatest
  exact kept_record (fits_of_narrow htext) hsized

/-! ## Wide characters -/

theorem newlines_eq {text : List Char} (h : '\r' ∉ text) : newlines text = text := by
  induction text using newlines.induct with
  | case1 => rfl
  | case2 text ih => exact absurd List.mem_cons_self h
  | case3 c text hne ih =>
      rw [newlines]
      · rw [ih fun hmem => h (List.mem_cons_of_mem _ hmem),
          if_neg fun (hc : c = '\r') => h (hc ▸ List.mem_cons_self)]
      · exact hne

/-- A log with no more characters than are kept is not cut at all. -/
theorem kept_of_few {text : List Char} (hcr : '\r' ∉ text) (hfew : text.length ≤ maxLogBytes / 2)
    (hbytes : s.bytes = encode text) : kept s.file = encode text := by
  rw [kept_eq, hbytes, readText_encode, newlines_eq hcr, tail, Nat.sub_eq_zero_of_le hfew,
    List.drop_zero]
  exact ite_self _

/-- A `ValueError` with a message of `n` characters of four bytes each. -/
def wideEntry (n : ℕ) : List Char :=
  entryText "2026-01-01T00:00:00".toList "thread:ZMUX-Terminal-Exec".toList
    ("ValueError: ".toList ++ List.replicate n '😀' ++ ['\n'])

theorem length_wideEntry (n : ℕ) : (wideEntry n).length = n + 74 := by
  unfold wideEntry entryText
  simp only [List.length_append, List.length_replicate]
  simp
  omega

theorem wideEntry_cr (n : ℕ) : '\r' ∉ wideEntry n := by
  unfold wideEntry entryText
  simp

theorem wideEntry_wide (n : ℕ) : n * 4 < (encode (wideEntry n)).length := by
  have hmiddle : (encode (List.replicate n '😀')).length = n * 4 := length_encode_replicate n '😀'
  unfold wideEntry entryText
  simp only [encode, List.flatMap_append, List.length_append] at hmiddle ⊢
  have hlast : (['\n'].flatMap String.utf8EncodeChar).length = 1 := rfl
  omega

/-- Recorded twice: the second call finds a log past the cap and cuts
nothing of it. -/
theorem wide_log_grows : ∃ E s, Reach step (fun _ entry => Sized E entry) (start none) s
    ∧ s.latest = some (wideEntry 65536) ∧ ¬ Kept E s (wideEntry 65536) := by
  have hsized : Sized (encode (wideEntry 65536)).length (wideEntry 65536) := Nat.le_refl _
  refine ⟨_, ((start none).record (wideEntry 65536)).record (wideEntry 65536),
    .next (.next .start hsized rfl) hsized rfl, rfl, fun h => ?_⟩
  have hfew : (wideEntry 65536).length ≤ maxLogBytes / 2 := by
    rw [length_wideEntry, maxLogBytes]
    omega
  have hkept : kept ((start none).record (wideEntry 65536)).file = encode (wideEntry 65536) :=
    kept_of_few (wideEntry_cr _) hfew rfl
  have hpast : maxLogBytes < (encode (wideEntry 65536)).length := wideEntry_wide 65536
  have hbounded := h.bounded
  rw [bytes_record, hkept, List.length_append] at hbounded
  exact absurd hpast (Nat.not_lt.mpr (Nat.le_of_add_le_add_right hbounded))

end CrashLog

end Zmux
