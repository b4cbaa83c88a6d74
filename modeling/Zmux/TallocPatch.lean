import Zmux.ElfImage
import Zmux.ReplaceAll

/-!
# The talloc rewrite

`patch_talloc_names` of `build_proot_android.py` rewrites `libtalloc.so.2`
in the bytes of a shared object, wherever it occurs, to `libtalloc.so` and
two zeros. What the reader of the dynamic section makes of the result
follows from where the changed bytes are: if the name occurs in the string
table only, no header, section name or dynamic entry is touched, and a
string that is read ends at the first zero that was put into it
(`rewrite_seen_by_reader`).
-/

namespace Zmux

namespace TallocPatch

open ElfScan

/-- `libtalloc.so`, the part of the name that stays. -/
def tallocName : List UInt8 :=
  [0x6c, 0x69, 0x62, 0x74, 0x61, 0x6c, 0x6c, 0x6f, 0x63, 0x2e, 0x73, 0x6f]

/-- `TALLOC_NEEDED`: `libtalloc.so.2`. -/
def tallocNeeded : List UInt8 := tallocName ++ [0x2e, 0x32]

/-- `TALLOC_NEEDED_REPLACEMENT`: `libtalloc.so` and two zeros. -/
def tallocNeededReplacement : List UInt8 := tallocName ++ [0, 0]

/-! ## The build script -/

/-- The files of the output directory. -/
abbrev Out := String → Option (List UInt8)

/-- One file; with the new bytes goes what is printed. -/
def patchFile (name : String) (data : List UInt8) : Except String (List UInt8 × List String) :=
  let count := countFrom tallocNeeded 0 data
  if count = 0 then .ok (data, [])
  else
    let patched := replaceAll tallocNeeded tallocNeededReplacement data
    if patched.length ≠ data.length then
      .error ("[patch] " ++ name ++ ": FAILED — replacement changed the file size ("
        ++ toString data.length ++ " -> " ++ toString patched.length ++ " bytes). The talloc NEEDED "
        ++ "rewrite must preserve byte length; refusing to ship a corrupted binary.")
    else
      .ok (patched, ["[patch] " ++ name ++ ": rewrote " ++ toString count
        ++ "× 'libtalloc.so.2' -> 'libtalloc.so' (SONAME/DT_NEEDED)"])

def patchNames : List String → Out → Except String (Out × List String)
  | [], out => .ok (out, [])
  | name :: names, out =>
    match out name with
    | none => patchNames names out
    | some data => do
      let (patched, line) ← patchFile name data
      let (out, lines) ← patchNames names (Function.update out name (some patched))
      .ok (out, line ++ lines)

/-- `patch_talloc_names`. -/
def patchTallocNames (out : Out) : Except String (Out × List String) :=
  patchNames ["libproot.so", "libtalloc.so"] out

def patched (data : List UInt8) : List UInt8 :=
  replaceAll tallocNeeded tallocNeededReplacement data

/-! ## The bytes -/

theorem borderless_tallocNeeded : Borderless tallocNeeded := by
  decide

theorem length_tallocNeeded : tallocNeeded.length = 14 := rfl

theorem length_replacement : tallocNeededReplacement.length = tallocNeeded.length := rfl

theorem length_patched (data : List UInt8) : (patched data).length = data.length :=
  length_replaceAll borderless_tallocNeeded.1 length_replacement

/-- The size never changes, so nothing is refused. -/
theorem patchFile_eq (name : String) (data : List UInt8) :
    ∃ printed, patchFile name data = .ok (patched data, printed) := by
  simp only [patchFile]
  by_cases hcount : countFrom tallocNeeded 0 data = 0
  · rw [if_pos hcount]
    have hsame : patched data = data := replaceFrom_of_count hcount
    exact ⟨[], by rw [hsame]⟩
  · have hlength : (replaceAll tallocNeeded tallocNeededReplacement data).length = data.length :=
      length_patched data
    rw [if_neg hcount, if_neg (not_not_intro hlength)]
    exact ⟨_, rfl⟩

theorem patchNames_eq {names : List String} (hnames : names.Nodup) (out : Out) :
    ∃ out' printed, patchNames names out = .ok (out', printed) ∧
      ∀ name, out' name = if name ∈ names then (out name).map patched else out name := by
  induction names generalizing out with
  | nil => exact ⟨out, [], rfl, fun _ => rfl⟩
  | cons first names ih =>
      obtain ⟨hfirst, hnames⟩ := List.nodup_cons.mp hnames
      cases hfile : out first with
      | none =>
          obtain ⟨out', printed, hrun, hout'⟩ := ih hnames out
          refine ⟨out', printed, ?_, ?_⟩
          · rw [patchNames, hfile]
            exact hrun
          · intro name
            rw [hout']
            by_cases hname : name = first
            · rw [hname, hfile, if_neg hfirst]
              simp
            · simp [hname]
      | some data =>
          obtain ⟨line, hline⟩ := patchFile_eq first data
          obtain ⟨out', printed, hrun, hout'⟩ :=
            ih hnames (Function.update out first (some (patched data)))
          refine ⟨out', line ++ printed, ?_, ?_⟩
          · rw [patchNames, hfile]
            simp only [hline]
            show (patchNames _ _ >>= _) = _
            rw [hrun]
            rfl
          · intro name
            rw [hout']
            by_cases hname : name = first
            · subst hname
              rw [if_neg hfirst, if_pos List.mem_cons_self, Function.update_self, hfile]
              rfl
            · rw [Function.update_of_ne hname]
              simp [hname]

/-- The byte is one of the last two of an occurrence. -/
def Touched (data : List UInt8) (j : ℕ) : Prop :=
  ∃ i, At data i tallocNeeded ∧ (j = i + 12 ∨ j = i + 13)

theorem getElem?_of_touched {data : List UInt8} {j : ℕ} (h : Touched data j) :
    (patched data)[j]? = some 0 := by
  obtain ⟨i, hi, rfl | rfl⟩ := h
  · rw [patched, getElem?_replaceAll_of_at borderless_tallocNeeded length_replacement hi
      (by rw [length_tallocNeeded]; decide)]
    rfl
  · rw [patched, getElem?_replaceAll_of_at borderless_tallocNeeded length_replacement hi
      (by rw [length_tallocNeeded]; decide)]
    rfl

theorem getElem?_of_not_touched {data : List UInt8} {j : ℕ} (h : ¬ Touched data j) :
    (patched data)[j]? = data[j]? := by
  by_cases hin : ∃ i, At data i tallocNeeded ∧ i ≤ j ∧ j < i + tallocNeeded.length
  · obtain ⟨i, hi, hle, hlt⟩ := hin
    obtain ⟨k, rfl⟩ := Nat.exists_eq_add_of_le hle
    have hk : k < 12 := by
      by_contra hk
      rw [length_tallocNeeded] at hlt
      exact h ⟨i, hi, by omega⟩
    have hsame : tallocNeededReplacement[k]? = tallocNeeded[k]? := by
      have hname : k < tallocName.length := hk
      rw [tallocNeededReplacement, tallocNeeded, List.getElem?_append_left hname,
        List.getElem?_append_left hname]
    rw [patched, getElem?_replaceAll_of_at borderless_tallocNeeded length_replacement hi (by omega),
      hsame, hi.getElem? (by omega)]
  · refine getElem?_replaceAll_of_not borderless_tallocNeeded.1 length_replacement ?_
    intro i hi hle
    exact Nat.le_of_not_lt fun hlt => hin ⟨i, hi, hle, hlt⟩

/-- No byte of the name is a zero. -/
theorem ne_zero_of_at {data : List UInt8} {i j : ℕ} (h : At data i tallocNeeded) (hle : i ≤ j)
    (hlt : j < i + 14) : data[j]? ≠ some 0 := by
  have hbytes : ∀ k < 14, tallocNeeded[k]? ≠ some 0 := by decide
  obtain ⟨k, rfl⟩ := Nat.exists_eq_add_of_le hle
  rw [h.getElem? (by rw [length_tallocNeeded]; omega)]
  exact hbytes k (by omega)

/-- The zeros make no new occurrence, and break up the old ones. -/
theorem not_at_patched (data : List UInt8) (i : ℕ) : ¬ At (patched data) i tallocNeeded := by
  intro h
  have huntouched : ∀ k < 14, ¬ Touched data (i + k) := by
    intro k hk htouched
    exact ne_zero_of_at h (Nat.le_add_right i k) (by omega) (getElem?_of_touched htouched)
  have hold : At data i tallocNeeded := by
    refine at_iff_getElem?.mpr ?_
    intro k hk
    rw [length_tallocNeeded] at hk
    rw [← getElem?_of_not_touched (huntouched k hk), h.getElem? (by rwa [length_tallocNeeded])]
  exact huntouched 12 (by decide) ⟨i, hold, .inl rfl⟩

/-! ## The strings -/

/-- A word that does not overlap with itself is first in a text where it is
first in the bytes. -/
theorem text_cutAt {word kept : List UInt8} (hword : Borderless word)
    (hascii : ∀ b ∈ word, b.toNat < 0x80) (hkept : ∀ b ∈ kept, b.toNat < 0x80) (hne : kept ≠ [])
    (s : List UInt8) :
    text (cutAt word kept s) = cutAt (Utf8.ofAscii word) (Utf8.ofAscii kept) (text s) := by
  have hback : ∀ {before after : List Char}, text s = before ++ (Utf8.ofAscii word ++ after) →
      ∃ front back, s = front ++ (word ++ back) ∧ text front = before := by
    intro before after h
    obtain ⟨front, back, hs, hfront, -⟩ :=
      Utf8.word_of_decode (List.cons_ne_nil _ _) replacement_beyond hascii hword.1 h
    exact ⟨front, back, hs, hfront⟩
  have hne' : Utf8.ofAscii word ≠ [] := by
    simpa [Utf8.ofAscii] using hword.1
  obtain hnone | ⟨k, hat, hfirst⟩ := first_or_not word s
  · rw [cutAt_of_not hnone, cutAt_of_not]
    intro k hat
    obtain ⟨after, hsplit⟩ := hat.split
    obtain ⟨front, back, hs, -⟩ := hback hsplit
    refine hnone front.length ?_
    rw [hs]
    exact at_middle front word back
  · obtain ⟨back, hs⟩ := hat.split
    have htext : text s = text (s.take k) ++ (Utf8.ofAscii word ++ text back) := by
      rw [← text_word hascii hword.1, ← hs]
    have hcut : text (s.take k ++ kept) = text (s.take k) ++ Utf8.ofAscii kept := by
      have h := text_word hkept hne (s.take k) []
      rw [List.append_nil] at h
      exact h.trans (congrArg _ (List.append_nil _))
    have hat' : At (text s) (text (s.take k)).length (Utf8.ofAscii word) := by
      rw [htext]
      exact at_middle _ _ _
    rw [cutAt_of_first hword.1 hat hfirst, hcut, cutAt_of_first hne' hat', htext, List.take_left]
    intro k' hk' hat''
    obtain ⟨after, hsplit⟩ := hat''.split
    obtain ⟨front, back', hs', hfront⟩ := hback hsplit
    have hlength : (text front).length ≤ k' := by
      rw [hfront]
      exact List.length_take_le _ _
    have hatfront : At s front.length word := by
      rw [hs']
      exact at_middle front word back'
    -- the bytes before it are those before the first one, or go on behind that
    obtain hlt | heq | hgt := Nat.lt_trichotomy front.length k
    · exact hfirst front.length hlt hatfront
    · have hsame : s.take k = front := by
        rw [← heq, hs', List.take_left]
      rw [hsame] at hk'
      omega
    · have hle := hword.apart hat hatfront hgt
      have hk : (s.take k).length = k := by
        have := hat.length_le hword.1
        rw [List.length_take]
        omega
      have hfirstword : s.take k ++ word <+: s := ⟨back, by rw [List.append_assoc, ← hs]⟩
      have hupto : front <+: s := ⟨word ++ back', hs'.symm⟩
      have hbefore : (s.take k ++ word).length ≤ front.length := by
        rw [List.length_append, hk]
        exact hle
      obtain ⟨between, hbetween⟩ := List.prefix_of_prefix_length_le hfirstword hupto hbefore
      have hlong := congrArg (fun bytes => (text bytes).length) hbetween.symm
      rw [List.append_assoc] at hlong
      simp only [text_word hascii hword.1, List.length_append] at hlong
      omega

/-- A name as far as the reader sees it. -/
def cutBytes (name : List UInt8) : List UInt8 := cutAt tallocNeeded tallocName name

/-- The text of a name is cut alike. -/
def cutText (name : List Char) : List Char :=
  cutAt "libtalloc.so.2".toList "libtalloc.so".toList name

theorem text_cutBytes (name : List UInt8) : text (cutBytes name) = cutText (text name) := by
  have hword : "libtalloc.so.2".toList = Utf8.ofAscii tallocNeeded := by decide
  have hkept : "libtalloc.so".toList = Utf8.ofAscii tallocName := by decide
  rw [cutText, hword, hkept]
  exact text_cutAt borderless_tallocNeeded (ascii_of_all rfl) (ascii_of_all rfl)
    (List.cons_ne_nil _ _) name

theorem cutBytes_of_first {s : List UInt8} {k : ℕ} (h : At s k tallocNeeded)
    (hfirst : ∀ i < k, ¬ At s i tallocNeeded) : cutBytes s = s.take (k + 12) := by
  have hname : tallocName = tallocNeeded.take 12 := rfl
  have hdrop : (s.drop k).take 12 = tallocNeeded.take 12 := by
    obtain ⟨back, hback⟩ := h
    rw [← hback, List.take_append_of_le_length (by rw [length_tallocNeeded]; decide)]
  rw [cutBytes, cutAt_of_first borderless_tallocNeeded.1 h hfirst, List.take_add, hdrop, hname]

section AtString

variable {data s : List UInt8} {start : ℕ} (h : At data start (s ++ [0]))
  (hstart : ∀ i, At data i tallocNeeded → ¬ (i < start ∧ start < i + 14))

include h

theorem getElem?_of_at_string {m : ℕ} (hm : m ≤ s.length) :
    data[start + m]? = (s ++ [0])[m]? :=
  h.getElem? (by rw [List.length_append, List.length_singleton]; omega)

theorem at_of_at_string {k : ℕ} (hk : At s k tallocNeeded) : At data (start + k) tallocNeeded := by
  have hle := hk.length_le borderless_tallocNeeded.1
  refine at_iff_getElem?.mpr ?_
  intro m hm
  rw [Nat.add_assoc, getElem?_of_at_string h (by omega), List.getElem?_append_left (by omega),
    hk.getElem? hm]

include hstart

/-- An occurrence that reaches into the string lies in it. -/
theorem at_string_of_at {i : ℕ} (hi : At data i tallocNeeded) (hafter : start < i + 14)
    (hbefore : i ≤ start + s.length) : start ≤ i ∧ At s (i - start) tallocNeeded := by
  have hle : start ≤ i := Nat.le_of_not_lt fun hlt => hstart i hi ⟨hlt, hafter⟩
  have hzero : data[start + s.length]? = some 0 := by
    rw [getElem?_of_at_string h (Nat.le_refl _)]
    simp
  have hend : i + 14 ≤ start + s.length :=
    Nat.le_of_not_lt fun hlt => ne_zero_of_at hi hbefore hlt hzero
  refine ⟨hle, at_iff_getElem?.mpr ?_⟩
  intro m hm
  have hlength := length_tallocNeeded
  rw [← hi.getElem? hm, show i + m = start + (i - start + m) by omega,
    getElem?_of_at_string h (by omega), List.getElem?_append_left (by omega)]

/-- The string at a start that is not inside an occurrence. -/
theorem at_cutBytes : At (patched data) start (cutBytes s ++ [0]) := by
  obtain hnone | ⟨k, hk, hfirst⟩ := first_or_not tallocNeeded s
  · rw [cutBytes, cutAt_of_not hnone]
    refine at_iff_getElem?.mpr ?_
    intro m hm
    rw [List.length_append, List.length_singleton] at hm
    have huntouched : ¬ Touched data (start + m) := by
      rintro ⟨i, hi, hm'⟩
      exact hnone _ (at_string_of_at h hstart hi (by omega) (by omega)).2
    rw [getElem?_of_not_touched huntouched, getElem?_of_at_string h (by omega)]
  · have hle := hk.length_le borderless_tallocNeeded.1
    rw [length_tallocNeeded] at hle
    have hcut : (s.take (k + 12)).length = k + 12 := by
      rw [List.length_take]
      omega
    rw [cutBytes_of_first hk hfirst]
    refine at_iff_getElem?.mpr ?_
    intro m hm
    rw [List.length_append, hcut, List.length_singleton] at hm
    by_cases hlast : m = k + 12
    · have htouched : Touched data (start + m) :=
        ⟨start + k, at_of_at_string h hk, .inl (by omega)⟩
      rw [getElem?_of_touched htouched, List.getElem?_append_right (by omega), hcut, hlast,
        Nat.sub_self]
      rfl
    · have huntouched : ¬ Touched data (start + m) := by
        rintro ⟨i, hi, hm'⟩
        obtain ⟨hle, hat⟩ := at_string_of_at h hstart hi (by omega) (by omega)
        exact hfirst _ (by omega) hat
      rw [getElem?_of_not_touched huntouched, getElem?_of_at_string h (by omega),
        List.getElem?_append_left (by omega), List.getElem?_append_left (by omega),
        List.getElem?_take_of_lt (by omega)]

end AtString

/-! ## The image -/

/-- The bytes lie before the table or behind it. -/
def Beside (table : SectionHeader) (start size : ℕ) : Prop :=
  start + size ≤ table.offset ∨ table.offset + table.size ≤ start

instance (table : SectionHeader) (start size : ℕ) : Decidable (Beside table start size) :=
  instDecidableOr

/-- Nothing else that the reader follows overlaps with the string table. -/
structure Separate (image : Image) : Prop where
  ident : Beside (image.sectionAt image.dynstr) 0 (headerSize image.classByte)
  headers : ∀ i : Fin image.sections.length, Beside (image.sectionAt image.dynstr)
    (image.shoff + i * image.shentsize) (if image.is32 then 24 else 40)
  names : Beside (image.sectionAt image.dynstr) (image.sectionAt image.shstrtab).offset
    (image.sectionAt image.shstrtab).size
  dynamic : Beside (image.sectionAt image.dynstr) (image.sectionAt image.dynamic).offset
    (image.sectionAt image.dynamic).size

/-- The name occurs in the string table only, and no string starts inside
an occurrence. -/
structure Rewritable (image : Image) (data : List UInt8) : Prop where
  inside : ∀ i, At data i tallocNeeded → (image.sectionAt image.dynstr).offset ≤ i ∧
    i + 14 ≤ (image.sectionAt image.dynstr).offset + (image.sectionAt image.dynstr).size
  starts : ∀ entry ∈ image.entries, entry.name? ≠ none → ∀ i, At data i tallocNeeded →
    ¬ (i < (image.sectionAt image.dynstr).offset + entry.value ∧
      (image.sectionAt image.dynstr).offset + entry.value < i + 14)

theorem not_mem_cutBytes {name : List UInt8} (h : 0 ∉ name) : 0 ∉ cutBytes name := by
  obtain hnone | ⟨k, hk, hfirst⟩ := first_or_not tallocNeeded name
  · rw [cutBytes, cutAt_of_not hnone]
    exact h
  · rw [cutBytes_of_first hk hfirst]
    exact fun hmem => h (List.mem_of_mem_take hmem)

theorem length_cutBytes_le (name : List UInt8) : (cutBytes name).length ≤ name.length := by
  obtain hnone | ⟨k, hk, hfirst⟩ := first_or_not tallocNeeded name
  · rw [cutBytes, cutAt_of_not hnone]
  · rw [cutBytes_of_first hk hfirst]
    exact List.length_take_le' _ _

def cutDyn : Dyn → Dyn
  | .needed position name => .needed position (cutBytes name)
  | .soname position name => .soname position (cutBytes name)
  | entry => entry

@[simp] theorem tag_cutDyn (entry : Dyn) : (cutDyn entry).tag = entry.tag := by
  cases entry <;> rfl

@[simp] theorem value_cutDyn (entry : Dyn) : (cutDyn entry).value = entry.value := by
  cases entry <;> rfl

@[simp] theorem name?_cutDyn (entry : Dyn) : (cutDyn entry).name? = entry.name?.map cutBytes := by
  cases entry <;> rfl

@[simp] theorem needed?_cutDyn (entry : Dyn) :
    (cutDyn entry).needed? = entry.needed?.map cutBytes := by
  cases entry <;> rfl

@[simp] theorem soname?_cutDyn (entry : Dyn) :
    (cutDyn entry).soname? = entry.soname?.map cutBytes := by
  cases entry <;> rfl

/-- The image with its names cut. -/
def cutImage (image : Image) : Image :=
  { image with
    entries := image.entries.map cutDyn
    dynamic_size := by rw [List.length_map]; exact image.dynamic_size
    entry_names := by
      intro entry hentry name hname
      obtain ⟨entry, hmem, rfl⟩ := List.mem_map.mp hentry
      rw [name?_cutDyn] at hname
      obtain ⟨name, hsome, rfl⟩ := Option.map_eq_some_iff.mp hname
      exact not_mem_cutBytes (image.entry_names entry hmem name hsome) }

theorem live_map_cutDyn (entries : List Dyn) :
    live (entries.map cutDyn) = (live entries).map cutDyn := by
  rw [live, live, List.takeWhile_map]
  congr 1
  refine congrArg (List.takeWhile · entries) ?_
  funext entry
  simp

theorem neededNames_cutImage (image : Image) :
    (cutImage image).neededNames = image.neededNames.map cutBytes := by
  show (live (image.entries.map cutDyn)).filterMap Dyn.needed? = _
  rw [live_map_cutDyn, List.filterMap_map, Image.neededNames, List.map_filterMap]
  refine congrArg (List.filterMap · _) ?_
  funext entry
  exact needed?_cutDyn entry

theorem soname_cutImage (image : Image) :
    (cutImage image).soname = image.soname.map cutBytes := by
  show (live (image.entries.map cutDyn)).findSome? Dyn.soname? = _
  rw [live_map_cutDyn, List.findSome?_map, Image.soname, List.map_findSome?]
  refine congrArg (List.findSome? · _) ?_
  funext entry
  exact soname?_cutDyn entry

section Patched

variable {image : Image} {data : List UInt8} (hre : Rewritable image data)

include hre

/-- What lies beside the string table stays. -/
theorem at_patched {offset start size : ℕ} {piece : List UInt8}
    (hbeside : Beside (image.sectionAt image.dynstr) start size) (hstart : start ≤ offset)
    (hend : offset + piece.length ≤ start + size) (h : At data offset piece) :
    At (patched data) offset piece := by
  refine at_iff_getElem?.mpr ?_
  intro k hk
  have huntouched : ¬ Touched data (offset + k) := by
    rintro ⟨i, hi, hj⟩
    obtain ⟨hlow, hhigh⟩ := hre.inside i hi
    rcases hbeside with hbefore | hbehind <;> omega
  rw [getElem?_of_not_touched huntouched, h.getElem? hk]

theorem field_patched {endian : Endian} {offset start size width n : ℕ}
    (hbeside : Beside (image.sectionAt image.dynstr) start size) (hstart : start ≤ offset)
    (hend : offset + width ≤ start + size) (h : Field endian data offset width n) :
    Field endian (patched data) offset width n :=
  ⟨h.1, at_patched hre hbeside hstart (by rwa [Endian.length_bytes]) h.2⟩

theorem headerAt_patched {is32 : Bool} {endian : Endian} {offset : ℕ} {header : SectionHeader}
    (hbeside : Beside (image.sectionAt image.dynstr) offset (if is32 then 24 else 40))
    (h : HeaderAt is32 endian data offset header) :
    HeaderAt is32 endian (patched data) offset header := by
  obtain ⟨hname, htype, hrest⟩ := h
  cases is32 with
  | true =>
      have hsize : (if true = true then 24 else 40) = 24 := rfl
      rw [hsize] at hbeside
      exact ⟨field_patched hre hbeside (by omega) (by omega) hname,
        field_patched hre hbeside (by omega) (by omega) htype,
        field_patched hre hbeside (by omega) (by omega) hrest.1,
        field_patched hre hbeside (by omega) (by omega) hrest.2⟩
  | false =>
      have hsize : (if false = true then 24 else 40) = 40 := rfl
      rw [hsize] at hbeside
      exact ⟨field_patched hre hbeside (by omega) (by omega) hname,
        field_patched hre hbeside (by omega) (by omega) htype,
        field_patched hre hbeside (by omega) (by omega) hrest.1,
        field_patched hre hbeside (by omega) (by omega) hrest.2⟩

/-- An entry outside the string table now refers to the string cut. -/
theorem entryAt_patched {width : ℕ} {endian : Endian} {offset start size : ℕ} {entry : Dyn}
    (hmem : entry ∈ image.entries)
    (hbeside : Beside (image.sectionAt image.dynstr) start size) (hstart : start ≤ offset)
    (hend : offset + 2 * width ≤ start + size)
    (h : EntryAt width endian data (image.sectionAt image.dynstr) offset entry) :
    EntryAt width endian (patched data) (image.sectionAt image.dynstr) offset (cutDyn entry) := by
  obtain ⟨hrange, htag, hvalue, hname⟩ := h
  refine ⟨?_, ?_, ?_, ?_⟩
  · rwa [tag_cutDyn]
  · rw [tag_cutDyn]
    exact at_patched hre hbeside hstart (by rw [Endian.length_bytes]; omega) htag
  · rw [value_cutDyn]
    exact field_patched hre hbeside (by omega) (by omega) hvalue
  · intro name' hname'
    rw [name?_cutDyn] at hname'
    obtain ⟨name, hsome, rfl⟩ := Option.map_eq_some_iff.mp hname'
    obtain ⟨hat, hlength⟩ := hname name hsome
    have hnul := image.entry_names entry hmem name hsome
    have hstarts := hre.starts entry hmem (by rw [hsome]; exact nofun)
    rw [value_cutDyn]
    exact ⟨at_cutBytes hat hstarts, by have := length_cutBytes_le name; omega⟩

theorem entriesAt_patched {width : ℕ} {endian : Endian} {entries : List Dyn}
    (hmem : ∀ entry ∈ entries, entry ∈ image.entries) {offset start size : ℕ}
    (hbeside : Beside (image.sectionAt image.dynstr) start size) (hstart : start ≤ offset)
    (hend : offset + 2 * width * entries.length ≤ start + size)
    (h : EntriesAt width endian data (image.sectionAt image.dynstr) offset entries) :
    EntriesAt width endian (patched data) (image.sectionAt image.dynstr) offset
      (entries.map cutDyn) := by
  induction entries generalizing offset with
  | nil => trivial
  | cons entry entries ih =>
      obtain ⟨hentry, hrest⟩ := h
      obtain ⟨hfirst, hmem⟩ := List.forall_mem_cons.mp hmem
      rw [List.length_cons, Nat.mul_succ] at hend
      exact ⟨entryAt_patched hre hfirst hbeside hstart (by omega) hentry,
        ih hmem (by omega) (by omega) hrest⟩

/-- The fields of the ELF header. -/
theorem fileField_patched (hsep : Separate image) {offset32 offset64 width n : ℕ}
    (hend : (if image.is32 then offset32 else offset64) + width
      ≤ if image.is32 then 0x34 else 0x40)
    (h : Field image.endian data (if image.is32 then offset32 else offset64) width n) :
    Field image.endian (patched data) (if image.is32 then offset32 else offset64) width n := by
  have hsize : headerSize image.classByte = if image.is32 then 0x34 else 0x40 := by
    rw [headerSize, Image.classByte]
    cases image.is32 <;> rfl
  refine field_patched hre hsep.ident (Nat.zero_le _) ?_ h
  rwa [hsize, Nat.zero_add]

/-- The rewritten file is the image with its names cut. -/
theorem encodes_patched (h : image.Encodes data) (hsep : Separate image) :
    (cutImage image).Encodes (patched data) := by
  have hident := at_patched hre hsep.ident (Nat.zero_le _)
    (by rw [headerSize]; split <;> simp [elfMagic]) h.ident
  have hshoff := fileField_patched hre hsep
    (by rw [Image.width]; cases image.is32 <;> decide) h.shoff
  have hshentsize := fileField_patched hre hsep (by cases image.is32 <;> decide) h.shentsize
  have hshnum := fileField_patched hre hsep (by cases image.is32 <;> decide) h.shnum
  have hshstrndx := fileField_patched hre hsep (by cases image.is32 <;> decide) h.shstrndx
  have hnames : ∀ i, StringIn (patched data) (image.sectionAt image.shstrtab)
      (image.sectionAt i).name (image.sections.get i).name := by
    intro i
    obtain ⟨hat, hlength⟩ := h.names i
    refine ⟨at_patched hre hsep.names (Nat.le_add_right _ _) ?_ hat, hlength⟩
    rw [List.length_append, List.length_singleton]
    omega
  have hentries := entriesAt_patched hre (fun _ => id) hsep.dynamic (Nat.le_refl _)
    (by rw [image.size_dynamic]) h.entries
  exact ⟨hident, hshoff, hshentsize, hshnum, hshstrndx,
    fun i => headerAt_patched hre (hsep.headers i) (h.headers i), hnames, hentries⟩

end Patched

/-! ## The small file -/

theorem separate_sample : Separate sampleImage where
  ident := by decide
  headers := by decide
  names := by decide
  dynamic := by decide

theorem at_sample {i : ℕ} (h : At sampleBytes i tallocNeeded) : i = 81 := by
  have hle := h.length_le borderless_tallocNeeded.1
  have hplaces : (sampleBytes.tails.zipIdx.filter (tallocNeeded <+: ·.1)).map (·.2) = [81] := by
    decide
  have hmem : (sampleBytes.drop i, i) ∈ sampleBytes.tails.zipIdx := by
    rw [List.mem_zipIdx_iff_getElem?, List.getElem?_eq_getElem (by rw [List.length_tails]; omega),
      List.getElem_tails]
  have hfound : i ∈ [81] := by
    rw [← hplaces]
    exact List.mem_map.mpr ⟨_, List.mem_filter.mpr ⟨hmem, decide_eq_true h⟩, rfl⟩
  exact List.mem_singleton.mp hfound

theorem rewritable_sample : Rewritable sampleImage sampleBytes where
  inside i h := by
    obtain rfl := at_sample h
    decide
  starts := by
    have hall : ∀ entry ∈ sampleImage.entries,
        ¬ (81 < (sampleImage.sectionAt sampleImage.dynstr).offset + entry.value ∧
          (sampleImage.sectionAt sampleImage.dynstr).offset + entry.value < 81 + 14) := by
      decide
    intro entry hentry _ i h
    obtain rfl := at_sample h
    exact hall entry hentry

/-- In a well-formed file whose string table holds all occurrences, the
rewrite keeps the length, changes only the last two bytes of each, leaves
none, and the reader sees each name cut. -/
theorem rewrite_seen_by_reader (path : String) {image : Image} {data : List UInt8}
    (h : image.Encodes data) (hsep : Separate image) (hre : Rewritable image data)
    {name : String} (hname : name ∈ ["libproot.so", "libtalloc.so"]) {out : Out}
    (hfile : out name = some data) :
    ∃ out' printed patched, patchTallocNames out = .ok (out', printed) ∧
      out' name = some patched ∧ patched.length = data.length ∧
      (∀ j, patched[j]? ≠ data[j]? → ∃ i, At data i tallocNeeded ∧ (j = i + 12 ∨ j = i + 13)) ∧
      (∀ i, ¬ At patched i tallocNeeded) ∧
      elfDynamicNeeded path patched = (elfDynamicNeeded path data).map (List.map cutText) ∧
      elfSoname path patched = (elfSoname path data).map (Option.map cutText) := by
  have hnodup : ["libproot.so", "libtalloc.so"].Nodup := by decide
  obtain ⟨out', printed, hrun, hout'⟩ := patchNames_eq hnodup out
  have hpatched := encodes_patched hre h hsep
  have htext : text ∘ cutBytes = cutText ∘ text := funext text_cutBytes
  refine ⟨out', printed, patched data, hrun, ?_, length_patched data, ?_, not_at_patched data, ?_,
    ?_⟩
  · rw [hout', if_pos hname, hfile]
    rfl
  · intro j hj
    exact by_contra fun huntouched => hj (getElem?_of_not_touched huntouched)
  · rw [hpatched.elfDynamicNeeded_eq, h.elfDynamicNeeded_eq, neededNames_cutImage, List.map_map,
      htext, ← List.map_map]
    rfl
  · rw [hpatched.elfSoname_eq, h.elfSoname_eq, soname_cutImage, Option.map_map, htext,
      ← Option.map_map]
    rfl

/-- A library that needs talloc. -/
theorem rewrite_sample : ∃ out' printed patched,
    patchTallocNames (Function.update (fun _ => none) "libproot.so" (some sampleBytes))
      = .ok (out', printed) ∧ out' "libproot.so" = some patched ∧
    elfDynamicNeeded "libproot.so" patched = .ok ["libtalloc.so".toList, "libc.so".toList] := by
  obtain ⟨out', printed, patched, hrun, hout', -, -, -, hneeded, -⟩ :=
    rewrite_seen_by_reader "libproot.so" encodes_sample separate_sample rewritable_sample
      List.mem_cons_self (Function.update_self "libproot.so" (some sampleBytes) fun _ => none)
  refine ⟨out', printed, patched, hrun, hout', ?_⟩
  rw [hneeded]
  decide +kernel

end TallocPatch

end Zmux
