import Zmux.ElfScan

/-!
# What an encoder writes

An `Image` is what a shared object with a dynamic section says: its class
and byte order, where its section headers are, the sections with their
names, and the dynamic entries with the names they refer to. `Encodes` lays
it out in a file, and leaves open what lies between. The reader gets out of
any such file the names that were written (`reader_decodes`).
-/

namespace Zmux

namespace ElfScan

/-! ## Images -/

structure Section where
  name : List UInt8
  header : SectionHeader

/-- A dynamic entry, and the string at its position in the table. -/
inductive Dyn where
  | null (value : ℕ)
  | needed (position : ℕ) (name : List UInt8)
  | soname (position : ℕ) (name : List UInt8)
  | other (tag : ℤ) (value : ℕ) (h : tag ≠ 0 ∧ tag ≠ dtNeeded ∧ tag ≠ dtSoname)

namespace Dyn

def tag : Dyn → ℤ
  | .null _ => 0
  | .needed .. => dtNeeded
  | .soname .. => dtSoname
  | .other tag .. => tag

def value : Dyn → ℕ
  | .null value | .other _ value _ => value
  | .needed position _ | .soname position _ => position

def name? : Dyn → Option (List UInt8)
  | .needed _ name | .soname _ name => some name
  | .null _ | .other .. => none

def needed? : Dyn → Option (List UInt8)
  | .needed _ name => some name
  | _ => none

def soname? : Dyn → Option (List UInt8)
  | .soname _ name => some name
  | _ => none

end Dyn

/-- The entries up to `DT_NULL`. -/
def live (entries : List Dyn) : List Dyn := entries.takeWhile (·.tag ≠ 0)

def dynstrName : List UInt8 := [0x2e, 0x64, 0x79, 0x6e, 0x73, 0x74, 0x72]

/-- There is one dynamic section and one `.dynstr`, which is not the table
of the section names. -/
structure Image where
  is32 : Bool
  endian : Endian
  shoff : ℕ
  shentsize : ℕ
  sections : List Section
  shstrtab : Fin sections.length
  dynamic : Fin sections.length
  dynstr : Fin sections.length
  entries : List Dyn
  shoff_ne : shoff ≠ 0
  shentsize_ne : shentsize ≠ 0
  shstrtab_type : (sections.get shstrtab).header.type = shtStrtab
  dynamic_type : ∀ i, (sections.get i).header.type = shtDynamic ↔ i = dynamic
  dynstr_type : (sections.get dynstr).header.type = shtStrtab
  dynstr_name : ∀ i ≠ shstrtab, (sections.get i).name = dynstrName ↔ i = dynstr
  dynstr_ne : dynstr ≠ shstrtab
  dynamic_size : (sections.get dynamic).header.size = (if is32 then 8 else 16) * entries.length
  section_names : ∀ s ∈ sections, 0 ∉ s.name
  entry_names : ∀ entry ∈ entries, ∀ name ∈ entry.name?, 0 ∉ name

/-! ## Files -/

/-- The number is written at the offset. -/
def Field (endian : Endian) (data : List UInt8) (offset width n : ℕ) : Prop :=
  n < 256 ^ width ∧ At data offset (endian.bytes width n)

/-- The string is in the table, with its zero. -/
def StringIn (data : List UInt8) (table : SectionHeader) (position : ℕ) (s : List UInt8) : Prop :=
  At data (table.offset + position) (s ++ [0]) ∧ position + s.length < table.size

instance (endian : Endian) (data : List UInt8) (offset width n : ℕ) :
    Decidable (Field endian data offset width n) := instDecidableAnd

instance (data : List UInt8) (table : SectionHeader) (position : ℕ) (s : List UInt8) :
    Decidable (StringIn data table position s) := instDecidableAnd

def HeaderAt (is32 : Bool) (endian : Endian) (data : List UInt8) (offset : ℕ)
    (header : SectionHeader) : Prop :=
  Field endian data offset 4 header.name ∧ Field endian data (offset + 4) 4 header.type ∧
    if is32 then Field endian data (offset + 16) 4 header.offset ∧
      Field endian data (offset + 20) 4 header.size
    else Field endian data (offset + 0x18) 8 header.offset ∧
      Field endian data (offset + 0x20) 8 header.size

instance (is32 : Bool) (endian : Endian) (data : List UInt8) (offset : ℕ)
    (header : SectionHeader) : Decidable (HeaderAt is32 endian data offset header) :=
  instDecidableAnd

/-- The tag and the value, of this width each, and the string. -/
def EntryAt (width : ℕ) (endian : Endian) (data : List UInt8) (dynstr : SectionHeader)
    (offset : ℕ) (entry : Dyn) : Prop :=
  (-(256 ^ width : ℕ) ≤ 2 * entry.tag ∧ 2 * entry.tag < (256 ^ width : ℕ)) ∧
    At data offset (endian.bytes width (unsigned width entry.tag)) ∧
    Field endian data (offset + width) width entry.value ∧
    ∀ name ∈ entry.name?, StringIn data dynstr entry.value name

instance (width : ℕ) (endian : Endian) (data : List UInt8) (dynstr : SectionHeader) (offset : ℕ)
    (entry : Dyn) : Decidable (EntryAt width endian data dynstr offset entry) :=
  instDecidableAnd

def EntriesAt (width : ℕ) (endian : Endian) (data : List UInt8) (dynstr : SectionHeader) :
    (offset : ℕ) → List Dyn → Prop
  | _, [] => True
  | offset, entry :: entries => EntryAt width endian data dynstr offset entry ∧
      EntriesAt width endian data dynstr (offset + 2 * width) entries

namespace Image

/-- The width of an address. -/
def width (image : Image) : ℕ := if image.is32 then 4 else 8

def sectionAt (image : Image) (i : Fin image.sections.length) : SectionHeader :=
  (image.sections.get i).header

def classByte (image : Image) : UInt8 := if image.is32 then 1 else 2

def orderByte (image : Image) : UInt8 :=
  match image.endian with
  | .little => 1
  | .big => 2

structure Encodes (image : Image) (data : List UInt8) : Prop where
  ident : At data 0 (elfMagic ++ [image.classByte, image.orderByte])
  shoff : Field image.endian data (if image.is32 then 0x20 else 0x28) image.width image.shoff
  shentsize : Field image.endian data (if image.is32 then 0x2E else 0x3A) 2 image.shentsize
  shnum : Field image.endian data (if image.is32 then 0x30 else 0x3C) 2 image.sections.length
  shstrndx : Field image.endian data (if image.is32 then 0x32 else 0x3E) 2 image.shstrtab
  headers : ∀ i : Fin image.sections.length, HeaderAt image.is32 image.endian data
    (image.shoff + i * image.shentsize) (image.sectionAt i)
  names : ∀ i, StringIn data (image.sectionAt image.shstrtab) (image.sectionAt i).name
    (image.sections.get i).name
  entries : EntriesAt image.width image.endian data (image.sectionAt image.dynstr)
    (image.sectionAt image.dynamic).offset image.entries

def neededNames (image : Image) : List (List UInt8) := (live image.entries).filterMap Dyn.needed?

def soname (image : Image) : Option (List UInt8) := (live image.entries).findSome? Dyn.soname?

end Image

/-! ## Reading it -/

theorem Field.word_eq {endian : Endian} {data : List UInt8} {offset width n : ℕ}
    (h : Field endian data offset width n) : word endian data offset width = n :=
  word_of_at h.2 h.1

theorem Field.le_length {endian : Endian} {data : List UInt8} {offset width n : ℕ}
    (h : Field endian data offset width n) (hwidth : 0 < width) : offset + width ≤ data.length := by
  have hlength : (endian.bytes width n).length = width := Endian.length_bytes _ _ _
  have hle := h.2.length_le (List.ne_nil_of_length_pos (by omega))
  rwa [hlength] at hle

theorem find?_unique {α : Type*} {p : α → Bool} {xs : List α} {a : α} (ha : a ∈ xs) (hp : p a)
    (hunique : ∀ b ∈ xs, p b → b = a) : xs.find? p = some a := by
  cases hfind : xs.find? p with
  | none => exact absurd hp (by simpa using List.find?_eq_none.mp hfind a ha)
  | some b => rw [hunique b (List.mem_of_find?_eq_some hfind) (List.find?_some hfind)]

theorem text_word {word : List UInt8} (hword : ∀ b ∈ word, b.toNat < 0x80) (hne : word ≠ [])
    (front back : List UInt8) :
    text (front ++ (word ++ back)) = text front ++ (Utf8.ofAscii word ++ text back) :=
  Utf8.decodeFrom_word hword hne .start front back

theorem text_ascii {word : List UInt8} (hword : ∀ b ∈ word, b.toNat < 0x80) :
    text word = Utf8.ofAscii word := by
  cases word with
  | nil => rfl
  | cons b word =>
      have h := text_word hword (List.cons_ne_nil b word) [] []
      rw [List.nil_append, List.append_nil] at h
      exact h.trans (List.append_nil _)

theorem ascii_of_all {word : List UInt8} (h : word.all (·.toNat < 0x80) = true) :
    ∀ b ∈ word, b.toNat < 0x80 := by
  simpa using h

/-- The replacement character is not ASCII. -/
theorem replacement_beyond : ∀ c ∈ ['\ufffd'], 0x80 ≤ c.toNat := by
  intro c hc
  rw [List.mem_singleton.mp hc]
  decide

/-- ASCII text is that of its bytes only. -/
theorem text_eq_iff {word bytes : List UInt8} (hword : ∀ b ∈ word, b.toNat < 0x80) :
    text bytes = Utf8.ofAscii word ↔ bytes = word := by
  constructor
  · intro h
    rw [← List.append_nil (Utf8.ofAscii word)] at h
    obtain ⟨back, rfl, hback⟩ :=
      Utf8.prefix_of_decode (List.cons_ne_nil _ _) replacement_beyond hword h
    rw [Utf8.eq_nil_of_decode (List.cons_ne_nil _ _) hback, List.append_nil]
  · rintro rfl
    exact text_ascii hword

theorem readString_of_stringIn {data : List UInt8} {table : SectionHeader} {position : ℕ}
    {s : List UInt8} (h : StringIn data table position s) (hs : 0 ∉ s) :
    readString data (table.offset + position) (table.offset + table.size) = .ok (text s) := by
  have hterminated : Terminated data (table.offset + position) (table.offset + table.size) :=
    terminated_of_at h.1 (by have := h.2; omega)
  rw [(guarded_readString data _ _).ok hterminated, cString_of_at h.1 hs]

section Entries

variable {file : File} {width : ℕ} {dynstr : SectionHeader}

theorem readEntry_of_entryAt (hsize : file.entrySize = 2 * width) (hwidth : 0 < width)
    {offset : ℕ} {entry : Dyn} (h : EntryAt width file.endian file.data dynstr offset entry) :
    file.readEntry offset = .ok (entry.tag, entry.value) := by
  obtain ⟨hrange, htag, hvalue, -⟩ := h
  have hhalf : file.entrySize / 2 = width := by omega
  have hfits : offset + file.entrySize ≤ file.data.length := by
    have := hvalue.le_length hwidth
    omega
  rw [(file.guarded_readEntry offset).ok hfits, File.entry, hhalf,
    word_of_at htag (unsigned_lt width _), hvalue.word_eq, signed_unsigned hrange.1 hrange.2]

theorem neededFrom_of_entriesAt (hsize : file.entrySize = 2 * width) (hwidth : 0 < width)
    {entries : List Dyn} {offset : ℕ}
    (h : EntriesAt width file.endian file.data dynstr offset entries)
    (hnames : ∀ entry ∈ entries, ∀ name ∈ entry.name?, 0 ∉ name) :
    file.neededFrom dynstr entries.length offset
      = .ok (((live entries).filterMap Dyn.needed?).map text) := by
  induction entries generalizing offset with
  | nil => rfl
  | cons entry entries ih =>
      obtain ⟨hentry, hrest⟩ := h
      obtain ⟨hname, hnames⟩ := List.forall_mem_cons.mp hnames
      have hread := readEntry_of_entryAt hsize hwidth hentry
      have hstring := hentry.2.2.2
      rw [← hsize] at hrest
      have hnext := ih hrest hnames
      rw [List.length_cons, File.neededFrom, hread]
      cases entry with
      | null value => rfl
      | needed position name =>
          have hin := hstring name rfl
          have hstart : ¬ dynstr.offset + position ≥ dynstr.offset + dynstr.size := by
            have hposition : position + name.length < dynstr.size := hin.2
            omega
          refine (if_neg hstart).trans ?_
          rw [readString_of_stringIn hin (hname name rfl), hnext]
          rfl
      | soname position name => exact hnext
      | other tag value htag =>
          have hlive : live (.other tag value htag :: entries)
              = .other tag value htag :: live entries :=
            List.takeWhile_cons_of_pos (decide_eq_true htag.1)
          refine (if_neg htag.1).trans ((if_pos htag.2.1).trans ?_)
          rw [hnext, hlive]
          rfl

theorem stringFrom_of_entriesAt (hsize : file.entrySize = 2 * width) (hwidth : 0 < width)
    {entries : List Dyn} {offset : ℕ}
    (h : EntriesAt width file.endian file.data dynstr offset entries)
    (hnames : ∀ entry ∈ entries, ∀ name ∈ entry.name?, 0 ∉ name) :
    file.stringFrom dynstr dtSoname entries.length offset
      = .ok (((live entries).findSome? Dyn.soname?).map text) := by
  induction entries generalizing offset with
  | nil => rfl
  | cons entry entries ih =>
      obtain ⟨hentry, hrest⟩ := h
      obtain ⟨hname, hnames⟩ := List.forall_mem_cons.mp hnames
      have hread := readEntry_of_entryAt hsize hwidth hentry
      have hstring := hentry.2.2.2
      rw [← hsize] at hrest
      have hnext := ih hrest hnames
      rw [List.length_cons, File.stringFrom, hread]
      cases entry with
      | null value => rfl
      | needed position name => exact hnext
      | soname position name =>
          show (readString _ _ _ >>= fun name => Except.ok (some name)) = _
          rw [readString_of_stringIn (hstring name rfl) (hname name rfl)]
          rfl
      | other tag value htag =>
          have hlive : live (.other tag value htag :: entries)
              = .other tag value htag :: live entries :=
            List.takeWhile_cons_of_pos (decide_eq_true htag.1)
          refine (if_neg htag.1).trans ((if_pos htag.2.2).trans ?_)
          rw [hnext, hlive]
          rfl

end Entries

namespace Image

/-- What the reader makes of the ELF header. -/
def file (image : Image) (data : List UInt8) : File :=
  ⟨data, image.is32, image.endian, image.shoff, image.shentsize, image.sections.length,
    image.shstrtab⟩

theorem entrySize_eq (image : Image) (data : List UInt8) :
    (image.file data).entrySize = 2 * image.width := by
  rw [File.entrySize, file, width]
  cases image.is32 <;> rfl

theorem width_pos (image : Image) : 0 < image.width := by
  rw [width]
  cases image.is32 <;> decide

theorem size_dynamic (image : Image) :
    (image.sectionAt image.dynamic).size = 2 * image.width * image.entries.length := by
  have hsize : (image.sectionAt image.dynamic).size
      = (if image.is32 then 8 else 16) * image.entries.length := image.dynamic_size
  rw [hsize, width]
  cases image.is32 <;> rfl

theorem entryCount_eq (image : Image) (data : List UInt8) :
    (image.file data).entryCount (image.sectionAt image.dynamic) = image.entries.length := by
  have hpos : 0 < 2 * image.width := Nat.mul_pos (by decide) image.width_pos
  rw [File.entryCount, entrySize_eq, size_dynamic, Nat.add_sub_assoc hpos, Nat.mul_add_div hpos,
    Nat.div_eq_of_lt (by omega), Nat.add_zero]

namespace Encodes

variable {image : Image} {data : List UInt8} (h : image.Encodes data)

include h

theorem ident_eq : data.take 4 = elfMagic ∧ 5 < data.length ∧ data.getD 4 0 = image.classByte ∧
    data.getD 5 0 = image.orderByte := by
  obtain ⟨rest, hrest⟩ := h.ident
  rw [List.drop_zero] at hrest
  subst hrest
  exact ⟨rfl, by simp [elfMagic], rfl, rfl⟩

theorem fileOf_eq : fileOf data image.classByte image.orderByte = image.file data := by
  have horder : (if image.orderByte = 1 then Endian.little else .big) = image.endian := by
    rw [orderByte]
    cases image.endian <;> rfl
  have hshoff := h.shoff.word_eq
  have hshentsize := h.shentsize.word_eq
  have hshnum := h.shnum.word_eq
  have hshstrndx := h.shstrndx.word_eq
  rw [fileOf, file, classByte, horder]
  rw [width] at hshoff
  cases h32 : image.is32 <;> rw [h32] at hshoff hshentsize hshnum hshstrndx
  · exact congr (congr (congr (congrArg _ hshoff) hshentsize) hshnum) hshstrndx
  · exact congr (congr (congr (congrArg _ hshoff) hshentsize) hshnum) hshstrndx

theorem headerSize_le : headerSize image.classByte ≤ data.length := by
  have hshstrndx := h.shstrndx.le_length (by decide)
  rw [headerSize, classByte]
  cases h32 : image.is32 <;> rw [h32] at hshstrndx <;> exact hshstrndx

theorem headerFits (i : Fin image.sections.length) : (image.file data).HeaderFits i := by
  obtain ⟨-, -, hrest⟩ := h.headers i
  rw [File.HeaderFits, file]
  cases h32 : image.is32 <;> rw [h32] at hrest
  · have hsize := hrest.2.le_length (by decide)
    exact hsize
  · have hsize := hrest.2.le_length (by decide)
    exact hsize

theorem header_eq (i : Fin image.sections.length) :
    (image.file data).header i = image.sectionAt i := by
  obtain ⟨hname, htype, hrest⟩ := h.headers i
  rw [File.header, file]
  cases h32 : image.is32 <;> rw [h32] at hrest
  · exact congr (congr (congr (congrArg _ hname.word_eq) htype.word_eq) hrest.1.word_eq)
      hrest.2.word_eq
  · exact congr (congr (congr (congrArg _ hname.word_eq) htype.word_eq) hrest.1.word_eq)
      hrest.2.word_eq

theorem sectionsReadable : ∀ index ∈ List.range image.sections.length,
    (image.file data).SectionReadable (image.sectionAt image.shstrtab) index := by
  intro index hindex
  have hheader := h.header_eq ⟨index, List.mem_range.mp hindex⟩
  have hname := h.names ⟨index, List.mem_range.mp hindex⟩
  refine ⟨h.headerFits ⟨index, List.mem_range.mp hindex⟩, fun _ => ?_⟩
  rw [hheader]
  exact terminated_of_at hname.1 (by have := hname.2; omega)

theorem nameOf_eq (i : Fin image.sections.length) :
    (image.file data).nameOf (image.sectionAt image.shstrtab) (image.sectionAt i).name
      = text (image.sections.get i).name :=
  congrArg text (cString_of_at (h.names i).1 (image.section_names _ (List.get_mem _ _)))

theorem mem_others {header : SectionHeader} :
    header ∈ (image.file data).others (List.range image.sections.length) ↔
      ∃ i ≠ image.shstrtab, header = image.sectionAt i := by
  simp only [File.others, List.mem_map, List.mem_filter, List.mem_range, decide_eq_true_iff]
  constructor
  · rintro ⟨index, ⟨hindex, hne⟩, rfl⟩
    exact ⟨⟨index, hindex⟩, fun heq => hne (congrArg Fin.val heq), h.header_eq ⟨index, hindex⟩⟩
  · rintro ⟨i, hne, rfl⟩
    exact ⟨i, ⟨i.isLt, fun heq => hne (Fin.ext heq)⟩, h.header_eq i⟩

theorem firstDynamic_eq : (image.file data).firstDynamic (List.range image.sections.length)
    = some (image.sectionAt image.dynamic) := by
  have htype : (image.sectionAt image.dynamic).type = shtDynamic :=
    (image.dynamic_type image.dynamic).mpr rfl
  have hne : image.dynamic ≠ image.shstrtab := by
    intro heq
    rw [heq] at htype
    exact absurd (image.shstrtab_type.symm.trans htype) (by decide)
  refine find?_unique (h.mem_others.mpr ⟨image.dynamic, hne, rfl⟩) (decide_eq_true htype) ?_
  intro header hheader hp
  obtain ⟨i, -, rfl⟩ := h.mem_others.mp hheader
  rw [(image.dynamic_type i).mp (of_decide_eq_true hp)]

theorem isDynstr_iff (i : Fin image.sections.length) :
    (image.file data).isDynstr (image.sectionAt image.shstrtab) (image.sectionAt i) ↔
      (image.sections.get i).name = dynstrName ∧ (image.sectionAt i).type = shtStrtab := by
  have hname : ".dynstr".toList = Utf8.ofAscii dynstrName := by decide
  rw [File.isDynstr_iff, h.nameOf_eq, hname, text_eq_iff (ascii_of_all rfl)]

theorem lastDynstr_eq : (image.file data).lastDynstr (image.sectionAt image.shstrtab)
    (List.range image.sections.length) = some (image.sectionAt image.dynstr) := by
  have hmem : image.sectionAt image.dynstr
      ∈ (image.file data).others (List.range image.sections.length) :=
    h.mem_others.mpr ⟨image.dynstr, image.dynstr_ne, rfl⟩
  have hname := (image.dynstr_name image.dynstr image.dynstr_ne).mpr rfl
  refine find?_unique (List.mem_reverse.mpr hmem)
    ((h.isDynstr_iff image.dynstr).mpr ⟨hname, image.dynstr_type⟩) ?_
  intro header hheader hp
  obtain ⟨i, hne, rfl⟩ := h.mem_others.mp (List.mem_reverse.mp hheader)
  rw [(image.dynstr_name i hne).mp ((h.isDynstr_iff i).mp hp).1]

theorem sectionHeader_shstrtab : (image.file data).sectionHeader (image.file data).shstrndx
    = .ok (image.sectionAt image.shstrtab) := by
  have hheader := h.header_eq image.shstrtab
  rw [← hheader]
  exact (File.guarded_sectionHeader _ _).ok (h.headerFits image.shstrtab)

theorem findSections_eq : (image.file data).findSections (image.sectionAt image.shstrtab)
    (List.range (image.file data).shnum) none none
      = .ok (some (image.sectionAt image.dynamic), some (image.sectionAt image.dynstr)) := by
  have hfound := (File.guarded_findSections (image.file data) (image.sectionAt image.shstrtab)
    (List.range image.sections.length) none none).ok h.sectionsReadable
  rw [h.firstDynamic_eq, h.lastDynstr_eq] at hfound
  exact hfound

theorem elfDynamicNeeded_eq (path : String) :
    elfDynamicNeeded path data = .ok (image.neededNames.map text) := by
  obtain ⟨hmagic, hlength, hclass, horder⟩ := h.ident_eq
  have hknown : ¬ (image.classByte ≠ 1 ∧ image.classByte ≠ 2) := by
    rw [classByte]
    cases image.is32 <;> decide
  have htable : ¬ ((image.file data).shoff = 0 ∨ (image.file data).shnum = 0 ∨
      (image.file data).shentsize = 0) := by
    have hlength : image.sections.length ≠ 0 := (Fin.pos image.dynstr).ne'
    exact not_or_intro image.shoff_ne (not_or_intro hlength image.shentsize_ne)
  have htype : (image.sectionAt image.shstrtab).type = shtStrtab := image.shstrtab_type
  have hread := neededFrom_of_entriesAt (image.entrySize_eq data) image.width_pos h.entries
    image.entry_names
  rw [← image.entryCount_eq data] at hread
  rw [elfDynamicNeeded, if_neg (not_not_intro hmagic),
    (guarded_byteAt data 4).bind_ok (Nat.lt_of_succ_lt hlength),
    (guarded_byteAt data 5).bind_ok hlength, hclass, horder, if_neg hknown,
    (guarded_readFile data _ _).bind_ok h.headerSize_le, h.fileOf_eq, if_neg htable,
    bind_of_ok h.sectionHeader_shstrtab, if_neg (not_not_intro htype),
    bind_of_ok h.findSections_eq]
  exact hread

theorem elfSoname_eq (path : String) : elfSoname path data = .ok (image.soname.map text) := by
  obtain ⟨hmagic, hlength, hclass, horder⟩ := h.ident_eq
  have hread := stringFrom_of_entriesAt (image.entrySize_eq data) image.width_pos h.entries
    image.entry_names
  rw [← image.entryCount_eq data] at hread
  have hstring : elfDynamicString path data dtSoname = .ok (image.soname.map text) := by
    rw [elfDynamicString, if_neg (not_not_intro hmagic),
      (guarded_byteAt data 4).bind_ok (Nat.lt_of_succ_lt hlength),
      (guarded_byteAt data 5).bind_ok hlength, hclass, horder,
      (guarded_readFile data _ _).bind_ok h.headerSize_le, h.fileOf_eq,
      bind_of_ok h.sectionHeader_shstrtab, bind_of_ok h.findSections_eq]
    exact hread
  rw [elfSoname, hstring]

end Encodes

end Image

/-! ## A small file -/

def sampleNames : List (List Char) := ["libtalloc.so.2".toList, "libc.so".toList]

def sampleSoname : List Char := "libproot.so".toList

def sampleSections : List Section :=
  [⟨[], 0, 0, 0, 0⟩,
    ⟨dynstrName, 1, shtStrtab, 80, 36⟩,
    ⟨Utf8.encode ".dynamic".toList, 9, shtDynamic, 116, 40⟩,
    ⟨Utf8.encode ".shstrtab".toList, 18, shtStrtab, 52, 28⟩]

def sampleImage : Image where
  is32 := true
  endian := .big
  shoff := 156
  shentsize := 40
  sections := sampleSections
  shstrtab := ⟨3, by decide⟩
  dynamic := ⟨2, by decide⟩
  dynstr := ⟨1, by decide⟩
  entries := [.needed 1 (Utf8.encode "libtalloc.so.2".toList),
    .needed 16 (Utf8.encode "libc.so".toList), .soname 24 (Utf8.encode sampleSoname),
    .other 5 80 (by decide), .null 0]
  shoff_ne := by decide
  shentsize_ne := by decide
  shstrtab_type := rfl
  dynamic_type := by decide
  dynstr_type := rfl
  dynstr_name := by decide
  dynstr_ne := by decide
  dynamic_size := rfl
  section_names := by decide
  entry_names := by decide

def sampleHeader (header : SectionHeader) : List UInt8 :=
  Endian.big.bytes 4 header.name ++ Endian.big.bytes 4 header.type ++ List.replicate 8 0
    ++ Endian.big.bytes 4 header.offset ++ Endian.big.bytes 4 header.size ++ List.replicate 16 0

def sampleBytes : List UInt8 :=
  elfMagic ++ [1, 2] ++ List.replicate 26 0 ++ Endian.big.bytes 4 156 ++ List.replicate 10 0
    ++ Endian.big.bytes 2 40 ++ Endian.big.bytes 2 4 ++ Endian.big.bytes 2 3
    ++ Utf8.encode "\x00.dynstr\x00.dynamic\x00.shstrtab\x00".toList
    ++ Utf8.encode "\x00libtalloc.so.2\x00libc.so\x00libproot.so\x00".toList
    ++ [(1, 1), (1, 16), (14, 24), (5, 80), (0, 0)].flatMap
      (fun entry => Endian.big.bytes 4 entry.1 ++ Endian.big.bytes 4 entry.2)
    ++ (sampleSections.map (·.header)).flatMap sampleHeader

theorem encodes_sample : sampleImage.Encodes sampleBytes where
  ident := by decide
  shoff := by decide
  shentsize := by decide
  shnum := by decide
  shstrndx := by decide
  headers := by decide
  names := by decide
  entries := by
    refine ⟨?_, ?_, ?_, ?_, ?_, trivial⟩ <;> decide

/-- The reader gets out of a file the names that an encoder has written. -/
theorem reader_decodes (path : String) {image : Image} {data : List UInt8}
    (h : image.Encodes data) {needed : List (List Char)} {soname : Option (List Char)}
    (hneeded : image.neededNames = needed.map Utf8.encode)
    (hsoname : image.soname = soname.map Utf8.encode) :
    elfDynamicNeeded path data = .ok needed ∧ elfSoname path data = .ok soname := by
  have htext : text ∘ Utf8.encode = id := funext fun name => Utf8.decode_encode name
  rw [h.elfDynamicNeeded_eq, h.elfSoname_eq, hneeded, hsoname, List.map_map, Option.map_map, htext,
    List.map_id, Option.map_id]
  exact ⟨rfl, rfl⟩

theorem reader_decodes_sample : elfDynamicNeeded "libproot.so" sampleBytes = .ok sampleNames ∧
    elfSoname "libproot.so" sampleBytes = .ok (some sampleSoname) :=
  reader_decodes "libproot.so" encodes_sample (by decide) (by decide)

end ElfScan

end Zmux
