import Zmux.ByteImage
import Zmux.Utf8

/-!
# Reading an ELF file

`elfscan.py`: the names in the dynamic section of a shared object.
`elfDynamicNeeded` and `elfDynamicString` are near-copies; the second
leaves out three of the checks of the first.

Every read is guarded: it succeeds under a condition on the bytes, and
raises something other than `ElfError` when that fails (`Guarded`). So the
reader rejects a file cleanly precisely when all that it gets to read is
there (`rejects_cleanly_iff`).
-/

namespace Zmux

namespace ElfScan

def dtNeeded : ℤ := 1

def dtSoname : ℤ := 14

def shtStrtab : ℕ := 3

def shtDynamic : ℕ := 6

/-! ## Raising reads -/

inductive Raised where
  | elfError (message : String)
  | indexError
  | structError
  | overflowError
  | valueError
deriving DecidableEq

def Raised.isElfError : Raised → Bool
  | .elfError _ => true
  | _ => false

abbrev Scan := Except Raised

/-- `sys.maxsize`; a larger offset is no index. -/
def maxsize : ℕ := 9223372036854775807

/-- `data[i]`. -/
def byteAt (data : List UInt8) (i : ℕ) : Scan UInt8 :=
  match data[i]? with
  | some b => .ok b
  | none => .error .indexError

/-- `unpack_from` finds as many bytes as it needs. -/
def unpackFrom (data : List UInt8) (offset size : ℕ) : Scan Unit :=
  if offset + size ≤ data.length then .ok ()
  else if offset ≤ maxsize then .error .structError
  else .error .overflowError

/-- `data.index(b"\x00", start, stop)`. -/
def index (data : List UInt8) (start stop : ℕ) : Scan ℕ :=
  let position := start + (cString data start).length
  if position < min stop data.length then .ok position else .error .valueError

/-- `decode("utf-8", errors="replace")`. -/
def text (bytes : List UInt8) : List Char := Utf8.decode ['\ufffd'] bytes

/-- The string from `start` to the first zero before `stop`. -/
def readString (data : List UInt8) (start stop : ℕ) : Scan (List Char) := do
  let position ← index data start stop
  .ok (text ((data.drop start).take (position - start)))

/-! ## Headers -/

structure File where
  data : List UInt8
  /-- ELF32; anything else is read as ELF64. -/
  is32 : Bool
  endian : Endian
  shoff : ℕ
  shentsize : ℕ
  shnum : ℕ
  shstrndx : ℕ

structure SectionHeader where
  name : ℕ
  type : ℕ
  offset : ℕ
  size : ℕ
deriving DecidableEq

/-- The fields of the ELF header, by the bytes for class and byte order. -/
def fileOf (data : List UInt8) (elfClass order : UInt8) : File :=
  let endian := if order = 1 then .little else .big
  if elfClass = 1 then
    ⟨data, true, endian, word endian data 0x20 4, word endian data 0x2E 2,
      word endian data 0x30 2, word endian data 0x32 2⟩
  else
    ⟨data, false, endian, word endian data 0x28 8, word endian data 0x3A 2,
      word endian data 0x3C 2, word endian data 0x3E 2⟩

def readFile (data : List UInt8) (elfClass order : UInt8) : Scan File :=
  if elfClass = 1 then do
    unpackFrom data 0x20 4
    unpackFrom data 0x2E 6
    .ok (fileOf data elfClass order)
  else do
    unpackFrom data 0x28 8
    unpackFrom data 0x3A 6
    .ok (fileOf data elfClass order)

namespace File

/-- What is in the section header at an index. -/
def header (file : File) (index : ℕ) : SectionHeader :=
  let offset := file.shoff + index * file.shentsize
  let field := fun at_ width => word file.endian file.data (offset + at_) width
  if file.is32 then ⟨field 0 4, field 4 4, field 16 4, field 20 4⟩
  else ⟨field 0 4, field 4 4, field 0x18 8, field 0x20 8⟩

/-- `section_header`. -/
def sectionHeader (file : File) (index : ℕ) : Scan SectionHeader :=
  let offset := file.shoff + index * file.shentsize
  if file.is32 then do
    unpackFrom file.data offset 24
    .ok (file.header index)
  else do
    unpackFrom file.data offset 8
    unpackFrom file.data (offset + 0x18) 16
    .ok (file.header index)

/-- `section_name`. -/
def sectionName (file : File) (shstr : SectionHeader) (name : ℕ) : Scan (List Char) :=
  readString file.data (shstr.offset + name) (shstr.offset + shstr.size)

/-- The section headers at these indices, for the first dynamic section
and the last `.dynstr`. -/
def findSections (file : File) (shstr : SectionHeader) :
    List ℕ → (dynamic dynstr : Option SectionHeader) →
      Scan (Option SectionHeader × Option SectionHeader)
  | [], dynamic, dynstr => .ok (dynamic, dynstr)
  | index :: rest, dynamic, dynstr => do
    let header ← file.sectionHeader index
    if index = file.shstrndx then findSections file shstr rest dynamic dynstr
    else do
      let name ← file.sectionName shstr header.name
      if header.type = shtDynamic ∧ dynamic = none then
        findSections file shstr rest (some header) dynstr
      else if name = ".dynstr".toList ∧ header.type = shtStrtab then
        findSections file shstr rest dynamic (some header)
      else findSections file shstr rest dynamic dynstr

/-! ## The dynamic section -/

/-- The size of a dynamic entry. -/
def entrySize (file : File) : ℕ := if file.is32 then 8 else 16

/-- The tag and the value at an offset. -/
def entry (file : File) (offset : ℕ) : ℤ × ℕ :=
  let half := file.entrySize / 2
  (signed half (word file.endian file.data offset half),
    word file.endian file.data (offset + half) half)

def readEntry (file : File) (offset : ℕ) : Scan (ℤ × ℕ) := do
  unpackFrom file.data offset file.entrySize
  .ok (file.entry offset)

/-- The length of `range(0, size, step)`. -/
def entryCount (file : File) (dynamic : SectionHeader) : ℕ :=
  (dynamic.size + file.entrySize - 1) / file.entrySize

/-- The names in the next `count` entries. -/
def neededFrom (file : File) (dynstr : SectionHeader) :
    (count offset : ℕ) → Scan (List (List Char))
  | 0, _ => .ok []
  | count + 1, offset => do
    let (tag, value) ← file.readEntry offset
    if tag = 0 then .ok []
    else if tag ≠ dtNeeded then neededFrom file dynstr count (offset + file.entrySize)
    else
      let start := dynstr.offset + value
      if start ≥ dynstr.offset + dynstr.size then
        neededFrom file dynstr count (offset + file.entrySize)
      else do
        let name ← readString file.data start (dynstr.offset + dynstr.size)
        let rest ← neededFrom file dynstr count (offset + file.entrySize)
        .ok (name :: rest)

/-- The string of the first of the next `count` entries with the tag. -/
def stringFrom (file : File) (dynstr : SectionHeader) (wanted : ℤ) :
    (count offset : ℕ) → Scan (Option (List Char))
  | 0, _ => .ok none
  | count + 1, offset => do
    let (tag, value) ← file.readEntry offset
    if tag = 0 then .ok none
    else if tag ≠ wanted then stringFrom file dynstr wanted count (offset + file.entrySize)
    else do
      let start := dynstr.offset + value
      let name ← readString file.data start (dynstr.offset + dynstr.size)
      .ok (some name)

end File

def elfMagic : List UInt8 := [0x7f, 0x45, 0x4c, 0x46]

/-- `elf_dynamic_needed`. -/
def elfDynamicNeeded (path : String) (data : List UInt8) : Scan (List (List Char)) :=
  if data.take 4 ≠ elfMagic then .error (.elfError (path ++ ": not an ELF file"))
  else do
    let elfClass ← byteAt data 4
    let order ← byteAt data 5
    if elfClass ≠ 1 ∧ elfClass ≠ 2 then
      .error (.elfError (path ++ ": unsupported ELF class " ++ toString elfClass.toNat))
    else do
      let file ← readFile data elfClass order
      if file.shoff = 0 ∨ file.shnum = 0 ∨ file.shentsize = 0 then
        .error (.elfError (path ++ ": no section header table"))
      else do
        let shstr ← file.sectionHeader file.shstrndx
        if shstr.type ≠ shtStrtab then
          .error (.elfError (path ++ ": bad section-header string table"))
        else do
          let found ← file.findSections shstr (List.range file.shnum) none none
          match found with
          | (some dynamic, some dynstr) =>
            file.neededFrom dynstr (file.entryCount dynamic) dynamic.offset
          | _ => .error (.elfError (path ++ ": no .dynamic/.dynstr sections (static ELF?)"))

/-- `_elf_dynamic_string`. -/
def elfDynamicString (path : String) (data : List UInt8) (wanted : ℤ) :
    Scan (Option (List Char)) :=
  if data.take 4 ≠ elfMagic then .error (.elfError (path ++ ": not an ELF file"))
  else do
    let elfClass ← byteAt data 4
    let order ← byteAt data 5
    let file ← readFile data elfClass order
    let shstr ← file.sectionHeader file.shstrndx
    let found ← file.findSections shstr (List.range file.shnum) none none
    match found with
    | (some dynamic, some dynstr) =>
      file.stringFrom dynstr wanted (file.entryCount dynamic) dynamic.offset
    | _ => .ok none

/-- `elf_soname`. -/
def elfSoname (path : String) (data : List UInt8) : Scan (Option (List Char)) :=
  match elfDynamicString path data dtSoname with
  | .error (.elfError _) => .ok none
  | result => result

/-! ## Guarded reads -/

section Guarded

variable {α β : Type} {x : Scan α} {f : α → Scan β} {p q : Prop} {a : α} {b : β}

/-- A value or an `ElfError`. -/
def Clean (r : Scan α) : Prop := ∀ e, r = .error e → e.isElfError

theorem clean_ok (a : α) : Clean (.ok a) := nofun

theorem clean_elfError (message : String) : Clean (.error (.elfError message) : Scan α) := by
  intro e he
  cases he
  rfl

theorem bind_of_ok (h : x = .ok a) : (x >>= f) = f a := by
  rw [h]
  rfl

theorem clean_of_bind (h : Clean (x >>= f)) : Clean x := by
  intro e he
  subst he
  exact h e rfl

theorem clean_map (g : α → β) : Clean (x >>= fun a => .ok (g a)) ↔ Clean x := by
  constructor
  · exact clean_of_bind
  · intro h e he
    cases x with
    | error raised =>
        cases he
        exact h e rfl
    | ok a => cases he

/-- The read gives the value when the condition holds, and raises something
other than `ElfError` when it fails. -/
structure Guarded (x : Scan α) (p : Prop) (a : α) : Prop where
  ok : p → x = .ok a
  raises : ¬ p → ¬ Clean x

theorem Guarded.pure (a : α) : Guarded (.ok a : Scan α) True a :=
  ⟨fun _ => rfl, fun h => absurd trivial h⟩

theorem Guarded.congr (h : Guarded x p a) (hpq : p ↔ q) : Guarded x q a :=
  ⟨fun hq => h.ok (hpq.mpr hq), fun hq => h.raises (mt hpq.mp hq)⟩

theorem Guarded.bind_ok (h : Guarded x p a) (hp : p) : (x >>= f) = f a := bind_of_ok (h.ok hp)

theorem Guarded.clean_bind (h : Guarded x p a) : Clean (x >>= f) ↔ p ∧ Clean (f a) := by
  by_cases hp : p
  · rw [h.bind_ok hp]
    exact (and_iff_right hp).symm
  · exact iff_of_false (mt clean_of_bind (h.raises hp)) fun hand => hp hand.1

theorem Guarded.bind (hx : Guarded x p a) (hf : p → Guarded (f a) q b) :
    Guarded (x >>= f) (p ∧ q) b where
  ok hpq := (hx.bind_ok hpq.1).trans ((hf hpq.1).ok hpq.2)
  raises hpq := by
    by_cases hp : p
    · rw [hx.bind_ok hp]
      exact (hf hp).raises fun hq => hpq ⟨hp, hq⟩
    · exact mt clean_of_bind (hx.raises hp)

theorem Guarded.error {e : Raised} (h : e.isElfError = false) (hp : ¬ p) (a : α) :
    Guarded (.error e) p a where
  ok hyes := absurd hyes hp
  raises _ hclean := by
    rw [hclean e rfl] at h
    cases h

/-- A result that is made of what was read. -/
theorem Guarded.map (h : Guarded x p a) (g : α → β) : Guarded (x >>= fun a => .ok (g a)) p (g a) :=
  (h.bind fun _ => .pure (g a)).congr (iff_of_eq (and_true p))

end Guarded

theorem guarded_byteAt (data : List UInt8) (i : ℕ) :
    Guarded (byteAt data i) (i < data.length) (data.getD i 0) := by
  rw [byteAt, List.getD_eq_getElem?_getD]
  by_cases hi : i < data.length
  · rw [List.getElem?_eq_getElem hi]
    exact (Guarded.pure _).congr (iff_of_true trivial hi)
  · rw [List.getElem?_eq_none (Nat.le_of_not_lt hi)]
    exact .error rfl hi _

theorem guarded_unpackFrom (data : List UInt8) (offset size : ℕ) :
    Guarded (unpackFrom data offset size) (offset + size ≤ data.length) () := by
  rw [unpackFrom]
  by_cases hsize : offset + size ≤ data.length
  · rw [if_pos hsize]
    exact (Guarded.pure _).congr (iff_of_true trivial hsize)
  · rw [if_neg hsize]
    split
    · exact .error rfl hsize _
    · exact .error rfl hsize _

theorem guarded_index (data : List UInt8) (start stop : ℕ) :
    Guarded (index data start stop) (Terminated data start stop)
      (start + (cString data start).length) := by
  refine Guarded.congr ?_ terminated_iff.symm
  simp only [index]
  split
  · rename_i hp
    exact (Guarded.pure _).congr (iff_of_true trivial hp)
  · rename_i hp
    exact .error rfl hp _

theorem guarded_readString (data : List UInt8) (start stop : ℕ) :
    Guarded (readString data start stop) (Terminated data start stop)
      (text (cString data start)) := by
  have htake : (data.drop start).take (cString data start).length = cString data start :=
    (List.prefix_iff_eq_take.mp (List.takeWhile_prefix _)).symm
  have hmap := (guarded_index data start stop).map
    fun position => text ((data.drop start).take (position - start))
  rw [Nat.add_sub_cancel_left, htake] at hmap
  exact hmap

/-- The next `count` entries before one that ends the loop, and that one. -/
def UpTo (size : ℕ) (ends good : ℕ → Prop) (count offset : ℕ) : Prop :=
  ∀ j < count, (∀ i < j, ¬ ends (offset + i * size)) → good (offset + j * size)

theorem upTo_zero {size : ℕ} {ends good : ℕ → Prop} {offset : ℕ} :
    UpTo size ends good 0 offset := nofun

theorem upTo_succ {size : ℕ} {ends good : ℕ → Prop} {count offset : ℕ} :
    UpTo size ends good (count + 1) offset ↔
      good offset ∧ (¬ ends offset → UpTo size ends good count (offset + size)) := by
  have hnext : ∀ i, offset + size + i * size = offset + (i + 1) * size := by
    intro i
    rw [Nat.succ_mul]
    omega
  constructor
  · intro h
    refine ⟨?_, ?_⟩
    · have hfirst := h 0 (Nat.succ_pos _) nofun
      rwa [Nat.zero_mul] at hfirst
    · intro hends j hj hbefore
      rw [hnext]
      refine h (j + 1) (Nat.succ_lt_succ hj) ?_
      intro i hi
      cases i with
      | zero => rwa [Nat.zero_mul]
      | succ i =>
          rw [← hnext]
          exact hbefore i (Nat.lt_of_succ_lt_succ hi)
  · rintro ⟨hfirst, hrest⟩ j hj hbefore
    cases j with
    | zero => rwa [Nat.zero_mul]
    | succ j =>
        rw [← hnext]
        have hends := hbefore 0 (Nat.succ_pos _)
        rw [Nat.zero_mul] at hends
        refine hrest hends j (Nat.lt_of_succ_lt_succ hj) ?_
        intro i hi
        rw [hnext]
        exact hbefore (i + 1) (Nat.succ_lt_succ hi)

/-! ## What a file must have -/

/-- Where the ELF header ends, as far as it is read. -/
def headerSize (elfClass : UInt8) : ℕ := if elfClass = 1 then 0x34 else 0x40

theorem guarded_readFile (data : List UInt8) (elfClass order : UInt8) :
    Guarded (readFile data elfClass order) (headerSize elfClass ≤ data.length)
      (fileOf data elfClass order) := by
  rw [readFile, headerSize]
  split
  · refine ((guarded_unpackFrom data 0x20 4).bind fun _ =>
      (guarded_unpackFrom data 0x2E 6).map fun _ => fileOf data elfClass order).congr ?_
    omega
  · refine ((guarded_unpackFrom data 0x28 8).bind fun _ =>
      (guarded_unpackFrom data 0x3A 6).map fun _ => fileOf data elfClass order).congr ?_
    omega

namespace File

def HeaderFits (file : File) (index : ℕ) : Prop :=
  file.shoff + index * file.shentsize + (if file.is32 then 24 else 40) ≤ file.data.length

theorem guarded_sectionHeader (file : File) (index : ℕ) :
    Guarded (file.sectionHeader index) (file.HeaderFits index) (file.header index) := by
  rw [sectionHeader, HeaderFits]
  cases file.is32 with
  | true => exact (guarded_unpackFrom file.data _ 24).map fun _ => file.header index
  | false =>
      refine ((guarded_unpackFrom file.data _ 8).bind fun _ =>
        (guarded_unpackFrom file.data _ 16).map fun _ => file.header index).congr ?_
      simp only [Bool.false_eq_true, if_false]
      omega

/-- The name of a section. -/
def nameOf (file : File) (shstr : SectionHeader) (name : ℕ) : List Char :=
  text (cString file.data (shstr.offset + name))

theorem guarded_sectionName (file : File) (shstr : SectionHeader) (name : ℕ) :
    Guarded (file.sectionName shstr name)
      (Terminated file.data (shstr.offset + name) (shstr.offset + shstr.size))
      (file.nameOf shstr name) :=
  guarded_readString _ _ _

/-- Its header is there, and its name when it is read. -/
def SectionReadable (file : File) (shstr : SectionHeader) (index : ℕ) : Prop :=
  file.HeaderFits index ∧ (index ≠ file.shstrndx →
    Terminated file.data (shstr.offset + (file.header index).name) (shstr.offset + shstr.size))

/-- The headers at these indices, but for the name table. -/
def others (file : File) (indices : List ℕ) : List SectionHeader :=
  (indices.filter (· ≠ file.shstrndx)).map file.header

theorem others_self (file : File) (rest : List ℕ) :
    file.others (file.shstrndx :: rest) = file.others rest := by
  simp [others]

theorem others_cons {file : File} {index : ℕ} (h : index ≠ file.shstrndx) (rest : List ℕ) :
    file.others (index :: rest) = file.header index :: file.others rest := by
  simp [others, h]

def firstDynamic (file : File) (indices : List ℕ) : Option SectionHeader :=
  (file.others indices).find? (·.type = shtDynamic)

def isDynstr (file : File) (shstr header : SectionHeader) : Bool :=
  file.nameOf shstr header.name = ".dynstr".toList ∧ header.type = shtStrtab

theorem isDynstr_iff {file : File} {shstr header : SectionHeader} :
    file.isDynstr shstr header ↔
      file.nameOf shstr header.name = ".dynstr".toList ∧ header.type = shtStrtab :=
  decide_eq_true_iff

def lastDynstr (file : File) (shstr : SectionHeader) (indices : List ℕ) : Option SectionHeader :=
  (file.others indices).reverse.find? (file.isDynstr shstr)

/-- What a section does to what has been found. -/
def withDynamic (header : SectionHeader) (dynamic : Option SectionHeader) : Option SectionHeader :=
  if header.type = shtDynamic ∧ dynamic = none then some header else dynamic

def withDynstr (file : File) (shstr header : SectionHeader) (dynstr : Option SectionHeader) :
    Option SectionHeader :=
  if file.isDynstr shstr header then some header else dynstr

/-- The sections are of different types, so the order of the tests does not matter. -/
theorem findSections_choice (file : File) (shstr header : SectionHeader) (rest : List ℕ)
    (dynamic dynstr : Option SectionHeader) :
    (if header.type = shtDynamic ∧ dynamic = none then
        findSections file shstr rest (some header) dynstr
      else if file.nameOf shstr header.name = ".dynstr".toList ∧ header.type = shtStrtab then
        findSections file shstr rest dynamic (some header)
      else findSections file shstr rest dynamic dynstr)
      = findSections file shstr rest (withDynamic header dynamic)
          (file.withDynstr shstr header dynstr) := by
  rw [withDynamic, withDynstr]
  by_cases hdynamic : header.type = shtDynamic ∧ dynamic = none
  · have hother : ¬ file.isDynstr shstr header := by
      rw [isDynstr_iff, hdynamic.1]
      exact fun h => absurd h.2 (by decide)
    rw [if_pos hdynamic, if_pos hdynamic, if_neg hother]
  · rw [if_neg hdynamic, if_neg hdynamic]
    by_cases hdynstr : file.nameOf shstr header.name = ".dynstr".toList ∧ header.type = shtStrtab
    · rw [if_pos hdynstr, if_pos (isDynstr_iff.mpr hdynstr)]
    · rw [if_neg hdynstr, if_neg (mt isDynstr_iff.mp hdynstr)]

theorem or_firstDynamic {file : File} {index : ℕ} (h : index ≠ file.shstrndx) (rest : List ℕ)
    (dynamic : Option SectionHeader) : dynamic.or (file.firstDynamic (index :: rest))
      = (withDynamic (file.header index) dynamic).or (file.firstDynamic rest) := by
  rw [firstDynamic, others_cons h, List.find?_cons, withDynamic, firstDynamic]
  cases dynamic with
  | some found => rw [if_neg fun hand => nomatch hand.2]; rfl
  | none =>
      by_cases htype : (file.header index).type = shtDynamic
      · rw [if_pos ⟨htype, rfl⟩, decide_eq_true htype]
        rfl
      · rw [if_neg fun hand => htype hand.1, decide_eq_false htype]

theorem lastDynstr_or {file : File} {index : ℕ} (h : index ≠ file.shstrndx)
    (shstr : SectionHeader) (rest : List ℕ) (dynstr : Option SectionHeader) :
    (file.lastDynstr shstr (index :: rest)).or dynstr = (file.lastDynstr shstr rest).or
      (file.withDynstr shstr (file.header index) dynstr) := by
  rw [lastDynstr, others_cons h, List.reverse_cons, List.find?_append, Option.or_assoc, withDynstr,
    List.find?_cons]
  cases file.isDynstr shstr (file.header index) <;> rfl

theorem guarded_findSections (file : File) (shstr : SectionHeader) (indices : List ℕ)
    (dynamic dynstr : Option SectionHeader) :
    Guarded (file.findSections shstr indices dynamic dynstr)
      (∀ index ∈ indices, file.SectionReadable shstr index)
      (dynamic.or (file.firstDynamic indices), (file.lastDynstr shstr indices).or dynstr) := by
  induction indices generalizing dynamic dynstr with
  | nil =>
      rw [show dynamic.or (file.firstDynamic []) = dynamic from Option.or_none]
      exact (Guarded.pure _).congr (iff_of_true trivial nofun)
  | cons index rest ih =>
      rw [findSections, List.forall_mem_cons, SectionReadable]
      by_cases hindex : index = file.shstrndx
      · subst hindex
        rw [firstDynamic, lastDynstr, others_self]
        refine ((guarded_sectionHeader file _).bind fun _ => ?_).congr
          (and_congr_left' (and_iff_left (absurd rfl)).symm)
        rw [if_pos rfl]
        exact ih dynamic dynstr
      · rw [or_firstDynamic hindex, lastDynstr_or hindex, and_assoc, imp_iff_right hindex]
        refine (guarded_sectionHeader file index).bind fun _ => ?_
        rw [if_neg hindex]
        refine (guarded_sectionName file shstr _).bind fun _ => ?_
        rw [findSections_choice]
        exact ih _ _

theorem guarded_readEntry (file : File) (offset : ℕ) :
    Guarded (file.readEntry offset) (offset + file.entrySize ≤ file.data.length)
      (file.entry offset) :=
  (guarded_unpackFrom _ _ _).map fun _ => file.entry offset

/-- The entry is there, and its string if it is a needed one that starts in
the table. -/
def NeededReadable (file : File) (dynstr : SectionHeader) (offset : ℕ) : Prop :=
  offset + file.entrySize ≤ file.data.length ∧
    ((file.entry offset).1 = dtNeeded → (file.entry offset).2 < dynstr.size →
      Terminated file.data (dynstr.offset + (file.entry offset).2) (dynstr.offset + dynstr.size))

theorem clean_neededFrom (file : File) (dynstr : SectionHeader) (count offset : ℕ) :
    Clean (file.neededFrom dynstr count offset) ↔
      UpTo file.entrySize (fun offset => (file.entry offset).1 = 0) (file.NeededReadable dynstr)
        count offset := by
  induction count generalizing offset with
  | zero => exact iff_of_true (clean_ok _) upTo_zero
  | succ count ih =>
      rw [neededFrom, (guarded_readEntry file offset).clean_bind, upTo_succ, NeededReadable,
        and_assoc]
      refine and_congr_right' ?_
      generalize file.entry offset = read
      obtain ⟨tag, value⟩ := read
      dsimp only
      by_cases hend : tag = 0
      · rw [if_pos hend, hend]
        refine iff_of_true (clean_ok _) ⟨?_, fun hne => absurd rfl hne⟩
        exact fun hneeded => absurd hneeded (by decide)
      · rw [if_neg hend, imp_iff_right hend]
        by_cases htag : tag = dtNeeded
        · rw [if_neg (not_not_intro htag), imp_iff_right htag]
          by_cases hvalue : value < dynstr.size
          · rw [if_neg (by omega), imp_iff_right hvalue, (guarded_readString _ _ _).clean_bind,
              clean_map, ih]
          · rw [if_pos (by omega), ih]
            exact (and_iff_right (absurd · hvalue)).symm
        · rw [if_pos htag, ih]
          exact (and_iff_right (absurd · htag)).symm

/-- The entry is there, and its string if it has the tag. -/
def WantedReadable (file : File) (dynstr : SectionHeader) (wanted : ℤ) (offset : ℕ) : Prop :=
  offset + file.entrySize ≤ file.data.length ∧
    ((file.entry offset).1 = wanted →
      Terminated file.data (dynstr.offset + (file.entry offset).2) (dynstr.offset + dynstr.size))

theorem clean_stringFrom (file : File) (dynstr : SectionHeader) {wanted : ℤ} (hwanted : wanted ≠ 0)
    (count offset : ℕ) :
    Clean (file.stringFrom dynstr wanted count offset) ↔
      UpTo file.entrySize (fun offset => (file.entry offset).1 = 0 ∨ (file.entry offset).1 = wanted)
        (file.WantedReadable dynstr wanted) count offset := by
  induction count generalizing offset with
  | zero => exact iff_of_true (clean_ok _) upTo_zero
  | succ count ih =>
      rw [stringFrom, (guarded_readEntry file offset).clean_bind, upTo_succ, WantedReadable,
        and_assoc]
      refine and_congr_right' ?_
      generalize file.entry offset = read
      obtain ⟨tag, value⟩ := read
      dsimp only
      by_cases hend : tag = 0
      · rw [if_pos hend]
        refine iff_of_true (clean_ok _) ⟨?_, fun hne => absurd (.inl hend) hne⟩
        exact fun htag => absurd (htag.symm.trans hend) hwanted
      · rw [if_neg hend]
        by_cases htag : tag = wanted
        · rw [if_neg (not_not_intro htag), imp_iff_right htag,
            (guarded_readString _ _ _).clean_bind]
          refine and_congr_right' (iff_of_true (clean_ok _) ?_)
          exact fun hne => absurd (.inr htag) hne
        · rw [if_pos htag, ih, imp_iff_right (not_or_intro hend htag)]
          exact (and_iff_right (absurd · htag)).symm

def SectionsReadable (file : File) : Prop :=
  ∀ index ∈ List.range file.shnum, file.SectionReadable (file.header file.shstrndx) index

/-- The dynamic section and the string table, if the file has both. -/
def Found (file : File) (dynamic dynstr : SectionHeader) : Prop :=
  file.firstDynamic (List.range file.shnum) = some dynamic ∧
    file.lastDynstr (file.header file.shstrndx) (List.range file.shnum) = some dynstr

/-- What was found is passed on when it is both. -/
theorem clean_found {α : Type} {file : File} {next : SectionHeader → SectionHeader → Scan α}
    {otherwise : Scan α} (hother : Clean otherwise) :
    Clean (match (file.firstDynamic (List.range file.shnum),
        file.lastDynstr (file.header file.shstrndx) (List.range file.shnum)) with
      | (some dynamic, some dynstr) => next dynamic dynstr
      | _ => otherwise) ↔
      ∀ dynamic dynstr, file.Found dynamic dynstr → Clean (next dynamic dynstr) := by
  simp only [Found]
  generalize file.firstDynamic (List.range file.shnum) = dynamic
  generalize file.lastDynstr (file.header file.shstrndx) (List.range file.shnum) = dynstr
  cases dynamic with
  | none => exact iff_of_true hother fun _ _ h => nomatch h.1
  | some dynamic =>
      cases dynstr with
      | none => exact iff_of_true hother fun _ _ h => nomatch h.2
      | some dynstr =>
          refine ⟨?_, fun h => h dynamic dynstr ⟨rfl, rfl⟩⟩
          rintro h _ _ ⟨⟨⟩, ⟨⟩⟩
          exact h

end File

/-- All that `elf_dynamic_needed` gets to read is there. -/
def NeededInBounds (data : List UInt8) : Prop :=
  let elfClass := data.getD 4 0
  let file := fileOf data elfClass (data.getD 5 0)
  data.take 4 = elfMagic → 5 < data.length ∧
    (elfClass = 1 ∨ elfClass = 2 → headerSize elfClass ≤ data.length ∧
    (file.shoff ≠ 0 ∧ file.shnum ≠ 0 ∧ file.shentsize ≠ 0 → file.HeaderFits file.shstrndx ∧
    ((file.header file.shstrndx).type = shtStrtab → file.SectionsReadable ∧
      ∀ dynamic dynstr, file.Found dynamic dynstr →
        UpTo file.entrySize (fun offset => (file.entry offset).1 = 0) (file.NeededReadable dynstr)
          (file.entryCount dynamic) dynamic.offset)))

/-- All that `_elf_dynamic_string` gets to read is there; it goes on where
the other gives up. -/
def SonameInBounds (data : List UInt8) : Prop :=
  let elfClass := data.getD 4 0
  let file := fileOf data elfClass (data.getD 5 0)
  data.take 4 = elfMagic → 5 < data.length ∧ headerSize elfClass ≤ data.length ∧
    file.HeaderFits file.shstrndx ∧ file.SectionsReadable ∧
      ∀ dynamic dynstr, file.Found dynamic dynstr →
        UpTo file.entrySize
          (fun offset => (file.entry offset).1 = 0 ∨ (file.entry offset).1 = dtSoname)
          (file.WantedReadable dynstr dtSoname) (file.entryCount dynamic) dynamic.offset

theorem clean_elfDynamicNeeded (path : String) (data : List UInt8) :
    Clean (elfDynamicNeeded path data) ↔ NeededInBounds data := by
  rw [elfDynamicNeeded, NeededInBounds]
  by_cases hmagic : data.take 4 = elfMagic
  · rw [if_neg (not_not_intro hmagic), imp_iff_right hmagic, (guarded_byteAt data 4).clean_bind,
      (guarded_byteAt data 5).clean_bind, ← and_assoc,
      and_iff_right_of_imp fun h => Nat.lt_of_succ_lt h]
    refine and_congr_right' ?_
    generalize data.getD 4 0 = elfClass
    by_cases hclass : elfClass = 1 ∨ elfClass = 2
    · rw [if_neg (by tauto), imp_iff_right hclass, (guarded_readFile data _ _).clean_bind]
      refine and_congr_right' ?_
      generalize fileOf data elfClass (data.getD 5 0) = file
      by_cases htable : file.shoff ≠ 0 ∧ file.shnum ≠ 0 ∧ file.shentsize ≠ 0
      · rw [if_neg (by tauto), imp_iff_right htable, (file.guarded_sectionHeader _).clean_bind]
        refine and_congr_right' ?_
        by_cases htype : (file.header file.shstrndx).type = shtStrtab
        · rw [if_neg (not_not_intro htype), imp_iff_right htype,
            (file.guarded_findSections _ _ _ _).clean_bind]
          refine and_congr_right' ?_
          rw [Option.none_or, Option.or_none, File.clean_found (clean_elfError _)]
          simp only [File.clean_neededFrom]
        · rw [if_pos htype]
          exact iff_of_true (clean_elfError _) (absurd · htype)
      · rw [if_pos (by tauto)]
        exact iff_of_true (clean_elfError _) (absurd · htable)
    · rw [if_pos (by tauto)]
      exact iff_of_true (clean_elfError _) (absurd · hclass)
  · rw [if_pos hmagic]
    exact iff_of_true (clean_elfError _) (absurd · hmagic)

theorem clean_elfDynamicString (path : String) (data : List UInt8) :
    Clean (elfDynamicString path data dtSoname) ↔ SonameInBounds data := by
  rw [elfDynamicString, SonameInBounds]
  by_cases hmagic : data.take 4 = elfMagic
  · rw [if_neg (not_not_intro hmagic), imp_iff_right hmagic, (guarded_byteAt data 4).clean_bind,
      (guarded_byteAt data 5).clean_bind, ← and_assoc,
      and_iff_right_of_imp fun h => Nat.lt_of_succ_lt h]
    refine and_congr_right' ?_
    rw [(guarded_readFile data _ _).clean_bind]
    refine and_congr_right' ?_
    generalize fileOf data (data.getD 4 0) (data.getD 5 0) = file
    rw [(file.guarded_sectionHeader _).clean_bind, (file.guarded_findSections _ _ _ _).clean_bind]
    refine and_congr_right' (and_congr_right' ?_)
    rw [Option.none_or, Option.or_none, File.clean_found (clean_ok _)]
    simp only [File.clean_stringFrom _ _ (show dtSoname ≠ 0 by decide)]
  · rw [if_pos hmagic]
    exact iff_of_true (clean_elfError _) (absurd · hmagic)

theorem elfSoname_ok_iff (path : String) (data : List UInt8) :
    (∃ name, elfSoname path data = .ok name) ↔ Clean (elfDynamicString path data dtSoname) := by
  rw [elfSoname]
  cases elfDynamicString path data dtSoname with
  | ok name => exact iff_of_true ⟨name, rfl⟩ (clean_ok name)
  | error raised =>
      cases raised with
      | elfError message => exact iff_of_true ⟨none, rfl⟩ (clean_elfError message)
      | _ => exact iff_of_false (fun ⟨_, h⟩ => nomatch h) fun h => nomatch h _ rfl

/-- The reader rejects a file cleanly precisely when all that it gets to
read is there. -/
theorem rejects_cleanly_iff (path : String) (data : List UInt8) :
    (Clean (elfDynamicNeeded path data) ∧ ∃ name, elfSoname path data = .ok name) ↔
      NeededInBounds data ∧ SonameInBounds data := by
  rw [elfSoname_ok_iff, clean_elfDynamicNeeded, clean_elfDynamicString]

/-- The magic number alone. -/
theorem magic_raises : ¬ Clean (elfDynamicNeeded "libproot.so" elfMagic) ∧
    ¬ ∃ name, elfSoname "libproot.so" elfMagic = .ok name := by
  have hneeded : elfDynamicNeeded "libproot.so" elfMagic = .error .indexError := by decide
  have hsoname : elfSoname "libproot.so" elfMagic = .error .indexError := by decide
  rw [hneeded, hsoname]
  constructor
  · intro hclean
    cases hclean _ rfl
  · rintro ⟨name, hname⟩
    cases hname

end ElfScan

end Zmux
