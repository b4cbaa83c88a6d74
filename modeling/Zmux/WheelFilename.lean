import Mathlib.Data.List.Basic
import Zmux.PublishGate
import Zmux.Regex

/-!
# The parts of a wheel's file name

`validate_wheel_filename` of `scripts/inspect_wheel.py` matches a file
name against the shape of PEP 427,

  {distribution}-{version}(-{build tag})?-{python}-{abi}-{platform}.whl

Its class for the inside of a part contains the hyphen, which is also what
separates the parts, so most names match in several ways, and the greedy
distribution, which is tried first, decides: it takes all hyphens but four
(`WheelName.Reading.matchStart_eq`). That is the closed form that the
publish gate uses (`matchWheelFilename_eq`).

A name without a build tag has just these four. With a build tag the
version is read as the end of the distribution, and the tag as the version
(`PlainName.match_filename`).
-/

namespace Zmux

/-- The groups of the pattern. -/
inductive WheelGroup where
  | distribution
  | version
  | build
  | python
  | abi
  | platform
deriving DecidableEq

/-! ## The pattern -/

/-- `[_.-][A-Za-z0-9]+`. -/
def sepWord : Regex Char WheelGroup := .seq (.one isSep) (.plus (.one isAlnum))

/-- `[A-Za-z0-9]+([_.-][A-Za-z0-9]+)*`. -/
def component : Regex Char WheelGroup :=
  .seq (.plus (.one isAlnum)) (.star sepWord)

/-- A named part, after a hyphen. -/
def hyphenated (name : WheelGroup) : Regex Char WheelGroup :=
  .seq (.letter '-') (.group name component)

/-- `\.whl$`: the end, or the line break at the end. -/
def wheelEnd : Regex Char WheelGroup :=
  .seq (.literal ".whl".toList) (.before fun rest => rest = [] || rest = ['\n'])

/-- The pattern of the last three parts. -/
def compatibilityTags : Regex Char WheelGroup :=
  .seq (hyphenated .python) <| .seq (hyphenated .abi) <| .seq (hyphenated .platform) wheelEnd

def afterDistribution : Regex Char WheelGroup :=
  .seq (hyphenated .version) <| .seq (.optional (hyphenated .build)) compatibilityTags

def wheelPattern : Regex Char WheelGroup :=
  .seq (.group .distribution component) afterDistribution

/-- `match.group(name)`; all groups that are asked for take part. -/
def groupText (m : Way Char WheelGroup) (name : WheelGroup) : String :=
  String.ofList ((m.group? name).getD [])

/-- `validate_wheel_filename`. -/
def matchWheelFilename (filename : String) : Except String FilenameInfo :=
  match wheelPattern.matchStart filename.toList with
  | none => .error ("Filename does not follow PEP 427: " ++ filename)
  | some m => .ok
    { distribution := groupText m .distribution
      version := groupText m .version
      pythonTag := groupText m .python
      abiTag := groupText m .abi
      platformTag := groupText m .platform }

/-! ## Parts -/

/-- Words of letters and digits with one separator between two. -/
inductive Segmented (separator : Char → Bool) : List Char → Prop
  | word {w : List Char} : w ≠ [] → (∀ c ∈ w, isAlnum c = true) → Segmented separator w
  | more {w part : List Char} {c : Char} : w ≠ [] → (∀ d ∈ w, isAlnum d = true) →
      separator c = true → Segmented separator part → Segmented separator (w ++ c :: part)

/-- `_` or `.`. -/
def isTagSep (c : Char) : Bool := c = '_' || c = '.'

theorem Segmented.imp {sep sep' : Char → Bool} (h : ∀ c, sep c = true → sep' c = true)
    {part : List Char} (hpart : Segmented sep part) : Segmented sep' part := by
  induction hpart with
  | word hne hw => exact .word hne hw
  | more hne hw hc _ ih => exact .more hne hw (h _ hc) ih

theorem isAlnum_hyphen : isAlnum '-' = false := by decide

theorem isSep_isAlnum {c : Char} (hc : isAlnum c = true) : isSep c = false := by
  cases hsep : isSep c with
  | false => rfl
  | true =>
      simp only [isSep, Bool.or_eq_true, decide_eq_true_eq] at hsep
      rcases hsep with (rfl | rfl) | rfl <;> cases hc

theorem Segmented.hyphen_notMem {part : List Char} (h : Segmented isTagSep part) : '-' ∉ part := by
  have hword : ∀ {w : List Char}, (∀ c ∈ w, isAlnum c = true) → '-' ∉ w := by
    intro w hw hmem
    have hhyphen := hw _ hmem
    rw [isAlnum_hyphen] at hhyphen
    cases hhyphen
  induction h with
  | word _ hw => exact hword hw
  | @more w part c _ hw hc _ ih =>
      rw [List.mem_append, List.mem_cons]
      rintro (hmem | rfl | hmem)
      · exact hword hw hmem
      · cases hc
      · exact ih hmem

/-- Joined at a hyphen, two parts are a part of the pattern. -/
theorem Segmented.hyphen {u v : List Char} (hu : Segmented isSep u) (hv : Segmented isSep v) :
    Segmented isSep (u ++ '-' :: v) := by
  induction hu with
  | word hne hw => exact .more hne hw rfl hv
  | more hne hw hc _ ih =>
      rw [List.append_assoc, List.cons_append]
      exact .more hne hw hc ih

/-! ## What the parts of the pattern match -/

/-- A separator and a word. -/
def SepWord (w : List Char) : Prop :=
  ∃ u t, (∃ c, isSep c = true ∧ u = [c]) ∧ (t ≠ [] ∧ ∀ c ∈ t, isAlnum c = true) ∧ w = u ++ t

theorem iterated_sepWord_iff {v : List Char} :
    Iterated SepWord v
      ↔ v = [] ∨ ∃ c part, isSep c = true ∧ Segmented isSep part ∧ v = c :: part := by
  constructor
  · intro h
    induction h with
    | nil => exact .inl rfl
    | cons _ hL _ ih =>
        obtain ⟨_, t, ⟨c, hc, rfl⟩, ⟨hne, ht⟩, rfl⟩ := hL
        refine .inr ⟨c, _, hc, ?_, List.append_assoc ..⟩
        rcases ih with rfl | ⟨d, part, hd, hpart, rfl⟩
        · rw [List.append_nil]
          exact .word hne ht
        · exact .more hne ht hd hpart
  · rintro (rfl | ⟨c, part, hc, hpart, rfl⟩)
    · exact .nil
    · induction hpart generalizing c with
      | @word w hne hw =>
          have hword : SepWord (c :: w) := ⟨[c], w, ⟨c, hc, rfl⟩, ⟨hne, hw⟩, rfl⟩
          have h := Iterated.cons (List.cons_ne_nil c w) hword .nil
          rwa [List.append_nil] at h
      | @more w part d hne hw hd _ ih =>
          have hword : SepWord (c :: w) := ⟨[c], w, ⟨c, hc, rfl⟩, ⟨hne, hw⟩, rfl⟩
          exact Iterated.cons (List.cons_ne_nil c w) hword (ih d hd)

theorem sepWord_reads : Reads sepWord SepWord := (Reads.one isSep).seq (Reads.plus_one isAlnum)

theorem component_reads : Reads component (Segmented isSep) := by
  have htail := sepWord_reads.star.congr fun _ => iterated_sepWord_iff
  refine ((Reads.plus_one isAlnum).seq htail).congr fun w => ?_
  constructor
  · rintro ⟨u, v, ⟨hne, hu⟩, rfl | ⟨c, part, hc, hpart, rfl⟩, rfl⟩
    · rw [List.append_nil]
      exact .word hne hu
    · exact .more hne hu hc hpart
  · rintro (⟨hne, hw⟩ | ⟨hne, hw, hc, hpart⟩)
    · exact ⟨w, [], ⟨hne, hw⟩, .inl rfl, (List.append_nil w).symm⟩
    · exact ⟨_, _, ⟨hne, hw⟩, .inr ⟨_, _, hc, hpart, rfl⟩, rfl⟩

theorem sepWord_ways_of_isAlnum {c : Char} (hc : isAlnum c = true) (cs : List Char) :
    sepWord.ways (c :: cs) = [] := by
  rw [sepWord, Regex.ways, Regex.ways, if_neg (by rw [isSep_isAlnum hc]; exact Bool.false_ne_true)]
  rfl

theorem component_longestFirst (text : List Char) : LongestFirst (component.ways text) := by
  have hwords : Reads (.plus (.one isAlnum) : Regex Char WheelGroup) _ := Reads.plus_one isAlnum
  have hplus : ∀ text, LongestFirst ((.plus (.one isAlnum) : Regex Char WheelGroup).ways text) :=
    Regex.longestFirst_plus_one isAlnum
  refine Regex.longestFirst_seq (hplus text)
    (Regex.longestFirst_star (Regex.longestFirst_one_seq hplus) ?_) ?_
  · -- a shorter word ends before a letter of the longer one, where no separator is
    intro text a ha b hb hlt
    obtain ⟨c, cs, hrest, -, hprefix⟩ := sepWord_reads.letter_of_shorter ha hb hlt
    obtain ⟨_, t, ⟨d, -, rfl⟩, ⟨-, ht⟩, htext⟩ := ((sepWord_reads _ _).mp ha).2.1
    obtain ⟨_, t', ⟨d', -, rfl⟩, -, htext'⟩ := ((sepWord_reads _ _).mp hb).2.1
    rw [htext, htext', List.append_assoc] at hprefix
    have hmem : c ∈ t := (List.cons_prefix_cons.mp hprefix).2.subset
      (List.mem_append_right t' (List.mem_singleton_self c))
    rw [hrest, sepWord_ways_of_isAlnum (ht c hmem)]
  · intro a ha b hb hlt m hm
    obtain ⟨c, cs, hrest, hmem, -⟩ := hwords.letter_of_shorter ha hb hlt
    have hc := ((hwords _ _).mp ha).2.1.2 c hmem
    rw [Regex.ways, hrest, repeated_of_nil (sepWord_ways_of_isAlnum hc cs),
      List.mem_singleton] at hm
    rw [hm]
    rfl

/-! ## What the pattern matches -/

/-- The parts after the distribution. -/
structure WheelTail where
  version : List Char
  build : Option (List Char)
  pythonTag : List Char
  abiTag : List Char
  platformTag : List Char

namespace WheelTail

def parts (t : WheelTail) : List (List Char) :=
  t.version :: t.build.toList ++ [t.pythonTag, t.abiTag, t.platformTag]

def groups (t : WheelTail) : List (WheelGroup × List Char) :=
  (.version, t.version) :: t.build.toList.map (fun tag => (.build, tag))
    ++ [(.python, t.pythonTag), (.abi, t.abiTag), (.platform, t.platformTag)]

/-- The parts, each after a hyphen. -/
def text (t : WheelTail) : List Char := t.parts.flatMap fun part => '-' :: part

end WheelTail

theorem mem_hyphenated {name : WheelGroup} {text : List Char} {m : Way Char WheelGroup} :
    m ∈ (hyphenated name).ways text ↔ ∃ part, Segmented isSep part
      ∧ text = '-' :: (part ++ m.rest) ∧ m = ⟨'-' :: part, [(name, part)], m.rest⟩ := by
  rw [hyphenated, Regex.mem_seq]
  constructor
  · rintro ⟨a, ha, b, hb, rfl⟩
    obtain ⟨htext, ha⟩ := Regex.mem_letter.mp ha
    obtain ⟨⟨part, groups, rest⟩, hpart, rfl⟩ := Regex.mem_group.mp hb
    obtain ⟨hrest, hsegmented, hgroups⟩ := (component_reads _ _).mp hpart
    dsimp only at hrest hsegmented hgroups
    subst hgroups
    refine ⟨part, hsegmented, htext.trans (congrArg _ hrest), ?_⟩
    rw [ha]
    rfl
  · rintro ⟨part, hsegmented, htext, hm⟩
    refine ⟨⟨['-'], [], part ++ m.rest⟩, Regex.mem_letter.mpr ⟨htext, rfl⟩,
      ⟨part, [(name, part)], m.rest⟩, Regex.mem_group.mpr ⟨⟨part, [], m.rest⟩, ?_, rfl⟩, hm⟩
    exact (component_reads _ _).mpr ⟨rfl, hsegmented, rfl⟩

theorem mem_hyphenated_seq {name : WheelGroup} {s : Regex Char WheelGroup} {text : List Char}
    {m : Way Char WheelGroup} :
    m ∈ (Regex.seq (hyphenated name) s).ways text ↔ ∃ part rest b, Segmented isSep part
      ∧ text = '-' :: (part ++ rest) ∧ b ∈ s.ways rest
      ∧ m = ⟨'-' :: (part ++ b.text), (name, part) :: b.groups, b.rest⟩ := by
  rw [Regex.mem_seq]
  constructor
  · rintro ⟨a, ha, b, hb, rfl⟩
    obtain ⟨part, hpart, htext, ha⟩ := mem_hyphenated.mp ha
    refine ⟨part, a.rest, b, hpart, htext, hb, ?_⟩
    rw [ha]
    rfl
  · rintro ⟨part, rest, b, hpart, htext, hb, rfl⟩
    exact ⟨⟨'-' :: part, [(name, part)], rest⟩, mem_hyphenated.mpr ⟨part, hpart, htext, rfl⟩,
      b, hb, rfl⟩

theorem mem_wheelEnd {text : List Char} {m : Way Char WheelGroup} :
    m ∈ wheelEnd.ways text ↔ (m.rest = [] ∨ m.rest = ['\n'])
      ∧ text = ".whl".toList ++ m.rest ∧ m = ⟨".whl".toList, [], m.rest⟩ := by
  rw [wheelEnd, Regex.mem_seq]
  simp only [Regex.mem_literal, Regex.mem_before, Bool.or_eq_true, decide_eq_true_eq]
  constructor
  · rintro ⟨a, ⟨htext, ha⟩, b, ⟨hend, rfl⟩, rfl⟩
    refine ⟨hend, htext, ?_⟩
    rw [ha]
    rfl
  · rintro ⟨hend, htext, hm⟩
    exact ⟨⟨".whl".toList, [], m.rest⟩, ⟨htext, rfl⟩, .nothing m.rest, ⟨hend, rfl⟩, hm⟩

theorem mem_compatibilityTags {text : List Char} {m : Way Char WheelGroup} :
    m ∈ compatibilityTags.ways text ↔ ∃ python abi platform,
      (Segmented isSep python ∧ Segmented isSep abi ∧ Segmented isSep platform)
        ∧ (m.rest = [] ∨ m.rest = ['\n'])
        ∧ text = '-' :: (python ++ '-' :: (abi ++ '-' :: (platform ++ (".whl".toList ++ m.rest))))
        ∧ m = ⟨'-' :: (python ++ '-' :: (abi ++ '-' :: (platform ++ ".whl".toList))),
          [(.python, python), (.abi, abi), (.platform, platform)], m.rest⟩ := by
  rw [compatibilityTags, mem_hyphenated_seq]
  constructor
  · rintro ⟨python, rest₁, m₁, hpython, rfl, h₁, rfl⟩
    obtain ⟨abi, rest₂, m₂, habi, rfl, h₂, rfl⟩ := mem_hyphenated_seq.mp h₁
    obtain ⟨platform, rest₃, m₃, hplatform, rfl, h₃, rfl⟩ := mem_hyphenated_seq.mp h₂
    obtain ⟨hend, hrest, hm⟩ := mem_wheelEnd.mp h₃
    refine ⟨python, abi, platform, ⟨hpython, habi, hplatform⟩, hend, by rw [hrest], ?_⟩
    rw [hm]
  · rintro ⟨python, abi, platform, ⟨hpython, habi, hplatform⟩, hend, htext, hm⟩
    have hlast : (⟨".whl".toList, [], m.rest⟩ : Way Char WheelGroup)
        ∈ wheelEnd.ways (".whl".toList ++ m.rest) := mem_wheelEnd.mpr ⟨hend, rfl, rfl⟩
    exact ⟨python, _, _, hpython, htext, mem_hyphenated_seq.mpr ⟨abi, _, _, habi, rfl,
      mem_hyphenated_seq.mpr ⟨platform, _, _, hplatform, rfl, hlast, rfl⟩, rfl⟩, hm⟩

namespace WheelTail

theorem length_parts (t : WheelTail) : t.parts.length = 4 + t.build.toList.length := by
  simp [parts]
  omega

theorem eq_of_parts {t t' : WheelTail} (ht : t.build = none) (ht' : t'.build = none)
    (h : t.parts = t'.parts) : t = t' := by
  obtain ⟨version, build, python, abi, platform⟩ := t
  obtain ⟨version', build', python', abi', platform'⟩ := t'
  subst ht ht'
  simpa [parts] using h

theorem text_none (version python abi platform : List Char) :
    (⟨version, none, python, abi, platform⟩ : WheelTail).text
      = '-' :: (version ++ '-' :: (python ++ '-' :: (abi ++ '-' :: platform))) := by
  simp [text, parts]

theorem text_some (version build python abi platform : List Char) :
    (⟨version, some build, python, abi, platform⟩ : WheelTail).text
      = '-' :: (version ++ '-' :: (build ++ '-' :: (python ++ '-' :: (abi
        ++ '-' :: platform)))) := by
  simp [text, parts]

end WheelTail

/-- The four or five parts after the distribution. -/
theorem mem_afterDistribution {text : List Char} {m : Way Char WheelGroup} :
    m ∈ afterDistribution.ways text ↔ ∃ t : WheelTail, (∀ part ∈ t.parts, Segmented isSep part)
      ∧ (m.rest = [] ∨ m.rest = ['\n']) ∧ text = t.text ++ (".whl".toList ++ m.rest)
      ∧ m = ⟨t.text ++ ".whl".toList, t.groups, m.rest⟩ := by
  rw [afterDistribution, mem_hyphenated_seq]
  constructor
  · rintro ⟨version, rest₁, m₁, hversion, rfl, h₁, rfl⟩
    rcases Regex.mem_optional_seq.mp h₁ with h₂ | h₂
    · obtain ⟨build, rest₂, m₂, hbuild, rfl, h₃, rfl⟩ := mem_hyphenated_seq.mp h₂
      obtain ⟨python, abi, platform, ⟨hpython, habi, hplatform⟩, hend, hrest, hm⟩ :=
        mem_compatibilityTags.mp h₃
      refine ⟨⟨version, some build, python, abi, platform⟩, ?_, hend, ?_, ?_⟩
      · exact List.forall_mem_cons.mpr ⟨hversion, List.forall_mem_cons.mpr ⟨hbuild,
          List.forall_mem_cons.mpr ⟨hpython, List.forall_mem_cons.mpr ⟨habi,
          List.forall_mem_singleton.mpr hplatform⟩⟩⟩⟩
      · rw [hrest, WheelTail.text_some]
        simp only [List.append_assoc, List.cons_append]
      · rw [hm, WheelTail.text_some]
        simp only [List.append_assoc, List.cons_append]
        rfl
    · obtain ⟨python, abi, platform, ⟨hpython, habi, hplatform⟩, hend, hrest, hm⟩ :=
        mem_compatibilityTags.mp h₂
      refine ⟨⟨version, none, python, abi, platform⟩, ?_, hend, ?_, ?_⟩
      · exact List.forall_mem_cons.mpr ⟨hversion, List.forall_mem_cons.mpr ⟨hpython,
          List.forall_mem_cons.mpr ⟨habi, List.forall_mem_singleton.mpr hplatform⟩⟩⟩
      · rw [hrest, WheelTail.text_none]
        simp only [List.append_assoc, List.cons_append]
      · rw [hm, WheelTail.text_none]
        simp only [List.append_assoc, List.cons_append]
        rfl
  · rintro ⟨⟨version, build, python, abi, platform⟩, hparts, hend, htext, hm⟩
    obtain ⟨hversion, hparts⟩ := List.forall_mem_cons.mp hparts
    obtain ⟨hbuild, htags⟩ := List.forall_mem_append.mp hparts
    obtain ⟨hpython, htags⟩ := List.forall_mem_cons.mp htags
    obtain ⟨habi, htags⟩ := List.forall_mem_cons.mp htags
    have hplatform := List.forall_mem_singleton.mp htags
    have hlast : (⟨'-' :: (python ++ '-' :: (abi ++ '-' :: (platform ++ ".whl".toList))),
          [(.python, python), (.abi, abi), (.platform, platform)], m.rest⟩ : Way Char WheelGroup)
        ∈ compatibilityTags.ways ('-' :: (python ++ '-' :: (abi ++ '-' :: (platform
          ++ (".whl".toList ++ m.rest))))) :=
      mem_compatibilityTags.mpr ⟨python, abi, platform, ⟨hpython, habi, hplatform⟩, hend, rfl, rfl⟩
    cases build with
    | none =>
        refine ⟨version, _, _, hversion, ?_, Regex.mem_optional_seq.mpr (.inr hlast), ?_⟩
        · rw [htext, WheelTail.text_none]
          simp only [List.append_assoc, List.cons_append]
        · rw [hm, WheelTail.text_none]
          simp only [List.append_assoc, List.cons_append]
          rfl
    | some build =>
        refine ⟨version, _, _, hversion, ?_, Regex.mem_optional_seq.mpr (.inl
          (mem_hyphenated_seq.mpr ⟨build, _, _, hbuild build List.mem_cons_self, rfl, hlast,
            rfl⟩)), ?_⟩
        · rw [htext, WheelTail.text_some]
          simp only [List.append_assoc, List.cons_append]
        · rw [hm, WheelTail.text_some]
          simp only [List.append_assoc, List.cons_append]
          rfl

/-! ## Hyphens -/

/-- Between its hyphens. -/
def pieces (part : List Char) : List (List Char) := part.splitOn '-'

theorem pieces_of_notMem {part : List Char} (h : '-' ∉ part) : pieces part = [part] :=
  List.splitOn_eq_singleton h

theorem eq_of_pieces {part piece : List Char} (h : pieces part = [piece]) : part = piece := by
  have hjoin : ['-'].intercalate (pieces part) = part := List.intercalate_splitOn '-'
  rw [h, List.intercalate_singleton] at hjoin
  exact hjoin.symm

theorem pieces_text (distribution : List Char) (parts : List (List Char)) :
    pieces (distribution ++ parts.flatMap fun part => '-' :: part)
      = pieces distribution ++ parts.flatMap pieces := by
  induction parts generalizing distribution with
  | nil => rw [List.flatMap_nil, List.flatMap_nil, List.append_nil, List.append_nil]
  | cons part parts ih =>
      rw [List.flatMap_cons, List.cons_append, List.flatMap_cons, pieces,
        List.splitOn_append_cons_self, ← pieces, ← pieces, ih]

theorem flatMap_pieces_of_notMem {parts : List (List Char)} (h : ∀ part ∈ parts, '-' ∉ part) :
    parts.flatMap pieces = parts := by
  induction parts with
  | nil => rfl
  | cons part parts ih =>
      obtain ⟨hpart, hparts⟩ := List.forall_mem_cons.mp h
      rw [List.flatMap_cons, pieces_of_notMem hpart, ih hparts]
      rfl

/-- As many pieces as parts: the parts are the pieces. -/
theorem pieces_length (parts : List (List Char)) :
    parts.length ≤ (parts.flatMap pieces).length
      ∧ ((parts.flatMap pieces).length ≤ parts.length → parts.flatMap pieces = parts) := by
  induction parts with
  | nil => exact ⟨Nat.le_refl _, fun _ => rfl⟩
  | cons part parts ih =>
      rw [List.flatMap_cons, List.length_append, List.length_cons]
      cases hpieces : pieces part with
      | nil => exact absurd hpieces (List.splitOn_ne_nil '-' part)
      | cons piece more =>
          rw [List.length_cons]
          refine ⟨by omega, fun hle => ?_⟩
          have hmore : more.length = 0 := by omega
          obtain rfl := List.length_eq_zero_iff.mp hmore
          rw [List.length_nil] at hle
          rw [ih.2 (by omega), eq_of_pieces hpieces]
          rfl

theorem length_intercalate_lt {front back : List (List Char)} (hfront : front ≠ [])
    (hback : back ≠ []) :
    (['-'].intercalate front).length < (['-'].intercalate (front ++ back)).length := by
  induction front with
  | nil => exact absurd rfl hfront
  | cons part front ih =>
      cases front with
      | nil =>
          obtain ⟨next, back, rfl⟩ := List.exists_cons_of_ne_nil hback
          simp [List.intercalate_cons_cons]
      | cons next front =>
          have h := ih (List.cons_ne_nil _ _)
          simp only [List.cons_append, List.intercalate_cons_cons, List.length_append] at h ⊢
          omega

/-! ## The reading of a name -/

structure WheelName extends WheelTail where
  distribution : List Char

/-- What the function returns for these parts. -/
def WheelName.info (w : WheelName) : FilenameInfo where
  distribution := String.ofList w.distribution
  version := String.ofList w.version
  pythonTag := String.ofList w.pythonTag
  abiTag := String.ofList w.abiTag
  platformTag := String.ofList w.platformTag

/-- All hyphens but four are in the distribution. -/
structure WheelName.Reading (r : WheelName) (text : List Char) : Prop where
  noBuild : r.build = none
  distribution : Segmented isSep r.distribution
  parts : ∀ part ∈ r.parts, Segmented isSep part
  noHyphen : ∀ part ∈ r.parts, '-' ∉ part
  spelled : ∃ rest, (rest = [] ∨ rest = ['\n'])
    ∧ text = r.distribution ++ (r.text ++ (".whl".toList ++ rest))

/-- What comes before the suffix, and what after it. -/
theorem suffix_unique {stem stem' rest rest' : List Char} (hrest : rest = [] ∨ rest = ['\n'])
    (hrest' : rest' = [] ∨ rest' = ['\n'])
    (h : stem ++ (".whl".toList ++ rest) = stem' ++ (".whl".toList ++ rest')) :
    stem = stem' ∧ rest = rest' := by
  have hlast := congrArg List.getLast? h
  rcases hrest with rfl | rfl <;> rcases hrest' with rfl | rfl
  · exact ⟨List.append_cancel_right h, rfl⟩
  · simp at hlast
  · simp at hlast
  · exact ⟨List.append_cancel_right h, rfl⟩

theorem intercalate_cons (distribution : List Char) (parts : List (List Char)) :
    ['-'].intercalate (distribution :: parts)
      = distribution ++ parts.flatMap fun part => '-' :: part := by
  induction parts generalizing distribution with
  | nil => rw [List.intercalate_singleton, List.flatMap_nil, List.append_nil]
  | cons part parts ih =>
      rw [List.intercalate_cons_cons, ih, List.flatMap_cons, List.append_assoc]
      rfl

namespace WheelName.Reading

variable {r : WheelName} {text : List Char}

theorem pieces_parts (h : r.Reading text) : r.parts.flatMap pieces = r.parts :=
  flatMap_pieces_of_notMem h.noHyphen

/-- No distribution that is as long leaves enough pieces for another reading. -/
theorem eq_of_pieces (h : r.Reading text) {d : List Char} {t : WheelTail}
    (hlength : r.distribution.length ≤ d.length)
    (hpieces : pieces d ++ t.parts.flatMap pieces = pieces r.distribution ++ r.parts) :
    d = r.distribution ∧ t = r.toWheelTail := by
  have hjoin : ∀ part, ['-'].intercalate (pieces part) = part :=
    fun _ => List.intercalate_splitOn '-'
  have hread : r.parts.length = 4 := by
    rw [WheelTail.length_parts, h.noBuild]
    rfl
  have hfour := t.length_parts
  obtain ⟨hge, hsame⟩ := pieces_length t.parts
  have hboth : pieces d = pieces r.distribution ∧ t.parts.flatMap pieces = r.parts := by
    rcases List.append_eq_append_iff.mp hpieces with ⟨more, hmore, hrest⟩ | ⟨more, hmore, hrest⟩
    · cases more with
      | nil => exact ⟨(hmore.trans (List.append_nil _)).symm, hrest⟩
      | cons piece more =>
          have hlt := length_intercalate_lt (List.splitOn_ne_nil '-' d)
            (List.cons_ne_nil piece more)
          rw [← pieces, ← hmore, hjoin, hjoin] at hlt
          omega
    · have hcount := congrArg List.length hrest
      rw [List.length_append] at hcount
      obtain rfl := List.length_eq_zero_iff.mp (show more.length = 0 by omega)
      exact ⟨hmore.trans (List.append_nil _), hrest.symm⟩
  obtain ⟨hd, hparts⟩ := hboth
  rw [hparts] at hge hsame
  have hnone : t.build = none := by
    cases hbuild : t.build with
    | none => rfl
    | some tag =>
        rw [hbuild, Option.toList_some, List.length_singleton] at hfour
        omega
  refine ⟨by rw [← hjoin d, hd, hjoin], WheelTail.eq_of_parts hnone h.noBuild ?_⟩
  exact (hsame (by omega)).symm

/-- A reading is a way to match the name. -/
theorem ways (h : r.Reading text) : ∃ rest,
    (⟨r.distribution, [(.distribution, r.distribution)], rest⟩ : Way Char WheelGroup)
      ∈ (Regex.group .distribution component).ways text
    ∧ afterDistribution.ways rest ≠ [] := by
  obtain ⟨rest, hend, htext⟩ := h.spelled
  refine ⟨r.text ++ (".whl".toList ++ rest), ?_, ?_⟩
  · exact Regex.mem_group.mpr
      ⟨⟨_, [], _⟩, (component_reads _ _).mpr ⟨htext, h.distribution, rfl⟩, rfl⟩
  · have hway : (⟨r.text ++ ".whl".toList, r.groups, rest⟩ : Way Char WheelGroup)
        ∈ afterDistribution.ways (r.text ++ (".whl".toList ++ rest)) :=
      mem_afterDistribution.mpr ⟨r.toWheelTail, h.parts, hend, rfl, rfl⟩
    exact List.ne_nil_of_mem hway

/-- **The reading is the way that is found.** -/
theorem matchStart_eq (h : r.Reading text) : ∃ m, wheelPattern.matchStart text = some m
    ∧ m.groups = (.distribution, r.distribution) :: r.groups := by
  obtain ⟨rest', hfirst, hlater⟩ := h.ways
  cases hm : wheelPattern.matchStart text with
  | none =>
      obtain ⟨b, hb⟩ := List.exists_mem_of_ne_nil _ hlater
      have hway := Regex.mem_seq.mpr ⟨_, hfirst, b, hb, rfl⟩
      rw [Regex.matchStart, List.head?_eq_none_iff] at hm
      rw [← wheelPattern, hm] at hway
      exact absurd hway List.not_mem_nil
  | some m =>
      refine ⟨m, rfl, ?_⟩
      obtain ⟨a, ha, ⟨b, hb, rfl⟩, hlongest⟩ :=
        Regex.matchStart_seq (Regex.longestFirst_group (component_longestFirst _) _) hm
      have hlength := hlongest _ hfirst hlater
      obtain ⟨⟨d, groups, rest⟩, hd, rfl⟩ := Regex.mem_group.mp ha
      obtain ⟨hname, -, hgroups⟩ := (component_reads _ _).mp hd
      obtain ⟨t, -, hend, hrest, hb⟩ := mem_afterDistribution.mp hb
      obtain ⟨rest₀, hend₀, htext⟩ := h.spelled
      dsimp only at hname hgroups hrest hlength
      have hstem : d ++ t.text = r.distribution ++ r.text := by
        refine (suffix_unique hend hend₀ ?_).1
        rw [List.append_assoc, ← hrest, ← hname, htext, List.append_assoc]
      have hpieces : pieces d ++ t.parts.flatMap pieces = pieces r.distribution ++ r.parts := by
        have h' := congrArg pieces hstem
        rwa [WheelTail.text, WheelTail.text, pieces_text, pieces_text, h.pieces_parts] at h'
      obtain ⟨hd, ht⟩ := h.eq_of_pieces hlength hpieces
      show groups ++ [(WheelGroup.distribution, d)] ++ b.groups = _
      rw [hgroups, hb, hd, ht]
      rfl

theorem match_eq {filename : String} (h : r.Reading filename.toList) :
    matchWheelFilename filename = .ok r.info := by
  obtain ⟨m, hm, hgroups⟩ := h.matchStart_eq
  have hnone := h.noBuild
  rw [matchWheelFilename, hm]
  simp only [groupText, Way.group?, hgroups, WheelTail.groups, hnone]
  rfl

end WheelName.Reading

/-! ## The closed form

`validateWheelFilename` reads the parts off the hyphens, from the end. -/

theorem isTag_iff {part : List Char} : isTag part = true ↔ Segmented isTagSep part := by
  have hword : ∀ w : List Char, (!w.isEmpty && w.all isAlnum) = true
      ↔ w ≠ [] ∧ ∀ c ∈ w, isAlnum c = true := by
    intro w
    rw [Bool.and_eq_true, Bool.not_eq_true', List.isEmpty_eq_false_iff, List.all_eq_true]
  constructor
  · intro h
    induction hlength : part.length using Nat.strong_induction_on generalizing part with
    | h n ih =>
        have hsplit := List.takeWhile_append_dropWhile (p := fun c => !isTagSep c) (l := part)
        have hinside : ∀ c ∈ part.takeWhile fun c => !isTagSep c, isTagSep c = false :=
          fun c hc => by simpa using List.all_eq_true.mp List.all_takeWhile c hc
        cases hrest : part.dropWhile fun c => !isTagSep c with
        | nil =>
            rw [hrest, List.append_nil] at hsplit
            rw [hsplit] at hinside
            rw [isTag, List.splitOnP_eq_singleton (p := fun c => c = '_' || c = '.') hinside,
              List.all_cons, List.all_nil, Bool.and_true, hword] at h
            exact .word h.1 h.2
        | cons c back =>
            have hc : isTagSep c = true := by
              have hhead := List.head?_dropWhile_not (fun c => !isTagSep c) part
              rw [hrest] at hhead
              simpa using hhead
            rw [hrest] at hsplit
            rw [← hsplit, isTag, List.splitOnP_append_cons_of_forall_mem
              (p := fun c => c = '_' || c = '.') hinside c hc, List.all_cons, Bool.and_eq_true,
              hword] at h
            rw [← hsplit] at hlength ⊢
            refine .more h.1.1 h.1.2 hc (ih back.length ?_ h.2 rfl)
            rw [← hlength, List.length_append, List.length_cons]
            omega
  · intro h
    have hinside : ∀ {w : List Char}, (∀ c ∈ w, isAlnum c = true) →
        ∀ c ∈ w, isTagSep c = false := by
      intro w hw c hc
      cases hsep : isTagSep c with
      | false => rfl
      | true =>
          have hno := isSep_isAlnum (hw c hc)
          simp only [isTagSep, isSep, Bool.or_eq_true, Bool.or_eq_false_iff, decide_eq_true_eq,
            decide_eq_false_iff_not] at hsep hno
          exact absurd hsep (not_or.mpr ⟨hno.1.2, hno.2⟩)
    induction h with
    | word hne hw =>
        rw [isTag, List.splitOnP_eq_singleton (p := fun c => c = '_' || c = '.') (hinside hw),
          List.all_cons, List.all_nil, Bool.and_true, hword]
        exact ⟨hne, hw⟩
    | more hne hw hc _ ih =>
        rw [isTag, List.splitOnP_append_cons_of_forall_mem (p := fun c => c = '_' || c = '.')
          (hinside hw) _ hc, List.all_cons, Bool.and_eq_true, hword]
        exact ⟨⟨hne, hw⟩, ih⟩

theorem pieces_append {front : List Char} (hfront : '-' ∉ front) (part : List Char) :
    ∃ piece more, pieces part = piece :: more
      ∧ pieces (front ++ part) = (front ++ piece) :: more := by
  by_cases hpart : '-' ∈ part
  · obtain ⟨piece, back, rfl, hpiece⟩ := List.eq_append_cons_of_mem hpart
    refine ⟨piece, pieces back, List.splitOn_append_cons_self_of_not_mem hpiece back, ?_⟩
    rw [← List.append_assoc]
    refine List.splitOn_append_cons_self_of_not_mem ?_ back
    rw [List.mem_append, not_or]
    exact ⟨hfront, hpiece⟩
  · refine ⟨part, [], pieces_of_notMem hpart, pieces_of_notMem ?_⟩
    rw [List.mem_append, not_or]
    exact ⟨hfront, hpart⟩

theorem Segmented.pieces {part : List Char} (h : Segmented isSep part) :
    ∀ piece ∈ Zmux.pieces part, Segmented isTagSep piece := by
  have hyphen_notMem : ∀ {w : List Char}, w ≠ [] → (∀ c ∈ w, isAlnum c = true) → '-' ∉ w :=
    fun hne hw => Segmented.hyphen_notMem (.word hne hw)
  induction h with
  | word hne hw =>
      rw [pieces_of_notMem (hyphen_notMem hne hw)]
      exact List.forall_mem_singleton.mpr (.word hne hw)
  | @more w part c hne hw hc _ ih =>
      by_cases hhyphen : c = '-'
      · subst hhyphen
        rw [Zmux.pieces, List.splitOn_append_cons_self_of_not_mem (hyphen_notMem hne hw)]
        exact List.forall_mem_cons.mpr ⟨.word hne hw, ih⟩
      · have hsep : isTagSep c = true := by
          simp only [isSep, isTagSep, Bool.or_eq_true, decide_eq_true_eq, or_assoc] at hc ⊢
          exact hc.resolve_left hhyphen
        have hfront : '-' ∉ w ++ [c] := by
          rw [List.mem_append, List.mem_singleton, not_or]
          exact ⟨hyphen_notMem hne hw, fun h => hhyphen h.symm⟩
        obtain ⟨piece, more, hpart, hwhole⟩ := pieces_append hfront part
        rw [hpart, List.forall_mem_cons] at ih
        rw [List.append_assoc, List.singleton_append] at hwhole
        rw [hwhole, List.append_assoc, List.singleton_append]
        exact List.forall_mem_cons.mpr ⟨.more hne hw hsep ih.1, ih.2⟩

theorem segmented_intercalate {parts : List (List Char)} (hne : parts ≠ [])
    (h : ∀ part ∈ parts, Segmented isSep part) : Segmented isSep (['-'].intercalate parts) := by
  induction parts with
  | nil => exact absurd rfl hne
  | cons part parts ih =>
      obtain ⟨hpart, hparts⟩ := List.forall_mem_cons.mp h
      cases parts with
      | nil => rwa [List.intercalate_singleton]
      | cons next parts =>
          rw [List.intercalate_cons_cons, List.append_assoc]
          exact hpart.hyphen (ih (List.cons_ne_nil _ _) hparts)

theorem Segmented.ofTag {part : List Char} (h : Segmented isTagSep part) :
    Segmented isSep part := by
  refine h.imp fun c hc => ?_
  simp only [isTagSep, isSep, Bool.or_eq_true, decide_eq_true_eq] at hc ⊢
  exact hc.imp_left Or.inr

theorem pieces_injective {text text' : List Char} (h : pieces text = pieces text') :
    text = text' := by
  have hjoin : ∀ text, ['-'].intercalate (pieces text) = text :=
    fun _ => List.intercalate_splitOn '-'
  rw [← hjoin text, h, hjoin]

theorem exists_lastFour {parts : List (List Char)} (h : 5 ≤ parts.length) :
    ∃ front version python abi platform, front ≠ []
      ∧ parts = front ++ [version, python, abi, platform] := by
  match hparts : parts.reverse with
  | platform :: abi :: python :: version :: last :: front =>
      refine ⟨(last :: front).reverse, version, python, abi, platform, by simp, ?_⟩
      rw [← List.reverse_reverse parts, hparts]
      simp
  | [] | [_] | [_, _] | [_, _, _] | [_, _, _, _] =>
      have hlength := congrArg List.length hparts
      rw [List.length_reverse] at hlength
      simp only [List.length_cons, List.length_nil] at hlength
      omega

/-- Five pieces or more that are tags are a reading. -/
theorem exists_reading {stem rest : List Char} (hrest : rest = [] ∨ rest = ['\n'])
    {front : List (List Char)} {version python abi platform : List Char} (hne : front ≠ [])
    (hpieces : pieces stem = front ++ [version, python, abi, platform])
    (htags : ∀ piece ∈ pieces stem, Segmented isTagSep piece) :
    ∃ r : WheelName, r.Reading (stem ++ (".whl".toList ++ rest)) := by
  rw [hpieces, List.forall_mem_append] at htags
  obtain ⟨hfront, hlast⟩ := htags
  let t : WheelTail := ⟨version, none, python, abi, platform⟩
  have hfrontPieces : pieces (['-'].intercalate front) = front :=
    List.splitOn_intercalate '-' (fun part h => (hfront part h).hyphen_notMem) hne
  have hstem : stem = ['-'].intercalate front ++ t.text := by
    refine pieces_injective ?_
    rw [WheelTail.text, pieces_text,
      hfrontPieces,
      flatMap_pieces_of_notMem (show ∀ part ∈ t.parts, '-' ∉ part from
        fun part h => (hlast part h).hyphen_notMem)]
    exact hpieces
  refine ⟨⟨t, ['-'].intercalate front⟩, rfl,
    segmented_intercalate hne fun part h => (hfront part h).ofTag,
    fun part h => (hlast part h).ofTag, fun part h => (hlast part h).hyphen_notMem, rest, hrest, ?_⟩
  rw [hstem, List.append_assoc]

/-- Every way has such pieces. -/
theorem exists_reading_of_way {text : List Char} {m : Way Char WheelGroup}
    (hm : m ∈ wheelPattern.ways text) : ∃ r : WheelName, r.Reading text := by
  obtain ⟨a, ha, b, hb, rfl⟩ := Regex.mem_seq.mp hm
  obtain ⟨⟨d, groups, rest⟩, hd, rfl⟩ := Regex.mem_group.mp ha
  obtain ⟨htext, hsegmented, -⟩ := (component_reads _ _).mp hd
  obtain ⟨t, hparts, hend, hrest, -⟩ := mem_afterDistribution.mp hb
  dsimp only at htext hsegmented hrest
  have hpieces : pieces (d ++ t.text) = pieces d ++ t.parts.flatMap pieces := pieces_text d t.parts
  have htags : ∀ piece ∈ pieces (d ++ t.text), Segmented isTagSep piece := by
    rw [hpieces, List.forall_mem_append]
    refine ⟨hsegmented.pieces, fun piece h => ?_⟩
    obtain ⟨part, hpart, hpiece⟩ := List.mem_flatMap.mp h
    exact (hparts part hpart).pieces piece hpiece
  have hfive : 5 ≤ (pieces (d ++ t.text)).length := by
    have hd := List.length_pos_of_ne_nil (List.splitOn_ne_nil '-' d)
    have ht := (pieces_length t.parts).1
    rw [t.length_parts] at ht
    rw [hpieces, List.length_append, pieces]
    omega
  obtain ⟨front, version, python, abi, platform, hne, hlast⟩ := exists_lastFour hfive
  have h := exists_reading hend hne hlast htags
  rwa [List.append_assoc, ← hrest, ← htext] at h

theorem line_eq {stem rest : List Char} (hrest : rest = [] ∨ rest = ['\n']) :
    (if (stem ++ (".whl".toList ++ rest)).getLast? = some '\n'
      then (stem ++ (".whl".toList ++ rest)).dropLast else stem ++ (".whl".toList ++ rest))
      = stem ++ ".whl".toList := by
  rcases hrest with rfl | rfl
  · rw [List.append_nil, if_neg]
    simp
  · rw [← List.append_assoc, if_pos List.getLast?_concat, List.dropLast_concat]

theorem WheelName.Reading.validate_eq {r : WheelName} {filename : String}
    (h : r.Reading filename.toList) : validateWheelFilename filename = .ok r.info := by
  obtain ⟨rest, hend, htext⟩ := h.spelled
  have hpieces : (r.distribution ++ r.text).splitOn '-' = pieces r.distribution ++ r.parts := by
    rw [← pieces, WheelTail.text, pieces_text, h.pieces_parts]
  have hparts : r.parts = [r.version, r.pythonTag, r.abiTag, r.platformTag] := by
    rw [WheelTail.parts, h.noBuild]
    rfl
  obtain ⟨last, front, hreverse⟩ : ∃ last front, (pieces r.distribution).reverse = last :: front :=
    List.exists_cons_of_ne_nil (by simp [pieces, List.splitOn_ne_nil])
  have hfront : (last :: front).reverse = pieces r.distribution := by
    rw [← hreverse, List.reverse_reverse]
  have htags : (r.platformTag :: r.abiTag :: r.pythonTag :: r.version :: last :: front).all isTag
      = true := by
    refine List.all_eq_true.mpr fun piece hpiece => isTag_iff.mpr ?_
    have hmem : piece ∈ r.parts ∨ piece ∈ pieces r.distribution := by
      have hswap : piece ∈ pieces r.distribution ↔ piece ∈ last :: front := by
        rw [← hreverse, List.mem_reverse]
      rw [hparts, hswap]
      simp only [List.mem_cons, List.not_mem_nil, or_false] at hpiece ⊢
      tauto
    rcases hmem with hmem | hmem
    · have hone := (h.parts piece hmem).pieces
      rw [pieces_of_notMem (h.noHyphen piece hmem)] at hone
      exact hone piece List.mem_cons_self
    · exact h.distribution.pieces piece hmem
  rw [validateWheelFilename, htext, ← List.append_assoc]
  rw [line_eq hend, if_pos (List.isSuffixOf_iff_suffix.mpr (List.suffix_append ..)),
    List.length_append, show ".whl".toList.length = 4 from rfl, Nat.add_sub_cancel,
    List.take_left, hpieces, hparts, List.reverse_append, hreverse]
  show (if _ then _ else _) = _
  rw [if_pos htags, hfront, pieces, List.intercalate_splitOn]
  rfl

theorem reading_of_validate {filename : String} {info : FilenameInfo}
    (h : validateWheelFilename filename = .ok info) :
    ∃ r : WheelName, r.Reading filename.toList := by
  rw [validateWheelFilename] at h
  obtain ⟨rest, hrest, line, hline, htext⟩ : ∃ rest, (rest = [] ∨ rest = ['\n']) ∧ ∃ line,
      (if filename.toList.getLast? = some '\n' then filename.toList.dropLast else filename.toList)
        = line ∧ filename.toList = line ++ rest := by
    by_cases hlast : filename.toList.getLast? = some '\n'
    · exact ⟨['\n'], .inr rfl, _, if_pos hlast,
        (List.dropLast_append_getLast? _ (Option.mem_def.mpr hlast)).symm⟩
    · exact ⟨[], .inl rfl, _, if_neg hlast, (List.append_nil _).symm⟩
  rw [hline] at h
  split at h
  · rename_i hsuffix
    obtain ⟨stem, rfl⟩ := List.isSuffixOf_iff_suffix.mp hsuffix
    rw [List.length_append, show ".whl".toList.length = 4 from rfl, Nat.add_sub_cancel,
      List.take_left] at h
    split at h
    · rename_i platform abi python version last front hreverse
      split at h
      · rename_i htags
        have hpieces : pieces stem
            = (last :: front).reverse ++ [version, python, abi, platform] := by
          rw [pieces, ← List.reverse_reverse (stem.splitOn '-'), hreverse]
          simp
        rw [htext, List.append_assoc]
        refine exists_reading hrest (by simp) hpieces fun piece hpiece => isTag_iff.mp ?_
        refine List.all_eq_true.mp htags piece ?_
        rwa [← hreverse, List.mem_reverse]
      · cases h
    · cases h
  · cases h

theorem validate_ok_or_error (filename : String) :
    (∃ info, validateWheelFilename filename = .ok info) ∨ validateWheelFilename filename
      = .error ("Filename does not follow PEP 427: " ++ filename) := by
  rw [validateWheelFilename]
  generalize (if filename.toList.getLast? = some '\n' then filename.toList.dropLast
    else filename.toList) = line
  split
  · split
    · split
      · exact .inl ⟨_, rfl⟩
      · exact .inr rfl
    · exact .inr rfl
  · exact .inr rfl

/-- **The closed form is what the pattern matches.** -/
theorem matchWheelFilename_eq (filename : String) :
    matchWheelFilename filename = validateWheelFilename filename := by
  by_cases h : ∃ r : WheelName, r.Reading filename.toList
  · obtain ⟨r, hr⟩ := h
    rw [hr.match_eq, hr.validate_eq]
  · have hmatch : wheelPattern.matchStart filename.toList = none := by
      cases hm : wheelPattern.matchStart filename.toList with
      | none => rfl
      | some m => exact absurd (exists_reading_of_way (List.mem_of_mem_head? hm)) h
    rw [matchWheelFilename, hmatch]
    rcases validate_ok_or_error filename with ⟨info, hok⟩ | herror
    · exact absurd (reading_of_validate hok) h
    · exact herror.symm

/-! ## Names composed of parts -/

/-- The parts joined with hyphens, and `.whl`. -/
def WheelName.filename (w : WheelName) : List Char :=
  ['-'].intercalate (w.distribution :: w.parts) ++ ".whl".toList

/-- The parts are letters and digits with single `_` or `.` inside. -/
structure PlainName extends WheelName where
  plain : ∀ part ∈ distribution :: toWheelTail.parts, Segmented isTagSep part

/-- What the pattern takes the parts for: with a build tag, the version is
the end of the distribution, and the tag is the version. -/
def WheelName.read (w : WheelName) : WheelName :=
  match w.build with
  | none => w
  | some tag =>
    ⟨⟨tag, none, w.pythonTag, w.abiTag, w.platformTag⟩, w.distribution ++ '-' :: w.version⟩

theorem WheelName.read_text (w : WheelName) :
    w.filename = w.read.distribution ++ (w.read.text ++ (".whl".toList ++ [])) := by
  obtain ⟨⟨version, build, python, abi, platform⟩, distribution⟩ := w
  rw [WheelName.filename, intercalate_cons, List.append_nil]
  cases build with
  | none => exact List.append_assoc ..
  | some tag => simp [WheelName.read, WheelTail.text, WheelTail.parts]

namespace PlainName

variable (w : PlainName)

/-- Every part that is read is one of the name, but for a distribution with
the version at its end. -/
theorem read_parts : w.read.build = none ∧ ∀ part ∈ w.read.parts, part ∈ w.parts := by
  obtain ⟨⟨⟨version, build, python, abi, platform⟩, distribution⟩, plain⟩ := w
  cases build with
  | none => exact ⟨rfl, fun _ => id⟩
  | some tag => exact ⟨rfl, fun _ => List.mem_cons_of_mem _⟩

theorem reading : w.read.Reading w.filename where
  noBuild := w.read_parts.1
  distribution := by
    have hdistribution := (w.plain _ List.mem_cons_self).ofTag
    rw [WheelName.read]
    split
    · exact hdistribution
    · exact hdistribution.hyphen
        (w.plain _ (List.mem_cons_of_mem _ List.mem_cons_self)).ofTag
  parts part h := (w.plain part (List.mem_cons_of_mem _ (w.read_parts.2 part h))).ofTag
  noHyphen part h := (w.plain part (List.mem_cons_of_mem _ (w.read_parts.2 part h))).hyphen_notMem
  spelled := ⟨[], .inl rfl, w.read_text⟩

theorem match_filename :
    matchWheelFilename (String.ofList w.filename) = .ok w.read.info := by
  refine WheelName.Reading.match_eq ?_
  rw [String.toList_ofList]
  exact w.reading

end PlainName

/-- **The parts come back exactly when there is no build tag.** -/
theorem filename_inverted_iff (w : PlainName) :
    matchWheelFilename (String.ofList w.filename) = .ok w.info ↔ w.build = none := by
  rw [w.match_filename, Except.ok.injEq]
  constructor
  · intro h
    have hdistribution := String.ofList_injective (congrArg FilenameInfo.distribution h)
    rw [WheelName.read] at hdistribution
    split at hdistribution
    · assumption
    · exact absurd (congrArg List.length hdistribution) (by simp)
  · intro hbuild
    rw [WheelName.read, hbuild]

/-- `demo`, `1.0`, build `1`, `py3`, `none`, `any`. -/
def builtName : PlainName where
  distribution := "demo".toList
  version := "1.0".toList
  build := some "1".toList
  pythonTag := "py3".toList
  abiTag := "none".toList
  platformTag := "any".toList
  plain := by
    have htags : (["demo".toList, "1.0".toList, "1".toList, "py3".toList, "none".toList,
      "any".toList].all isTag) = true := by decide
    exact fun part hpart => isTag_iff.mp (List.all_eq_true.mp htags part hpart)

/-- The version becomes part of the distribution, the build tag the version. -/
theorem build_tag_misread :
    String.ofList builtName.filename = "demo-1.0-1-py3-none-any.whl"
      ∧ matchWheelFilename "demo-1.0-1-py3-none-any.whl"
        = .ok ⟨"demo-1.0", "1", "py3", "none", "any"⟩
      ∧ matchWheelFilename (String.ofList builtName.filename) ≠ .ok builtName.info := by
  have hname : String.ofList builtName.filename = "demo-1.0-1-py3-none-any.whl" := rfl
  have hread := builtName.match_filename
  refine ⟨hname, hname ▸ hread, fun h => ?_⟩
  exact absurd (Except.ok.inj (hread.symm.trans h)) (by decide)

end Zmux
