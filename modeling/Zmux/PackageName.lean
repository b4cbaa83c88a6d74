import Zmux.Text

/-!
# Package names

`canonicalize` of `zpip.py`: the one spelling under which a distribution
is looked up in the index, in the installed database and on the
recursion stack of `install`.

The source strips the name, matches it against `_NAME`, lowers it and
replaces every run of `-`, `_` and `.` by one `-`. The only law the rest
of the development needs is `canonicalize_idem`: a canonical name is its
own canonical name. `install` stores canonical names and hands them back
to `uninstall`, which canonicalizes once more.
-/

namespace Zmux

/-- A canonical package name. -/
abbrev Name := String

def isAlnum (c : Char) : Bool :=
  ('A' ≤ c && c ≤ 'Z') || ('a' ≤ c && c ≤ 'z') || ('0' ≤ c && c ≤ '9')

/-- The separators that canonical names spell `-`. -/
def isSep (c : Char) : Bool := c = '-' || c = '_' || c = '.'

/-- `_NAME.fullmatch`: `[A-Za-z0-9][A-Za-z0-9_.-]{0,127}`. -/
def validName : List Char → Bool
  | [] => false
  | c :: cs => isAlnum c && decide (cs.length ≤ 127) && cs.all fun d => isAlnum d || isSep d

/-- `re.sub(r"[-_.]+", "-", s)`. -/
def collapse : List Char → List Char
  | [] => []
  | c :: cs =>
    if isSep c then
      if (cs.head?.map isSep).getD false then collapse cs else '-' :: collapse cs
    else c :: collapse cs

/-- `canonicalize`; `none` is the `ValueError`. -/
def canonicalize (name : String) : Option Name :=
  let s := strip name.toList
  if validName s then some (String.ofList (collapse (s.map Char.toLower))) else none

/-! ## Name characters

All name characters are below 128, so a fact about them is a finite check. -/

def isNameChar (c : Char) : Bool := isAlnum c || isSep c

theorem nameChar_lt {c : Char} (h : isNameChar c = true) : c.toNat < 128 := by
  simp only [isNameChar, isAlnum, isSep, Bool.or_eq_true, Bool.and_eq_true,
    decide_eq_true_eq] at h
  rcases h with ((⟨-, h⟩ | ⟨-, h⟩) | ⟨-, h⟩) | ((rfl | rfl) | rfl)
  · exact Nat.lt_of_le_of_lt h (by decide)
  · exact Nat.lt_of_le_of_lt h (by decide)
  · exact Nat.lt_of_le_of_lt h (by decide)
  all_goals decide

theorem nameChar_facts {c : Char} (h : isNameChar c = true) :
    isSpace c = false ∧ isNameChar c.toLower = true
      ∧ isAlnum c.toLower = isAlnum c ∧ c.toLower.toLower = c.toLower := by
  have hall : ∀ n < 128, isNameChar (Char.ofNat n) = true →
      isSpace (Char.ofNat n) = false ∧ isNameChar (Char.ofNat n).toLower = true
        ∧ isAlnum (Char.ofNat n).toLower = isAlnum (Char.ofNat n)
        ∧ (Char.ofNat n).toLower.toLower = (Char.ofNat n).toLower := by decide +kernel
  have hc := hall c.toNat (nameChar_lt h)
  rw [Char.ofNat_toNat] at hc
  exact hc h

theorem validName_cons {c : Char} {cs : List Char} :
    validName (c :: cs) = true ↔
      isAlnum c = true ∧ cs.length ≤ 127 ∧ ∀ d ∈ cs, isNameChar d = true := by
  simp [validName, isNameChar, and_assoc]

theorem validName_chars {s : List Char} (h : validName s = true) :
    ∀ c ∈ s, isNameChar c = true := by
  cases s with
  | nil => simp [validName] at h
  | cons c cs =>
      obtain ⟨hc, -, hcs⟩ := validName_cons.mp h
      intro d hd
      rcases List.mem_cons.mp hd with rfl | hd
      · simp [isNameChar, hc]
      · exact hcs d hd

/-! ## Canonical names are canonical -/

theorem mem_collapse {c : Char} : ∀ {s : List Char}, c ∈ collapse s → c ∈ s ∨ c = '-'
  | [], h => by simp [collapse] at h
  | d :: ds, h => by
      rw [collapse] at h
      split at h
      · split at h
        · exact (mem_collapse h).imp_left (List.mem_cons_of_mem _)
        · rcases List.mem_cons.mp h with rfl | h
          · exact Or.inr rfl
          · exact (mem_collapse h).imp_left (List.mem_cons_of_mem _)
      · rcases List.mem_cons.mp h with rfl | h
        · exact Or.inl (List.mem_cons_self ..)
        · exact (mem_collapse h).imp_left (List.mem_cons_of_mem _)

theorem collapse_length : ∀ s : List Char, (collapse s).length ≤ s.length
  | [] => Nat.le_refl _
  | c :: cs => by
      have ih := collapse_length cs
      rw [collapse]
      split
      · split <;> simp only [List.length_cons] <;> omega
      · simp only [List.length_cons]; omega

/-- `collapse` keeps the kind of the first character, so it sees the same
runs when it is applied again. -/
theorem collapse_head : ∀ s : List Char, (collapse s).head?.map isSep = s.head?.map isSep
  | [] => rfl
  | c :: cs => by
      rw [collapse]
      split
      · rename_i hc
        split
        · rename_i hcs
          rw [collapse_head cs]
          cases hh : cs.head?.map isSep with
          | none => rw [hh] at hcs; simp at hcs
          | some b => rw [hh] at hcs; simp at hcs; simp [hc, hcs]
        · show some (isSep '-') = some (isSep c)
          rw [hc]; rfl
      · rfl

theorem collapse_idem : ∀ s : List Char, collapse (collapse s) = collapse s
  | [] => rfl
  | c :: cs => by
      have ih := collapse_idem cs
      rw [collapse]
      split
      · split
        · exact ih
        · rename_i hcs
          rw [collapse, collapse_head, ih]
          simp [isSep, hcs]
      · rename_i hc
        rw [collapse, ih]
        simp [hc]

theorem validName_collapse {s : List Char} (h : validName s = true) :
    validName (collapse (s.map Char.toLower)) = true := by
  cases s with
  | nil => simp [validName] at h
  | cons c cs =>
      have hchars := validName_chars h
      obtain ⟨hc, hlen, -⟩ := validName_cons.mp h
      have hcl : isAlnum c.toLower = true := by
        rw [(nameChar_facts (hchars c (List.mem_cons_self ..))).2.2.1, hc]
      have hsep : isSep c.toLower = false := by
        have hall : ∀ n < 128, isAlnum (Char.ofNat n) = true → isSep (Char.ofNat n) = false := by
          decide
        have hd := hall c.toLower.toNat (nameChar_lt (by simp [isNameChar, hcl]))
        rw [Char.ofNat_toNat] at hd
        exact hd hcl
      rw [List.map_cons, collapse, if_neg (by simp [hsep])]
      refine validName_cons.mpr ⟨hcl, ?_, ?_⟩
      · exact Nat.le_trans (collapse_length _) (by simpa using hlen)
      · intro d hd
        rcases mem_collapse hd with hd | rfl
        · obtain ⟨e, he, rfl⟩ := List.mem_map.mp hd
          exact (nameChar_facts (hchars e (List.mem_cons_of_mem _ he))).2.1
        · rfl

theorem collapse_lower {s : List Char} (h : validName s = true) :
    (collapse (s.map Char.toLower)).map Char.toLower = collapse (s.map Char.toLower) := by
  refine (List.map_congr_left fun c hc => ?_).trans (List.map_id _)
  rcases mem_collapse hc with hc | rfl
  · obtain ⟨e, he, rfl⟩ := List.mem_map.mp hc
    exact (nameChar_facts (validName_chars h e he)).2.2.2
  · rfl

/-- A canonical name is its own canonical name. -/
theorem canonicalize_idem {name : String} {package : Name}
    (h : canonicalize name = some package) : canonicalize package = some package := by
  simp only [canonicalize] at h
  split at h
  · rename_i hvalid
    obtain rfl := Option.some.inj h
    have hvalid' := validName_collapse hvalid
    have hstrip := strip_of_noSpace fun c hc =>
      (nameChar_facts (validName_chars hvalid' c hc)).1
    simp only [canonicalize, String.toList_ofList, hstrip, hvalid', if_true,
      collapse_lower hvalid, collapse_idem]
  · cases h

end Zmux
