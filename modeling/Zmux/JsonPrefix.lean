import Zmux.JsonWrite

/-!
# A JSON object that is cut off

Who reads a limited number of bytes may see the beginning of a text only.
If it is an object, he notices: what is read of the beginning is read of
the whole text in the same way (`Value.append`), so no object begins with
another one (`parse_object_append`). Of numbers this is not true, as `12`
begins with `1`; inside of a container a bracket or a comma ends them.
-/

namespace Zmux

namespace Json

/-! ## Scanners -/

theorem skip_more {s : List Char} (h : skip s ≠ []) (more : List Char) :
    skip (s ++ more) = skip s ++ more := by
  induction s with
  | nil => exact absurd rfl h
  | cons c s ih =>
      rw [skip, List.dropWhile_cons] at h
      rw [List.cons_append, skip, skip, List.dropWhile_cons, List.dropWhile_cons]
      split_ifs at h ⊢
      · exact ih h
      · rfl

theorem skip_append {s : List Char} {c : Char} {rest : List Char} (h : skip s = c :: rest)
    (more : List Char) : skip (s ++ more) = c :: (rest ++ more) := by
  rw [skip_more (h ▸ List.cons_ne_nil c rest), h, List.cons_append]

theorem mapRead_append {α β : Type} {f : α → β} {read read' : Option (α × List Char)}
    {rest more : List Char} (h : ∀ a, read = some (a, rest) → read' = some (a, rest ++ more))
    {b : β} (hread : mapRead f read = some (b, rest)) :
    mapRead f read' = some (b, rest ++ more) := by
  obtain ⟨a, ha, hb⟩ := mapRead_eq_some.mp hread
  exact mapRead_eq_some.mpr ⟨a, h a ha, hb⟩

theorem scanString_append {s : List Char} {text : Codes} {rest : List Char}
    (h : scanString s = some (text, rest)) (more : List Char) :
    scanString (s ++ more) = some (text, rest ++ more) := by
  fun_induction scanString s generalizing text with
  | case1 => cases h
  | case2 s =>
      obtain ⟨rfl, rfl⟩ := Prod.mk.inj (Option.some.inj h)
      rw [List.cons_append, scanString.eq_def]
      rfl
  | case3 | case4 | case6 | case7 | case9 => cases h
  | case5 a b c d s n hn hquote ih =>
      rw [scanString.eq_def]
      simp only [List.cons_append, hquote, hn, if_true, if_false]
      exact mapRead_append (fun _ => ih) h
  | case8 e s hu n hn hquote ih =>
      rw [scanString.eq_def]
      simp only [List.cons_append, hquote, hu, hn, if_true, if_false]
      exact mapRead_append (fun _ => ih) h
  | case10 e s hquote hslash hcontrol ih =>
      rw [scanString.eq_def]
      simp only [List.cons_append, hquote, hslash, hcontrol, if_false]
      exact mapRead_append (fun _ => ih) h

/-! ## Numbers -/

/-- No number goes on with this character. -/
def endsNumber (c : Char) : Bool := !c.isDigit && c ∉ ['.', 'e', 'E']

theorem digits_more {s : List Char} (h : s.dropWhile Char.isDigit ≠ []) (more : List Char) :
    (s ++ more).takeWhile Char.isDigit = s.takeWhile Char.isDigit ∧
      (s ++ more).dropWhile Char.isDigit = s.dropWhile Char.isDigit ++ more := by
  induction s with
  | nil => exact absurd rfl h
  | cons c s ih =>
      rw [List.dropWhile_cons] at h
      rw [List.cons_append, List.takeWhile_cons, List.takeWhile_cons, List.dropWhile_cons,
        List.dropWhile_cons]
      split_ifs at h ⊢ with hdigit
      · exact ⟨congrArg (c :: ·) (ih h).1, (ih h).2⟩
      · exact ⟨rfl, rfl⟩

theorem scanMark_more (marks : List Char) {s : List Char} (h : s ≠ []) (more : List Char) :
    scanMark marks (s ++ more) = ((scanMark marks s).1, (scanMark marks s).2 ++ more) := by
  cases s with
  | nil => exact absurd rfl h
  | cons c s =>
      rw [List.cons_append, scanMark, scanMark]
      split <;> rfl

theorem scanInt_more {s digits rest : List Char} (h : scanInt s = some (digits, rest))
    (hrest : rest ≠ []) (more : List Char) :
    scanInt (s ++ more) = some (digits, rest ++ more) := by
  cases s with
  | nil => cases h
  | cons c s =>
      rw [scanInt] at h
      rw [List.cons_append, scanInt]
      split_ifs at h ⊢
      · obtain ⟨rfl, rfl⟩ := Prod.mk.inj (Option.some.inj h)
        rfl
      · obtain ⟨rfl, rfl⟩ := Prod.mk.inj (Option.some.inj h)
        rw [(digits_more hrest more).1, (digits_more hrest more).2]

theorem scanFraction_more {s : List Char} (h : (scanFraction s).2 ≠ [])
    (hpoint : (scanFraction s).2 ≠ ['.']) (more : List Char) :
    scanFraction (s ++ more) = ((scanFraction s).1, (scanFraction s).2 ++ more) := by
  match s with
  | [] => exact absurd rfl h
  | [c] =>
      have hc : c ≠ '.' := fun heq => hpoint (heq ▸ rfl)
      cases more with
      | nil => rfl
      | cons d more =>
          rw [List.singleton_append, scanFraction, if_neg fun hfraction => hc hfraction.1]
          rfl
  | c :: d :: s =>
      rw [scanFraction] at h ⊢
      rw [List.cons_append, List.cons_append, scanFraction]
      split_ifs at h ⊢
      · rw [(digits_more h more).1, (digits_more h more).2]
      · rfl

theorem scanExponent_more {s : List Char} {c : Char} {rest : List Char}
    (h : (scanExponent s).2 = c :: rest) (hends : endsNumber c = true) (more : List Char) :
    scanExponent (s ++ more) = ((scanExponent s).1, c :: rest ++ more) := by
  cases s with
  | nil => cases h
  | cons b s =>
      rw [List.cons_append, scanExponent, scanExponent]
      rw [scanExponent] at h
      dsimp only at h ⊢
      by_cases hexp : b = 'e' ∨ b = 'E'
      · rw [if_pos hexp] at h ⊢
        rw [if_pos hexp]
        by_cases hnone : (scanMark ['+', '-'] s).2.takeWhile Char.isDigit = []
        · rw [if_pos hnone] at h
          obtain rfl := (List.cons.inj h).1
          rcases hexp with rfl | rfl <;> cases hends
        · rw [if_neg hnone] at h ⊢
          have hs : s ≠ [] := by
            rintro rfl
            exact hnone rfl
          have hdigits : (scanMark ['+', '-'] s).2.dropWhile Char.isDigit ≠ [] := by
            intro heq
            cases heq.symm.trans h
          rw [scanMark_more _ hs]
          dsimp only
          rw [(digits_more hdigits more).1, (digits_more hdigits more).2, if_neg hnone]
          exact Prod.ext rfl (congrArg (· ++ more) h)
      · rw [if_neg hexp] at h ⊢
        obtain ⟨rfl, rfl⟩ := List.cons.inj h
        rw [if_neg hexp]
        rfl

/-- What ends a number ends it, whatever comes then. -/
theorem matchNumber_more {s : List Char} {v : Json} {c : Char} {rest : List Char}
    (h : matchNumber s = some (v, c :: rest)) (hends : endsNumber c = true) (more : List Char) :
    matchNumber (s ++ more) = some (v, c :: rest ++ more) := by
  unfold matchNumber at h ⊢
  dsimp only at h ⊢
  split at h
  · cases h
  · rename_i digits s₁ hint
    have hrest : (scanExponent (scanFraction s₁).2).2 = c :: rest := by
      split_ifs at h <;> exact (Prod.mk.inj (Option.some.inj h)).2
    have hfraction : (scanFraction s₁).2 ≠ [] := by
      intro heq
      rw [heq] at hrest
      cases hrest
    have hpoint : (scanFraction s₁).2 ≠ ['.'] := by
      intro heq
      rw [heq] at hrest
      obtain rfl : '.' = c := (List.cons.inj hrest).1
      cases hends
    have hs₁ : s₁ ≠ [] := by
      rintro rfl
      exact hfraction rfl
    have hs : s ≠ [] := by
      rintro rfl
      cases hint
    rw [scanMark_more _ hs]
    dsimp only
    rw [scanInt_more hint hs₁]
    dsimp only
    rw [scanFraction_more hfraction hpoint]
    dsimp only
    rw [scanExponent_more hrest hends]
    split_ifs at h ⊢
    all_goals
      obtain ⟨rfl, -⟩ := Prod.mk.inj (Option.some.inj h)
      rfl

/-! ## Values -/

theorem scanConstant_word : ∀ constant ∈ constants, ∀ rest,
    scanConstant (constant.1 ++ rest) = some (constant.2, rest) := by
  simp [constants, scanConstant]

theorem scanConstant_append {s : List Char} {v : Json} {rest : List Char}
    (h : scanConstant s = some (v, rest)) (more : List Char) :
    scanConstant (s ++ more) = some (v, rest ++ more) := by
  obtain ⟨word, hmem, rfl⟩ := scanConstant_eq h
  rw [List.append_assoc]
  exact scanConstant_word _ hmem _

/-- A bracket or a comma comes next. -/
def Closes (s : List Char) : Prop := ∃ c ∈ [',', ']', '\x7d'], ∃ rest, skip s = c :: rest

theorem closes_of_skip {s rest : List Char} {c : Char} (h : skip s = c :: rest)
    (hc : c ∈ [',', ']', '\x7d']) : Closes s := ⟨c, hc, rest, h⟩

theorem Closes.endsNumber {s : List Char} (h : Closes s) :
    ∃ c rest, s = c :: rest ∧ endsNumber c = true := by
  obtain ⟨d, hd, rest, hskip⟩ := h
  cases s with
  | nil => cases hskip
  | cons c s =>
      refine ⟨c, s, rfl, ?_⟩
      rw [skip, List.dropWhile_cons] at hskip
      split_ifs at hskip with hblank
      · have hc : c = ' ' ∨ c = '\t' ∨ c = '\n' ∨ c = '\r' := by simpa [isBlank] using hblank
        rcases hc with rfl | rfl | rfl | rfl <;> rfl
      · obtain ⟨rfl, -⟩ := List.cons.inj hskip
        have hc : c = ',' ∨ c = ']' ∨ c = '\x7d' := by simpa using hd
        rcases hc with rfl | rfl | rfl <;> rfl

theorem Value.ne_nil {s : List Char} {v : Json} {rest : List Char} (h : Value s v rest) :
    s ≠ [] := by
  obtain ⟨c, s', rfl, -⟩ := h.head
  exact List.cons_ne_nil c s'

theorem Pairs.ne_nil {s : List Char} {fields : List (Codes × Json)} {rest : List Char}
    (h : Pairs s fields rest) : s ≠ [] := by
  cases h with
  | last | more => exact List.cons_ne_nil _ _

theorem Items.ne_nil {s : List Char} {items : List Json} {rest : List Char}
    (h : Items s items rest) : s ≠ [] := by
  obtain ⟨c, s', rfl, -⟩ := h.head
  exact List.cons_ne_nil c s'

mutual

/-- What is read of the beginning of a text is read of the whole. -/
theorem Value.append : ∀ {s v rest}, Value s v rest → Closes rest → ∀ more,
    Value (s ++ more) v (rest ++ more)
  | _, _, _, .string h, _, more => .string (scanString_append h more)
  | _, _, _, .emptyObject h, _, more => .emptyObject (skip_append h more)
  | _, _, _, .object h, _, more => .object (skip_more h.ne_nil more ▸ h.append more)
  | _, _, _, .emptyArray h, _, more => .emptyArray (skip_append h more)
  | _, _, _, .array h, _, more => .array (skip_more h.ne_nil more ▸ h.append more)
  | _, _, _, .constant h, _, more => .constant (scanConstant_append h more)
  | _, _, _, .number _ h, hcloses, more => by
      obtain ⟨c, rest, rfl, hends⟩ := hcloses.endsNumber
      exact .of_number (matchNumber_more h hends more)

theorem Pairs.append : ∀ {s fields rest}, Pairs s fields rest → ∀ more,
    Pairs (s ++ more) fields (rest ++ more)
  | _, _, _, .last hkey hcolon hvalue hend, more => by
      have hvalue' := hvalue.append (closes_of_skip hend (by simp)) more
      rw [← skip_more hvalue.ne_nil more] at hvalue'
      exact .last (scanString_append hkey more) (skip_append hcolon more) hvalue'
        (skip_append hend more)
  | _, _, _, .more hkey hcolon hvalue hcomma hmore, more => by
      have hvalue' := hvalue.append (closes_of_skip hcomma (by simp)) more
      have hmore' := hmore.append more
      rw [← skip_more hvalue.ne_nil more] at hvalue'
      rw [← skip_more hmore.ne_nil more] at hmore'
      exact .more (scanString_append hkey more) (skip_append hcolon more) hvalue'
        (skip_append hcomma more) hmore'

theorem Items.append : ∀ {s items rest}, Items s items rest → ∀ more,
    Items (s ++ more) items (rest ++ more)
  | _, _, _, .last hvalue hend, more =>
      .last (hvalue.append (closes_of_skip hend (by simp)) more) (skip_append hend more)
  | _, _, _, .more hvalue hcomma hmore, more => by
      have hmore' := hmore.append more
      rw [← skip_more hmore.ne_nil more] at hmore'
      exact .more (hvalue.append (closes_of_skip hcomma (by simp)) more)
        (skip_append hcomma more) hmore'

end

/-- An object needs nothing behind it to end. -/
theorem Value.append_object {s : List Char} {fields : List (Codes × Json)} {rest : List Char}
    (h : Value s (.object fields) rest) (more : List Char) :
    Value (s ++ more) (.object fields) (rest ++ more) := by
  cases h with
  | emptyObject h => exact .emptyObject (skip_append h more)
  | object h => exact .object (skip_more h.ne_nil more ▸ h.append more)
  | constant h => exact absurd h scanConstant_ne_object
  | number _ h => exact absurd h matchNumber_ne_object

theorem Value.unique {s : List Char} {v v' : Json} {rest rest' : List Char} (h : Value s v rest)
    (h' : Value s v' rest') : v = v' ∧ rest = rest' := by
  have hscan := (scan_complete (2 * s.length + 1)).1 _ _ _ h (by omega)
  have hscan' := (scan_complete (2 * s.length + 1)).1 _ _ _ h' (by omega)
  exact Prod.mk.inj (Option.some.inj (hscan.symm.trans hscan'))

/-- **An object that is cut off is none**: of a text that begins with an
object only white space can be missing. -/
theorem parse_object_append {text more : List Char} {fields : List (Codes × Json)} {v : Json}
    (h : parse text = some (.object fields)) (hmore : parse (text ++ more) = some v) :
    v = .object fields ∧ skip more = [] := by
  obtain ⟨-, rest, hvalue, hrest⟩ := parse_iff.mp h
  obtain ⟨-, rest', hvalue', hrest'⟩ := parse_iff.mp hmore
  have hwhole := hvalue.append_object more
  rw [← skip_more hvalue.ne_nil] at hwhole
  obtain ⟨rfl, rfl⟩ := hvalue'.unique hwhole
  have hblank : ∀ c ∈ rest ++ more, isBlank c = true := List.dropWhile_eq_nil_iff.mp hrest'
  exact ⟨rfl, List.dropWhile_eq_nil_iff.mpr fun c hc => hblank c (List.mem_append_right _ hc)⟩

end Json

end Zmux
