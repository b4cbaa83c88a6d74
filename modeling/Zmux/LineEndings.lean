import Zmux.ReplaceAll

/-!
# Line endings of a text in pieces

`expand` gives every line of a text the ending `cr lf`: an ending `cr lf`
is first made `lf`, then `lf` is made `cr lf`. Of a text in pieces that
are expanded one by one, the pieces are those of the whole but at a cut
between `cr` and `lf` (`Cut`), where the `cr` comes twice. So an encoding
element by element gives the bytes of the whole exactly when there is no
such cut (`flatMap_expand_iff`).
-/

namespace Zmux

namespace LineEndings

variable {α β : Type*} [DecidableEq α] (cr lf : α)

/-- `text.replace(cr + lf, lf).replace(lf, cr + lf)`. -/
def expand (text : List α) : List α := replaceAll [lf] [cr, lf] (replaceAll [cr, lf] [lf] text)

/-- The text before ends in `cr`, and the text behind starts with `lf`. -/
def Cut (front back : List α) : Prop := front.getLast? = some cr ∧ back.head? = some lf

instance (front back : List α) : Decidable (Cut cr lf front back) := instDecidableAnd

variable {cr lf} {front back rest : List α} {a : α}

theorem expand_crlf : expand cr lf (cr :: lf :: rest) = cr :: lf :: expand cr lf rest := by
  have hinner : replaceAll [cr, lf] [lf] (cr :: lf :: rest)
      = [lf] ++ replaceAll [cr, lf] [lf] rest := replaceAll_hit (List.cons_ne_nil _ _)
  rw [expand, hinner, replaceAll_hit (List.cons_ne_nil _ _)]
  rfl

theorem expand_lf (hne : cr ≠ lf) :
    expand cr lf (lf :: rest) = cr :: lf :: expand cr lf rest := by
  have hmiss : ¬ [cr, lf] <+: lf :: rest := fun h =>
    hne (List.cons_prefix_cons.mp h).1
  have houter : replaceAll [lf] [cr, lf] ([lf] ++ replaceAll [cr, lf] [lf] rest)
      = [cr, lf] ++ replaceAll [lf] [cr, lf] (replaceAll [cr, lf] [lf] rest) :=
    replaceAll_hit (List.cons_ne_nil _ _)
  rw [expand, replaceAll_miss hmiss]
  exact houter

theorem expand_other (hlf : a ≠ lf) (hcut : a = cr → rest.head? ≠ some lf) :
    expand cr lf (a :: rest) = a :: expand cr lf rest := by
  have hmiss : ¬ [cr, lf] <+: a :: rest := by
    intro h
    obtain ⟨rfl, more, rfl⟩ := List.cons_prefix_cons.mp h
    exact hcut rfl rfl
  have houter : ¬ [lf] <+: a :: replaceAll [cr, lf] [lf] rest := fun h =>
    hlf (List.cons_prefix_cons.mp h).1.symm
  rw [expand, replaceAll_miss hmiss, replaceAll_miss houter, expand]

omit [DecidableEq α] in
theorem Cut.append_left (h : Cut cr lf front back) (more : List α) :
    Cut cr lf (more ++ front) back := by
  refine ⟨?_, h.2⟩
  rw [List.getLast?_append, h.1]
  rfl

omit [DecidableEq α] in
theorem not_cut_nil : ¬ Cut cr lf [] back := fun h => by cases h.1

omit [DecidableEq α] in
theorem not_cut_of_append {more : List α} (h : ¬ Cut cr lf (more ++ front) back) :
    ¬ Cut cr lf front back :=
  fun hcut => h (hcut.append_left more)

/-- Elsewhere the pieces are those of the whole. -/
theorem expand_append (hne : cr ≠ lf) (h : ¬ Cut cr lf front back) :
    expand cr lf (front ++ back) = expand cr lf front ++ expand cr lf back := by
  induction front using scan_induction (List.cons_ne_nil cr [lf]) with
  | nil => rfl
  | hit rest ih =>
      change expand cr lf (cr :: lf :: (rest ++ back))
        = expand cr lf (cr :: lf :: rest) ++ expand cr lf back
      rw [expand_crlf, expand_crlf, ih (not_cut_of_append h)]
      rfl
  | miss a rest hmiss ih =>
      have hrest := ih (@not_cut_of_append _ cr lf rest back [a] h)
      rw [List.cons_append]
      by_cases hlf : a = lf
      · rw [hlf, expand_lf hne, expand_lf hne, hrest]
        rfl
      · have hinside : a = cr → rest.head? ≠ some lf := by
          rintro rfl hhead
          obtain ⟨more, rfl⟩ := List.head?_eq_some_iff.mp hhead
          exact hmiss (List.prefix_append [a, lf] more)
        have hacross : a = cr → (rest ++ back).head? ≠ some lf := by
          rintro rfl hhead
          cases rest with
          | nil => exact h ⟨rfl, hhead⟩
          | cons b rest => exact hinside rfl hhead
        rw [expand_other hlf hacross, expand_other hlf hinside, hrest, List.cons_append]

/-- At a cut between `cr` and `lf`, the `cr` comes twice. -/
theorem expand_cut (hne : cr ≠ lf) (h : Cut cr lf front back) :
    ∃ before after, expand cr lf (front ++ back) = before ++ after
      ∧ expand cr lf front ++ expand cr lf back = before ++ cr :: after := by
  obtain ⟨more, rfl⟩ := List.getLast?_eq_some_iff.mp h.1
  obtain ⟨rest, rfl⟩ := List.head?_eq_some_iff.mp h.2
  have hback : ∀ text : List α, ¬ Cut cr lf more (cr :: text) := fun text hcut =>
    hne (Option.some.inj hcut.2)
  have hlast : expand cr lf [cr] = [cr] := expand_other hne fun _ hhead => by cases hhead
  refine ⟨expand cr lf more, cr :: lf :: expand cr lf rest, ?_, ?_⟩
  · rw [List.append_assoc, List.singleton_append, expand_append hne (hback _), expand_crlf]
  · rw [expand_append hne (hback []), hlast, expand_lf hne, List.append_assoc]
    rfl

/-! ## Pieces -/

variable (cr lf) (encode : α → List β)

/-- The pieces, expanded and encoded one by one. -/
def emitted (pieces : List (List α)) : List β :=
  pieces.flatMap fun piece => (expand cr lf piece).flatMap encode

variable {cr lf encode} {pieces : List (List α)} {piece : List α}

theorem length_emitted_cons :
    (emitted cr lf encode (piece :: pieces)).length
      = ((expand cr lf piece).flatMap encode).length + (emitted cr lf encode pieces).length := by
  rw [emitted, List.flatMap_cons, List.length_append, emitted]

theorem length_expand_append (hne : cr ≠ lf) :
    ((expand cr lf (front ++ back)).flatMap encode).length
        + (if Cut cr lf front back then (encode cr).length else 0)
      = ((expand cr lf front).flatMap encode).length
        + ((expand cr lf back).flatMap encode).length := by
  by_cases h : Cut cr lf front back
  · obtain ⟨before, after, hwhole, hpieces⟩ := expand_cut hne h
    rw [if_pos h, hwhole, ← @List.length_append _ (List.flatMap encode (expand cr lf front)),
      ← List.flatMap_append, hpieces]
    simp only [List.flatMap_append, List.flatMap_cons, List.length_append]
    omega
  · rw [if_neg h, expand_append hne h, List.flatMap_append, List.length_append, Nat.add_zero]

theorem length_le_emitted (hne : cr ≠ lf) :
    ((expand cr lf pieces.flatten).flatMap encode).length
      ≤ (emitted cr lf encode pieces).length := by
  induction pieces with
  | nil => exact Nat.zero_le _
  | cons piece pieces ih =>
      have happend := @length_expand_append _ _ _ cr lf piece pieces.flatten encode hne
      rw [List.flatten_cons, length_emitted_cons]
      omega

theorem emitted_of_uncut (hne : cr ≠ lf)
    (h : ∀ front back, pieces = front ++ back → ¬ Cut cr lf front.flatten back.flatten) :
    emitted cr lf encode pieces = (expand cr lf pieces.flatten).flatMap encode := by
  induction pieces with
  | nil => rfl
  | cons piece pieces ih =>
      have hrest : ∀ front back, pieces = front ++ back →
          ¬ Cut cr lf front.flatten back.flatten := fun front back heq =>
        not_cut_of_append (h (piece :: front) back (congrArg _ heq))
      have hpiece := h [piece] pieces rfl
      rw [List.flatten_singleton] at hpiece
      rw [List.flatten_cons, expand_append hne hpiece, List.flatMap_append, ← ih hrest, emitted,
        List.flatMap_cons, emitted]

theorem uncut_of_length (hne : cr ≠ lf) (hcr : encode cr ≠ [])
    (hlength : (emitted cr lf encode pieces).length
      = ((expand cr lf pieces.flatten).flatMap encode).length) :
    ∀ front back, pieces = front ++ back → ¬ Cut cr lf front.flatten back.flatten := by
  induction pieces with
  | nil =>
      intro front back heq
      rw [(List.append_eq_nil_iff.mp heq.symm).1]
      exact not_cut_nil
  | cons piece pieces ih =>
      have hpos := List.length_pos_iff.mpr hcr
      have happend := @length_expand_append _ _ _ cr lf piece pieces.flatten encode hne
      have hle := @length_le_emitted _ _ _ cr lf encode pieces hne
      rw [List.flatten_cons, length_emitted_cons] at hlength
      have hpiece : ¬ Cut cr lf piece pieces.flatten := by
        intro hcut
        rw [if_pos hcut] at happend
        omega
      rw [if_neg hpiece] at happend
      intro front back heq hcut
      cases front with
      | nil => exact not_cut_nil hcut
      | cons first front =>
          obtain ⟨rfl, hpieces⟩ := List.cons.inj heq
          have hrest := ih (by omega) front back hpieces
          by_cases hempty : front.flatten = []
          · -- the pieces after the first one that are in front of the cut are all empty
            rw [hpieces, List.append_eq, List.flatten_append, hempty, List.nil_append] at hpiece
            rw [List.flatten_cons, hempty, List.append_nil] at hcut
            exact hpiece hcut
          · refine hrest ⟨?_, hcut.2⟩
            rw [← hcut.1, List.flatten_cons, List.getLast?_append_of_ne_nil _ hempty]

/-- **The pieces give the encoding of the whole exactly when none of them
is cut between `cr` and `lf`.** -/
theorem flatMap_expand_iff (hne : cr ≠ lf) (hcr : encode cr ≠ []) :
    emitted cr lf encode pieces = (expand cr lf pieces.flatten).flatMap encode
      ↔ ∀ front back, pieces = front ++ back → ¬ Cut cr lf front.flatten back.flatten :=
  ⟨fun h => uncut_of_length hne hcr (congrArg List.length h), emitted_of_uncut hne⟩

end LineEndings

end Zmux
