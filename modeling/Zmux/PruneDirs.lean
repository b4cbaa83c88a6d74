import Zmux.TreeChanges

/-!
# Removing the directories that hold nothing

`rmdir` takes a directory away that is empty, unless the system refuses it.
`prune` does that for the paths of a list, one after another.

If the list goes from the longest paths to the shorter ones, a directory
comes after all that is below it. So one pass is enough: what is left is
what holds something that stays, however deep it is (`entry_prune`).
-/

namespace Zmux

namespace PathTree

variable {ν β : Type*} [DecidableEq ν]

section Prune

variable (known : List (List ν)) (refused : List ν → Bool)

/-- None of the known paths is an entry of the directory. -/
def isEmptyAt (t : PathTree ν β) (p : List ν) : Bool :=
  known.all fun q => q.isEmpty || decide (q.dropLast ≠ p) || (t.entry q).isNone

def rmdir (t : PathTree ν β) (p : List ν) : PathTree ν β :=
  if isDirAt t p && isEmptyAt known t p && !refused p then t.erase p else t

def prune (t : PathTree ν β) (paths : List (List ν)) : PathTree ν β :=
  paths.foldl (rmdir known refused) t

end Prune

/-- What stays is no directory, or a directory that is refused, and is here
or below. -/
def Holds (refused : List ν → Bool) (t : PathTree ν β) (p : List ν) : Prop :=
  ∃ r e, p <+: r ∧ t.entry r = some e ∧ (e ≠ .dir ∨ refused r = true)

/-- A directory that nothing keeps. -/
def Hollow (refused : List ν → Bool) (t : PathTree ν β) (p : List ν) : Prop :=
  t.entry p = some .dir ∧ ¬ Holds refused t p

variable {known : List (List ν)} {refused : List ν → Bool} {t t' : PathTree ν β} {p q : List ν}

omit [DecidableEq ν] in
theorem Holds.above (h : Holds refused t q) (hp : p <+: q) : Holds refused t p := by
  obtain ⟨r, e, hr, he, hkeeps⟩ := h
  exact ⟨r, e, hp.trans hr, he, hkeeps⟩

omit [DecidableEq ν] in
theorem holds_of_not_hollow (hq : t.entry q ≠ none) (h : ¬ Hollow refused t q) :
    Holds refused t q := by
  obtain ⟨e, he⟩ := Option.ne_none_iff_exists'.mp hq
  by_contra hnot
  refine h ⟨?_, hnot⟩
  by_contra hdir
  exact hnot ⟨q, e, List.prefix_rfl, he, .inl fun heq => hdir (heq ▸ he)⟩

theorem isEmptyAt_iff (hknown : ∀ name, t.entry (p ++ [name]) ≠ none → p ++ [name] ∈ known) :
    isEmptyAt known t p = true ↔ ∀ name, t.entry (p ++ [name]) = none := by
  rw [isEmptyAt, List.all_eq_true]
  constructor
  · intro h name
    by_contra hsome
    have hchild := h _ (hknown name hsome)
    simp [hsome] at hchild
  · intro h q _
    rcases List.eq_nil_or_concat q with rfl | ⟨front, name, rfl⟩
    · rfl
    · by_cases hfront : front = p
      · simp [hfront, h name]
      · simp [hfront]

/-- Below an empty directory there is nothing. -/
theorem entry_below_empty (hempty : ∀ name, t.entry (p ++ [name]) = none) (hq : p <+: q)
    (hne : p ≠ q) : t.entry q = none := by
  obtain ⟨names, rfl⟩ := hq
  cases names with
  | nil => exact absurd (List.append_nil p).symm hne
  | cons name names =>
      by_contra hsome
      have hchild : p ++ [name] <+: p ++ name :: names := by simp
      by_cases heq : p ++ [name] = p ++ name :: names
      · exact hsome (heq ▸ hempty name)
      · have habove := entry_above hsome hchild heq
        rw [hempty name] at habove
        cases habove

/-- What `rmdir` of an empty directory changes. -/
theorem entry_erase_empty (hp : p ≠ []) (hempty : ∀ name, t.entry (p ++ [name]) = none)
    (q : List ν) : (t.erase p).entry q = if q = p then none else t.entry q := by
  rw [entry_erase t hp]
  by_cases hq : p <+: q
  · by_cases heq : q = p
    · rw [if_pos hq, if_pos heq]
    · rw [if_pos hq, if_neg heq, entry_below_empty hempty hq fun h => heq h.symm]
  · rw [if_neg hq, if_neg]
    rintro rfl
    exact hq List.prefix_rfl

/-- A tree without the hollow directories of a list. -/
def Pruned (refused : List ν → Bool) (t t' : PathTree ν β) (done : List (List ν)) : Prop :=
  ∀ q, (q ∈ done ∧ Hollow refused t q → t'.entry q = none) ∧
    (¬ (q ∈ done ∧ Hollow refused t q) → t'.entry q = t.entry q)

omit [DecidableEq ν] in
theorem Pruned.entry_mono {done : List (List ν)} (h : Pruned refused t t' done)
    (hq : t'.entry q ≠ none) : t.entry q ≠ none := by
  rw [← (h q).2 fun hgone => hq ((h q).1 hgone)]
  exact hq

/-- What keeps a directory is an entry of it, or below one. -/
theorem Holds.child (hdir : t.entry p = some .dir) (hrefused : refused p = false)
    (h : Holds refused t p) :
    ∃ name, t.entry (p ++ [name]) ≠ none ∧ Holds refused t (p ++ [name]) := by
  obtain ⟨r, e, ⟨names, rfl⟩, he, hkeeps⟩ := h
  cases names with
  | nil =>
      rw [List.append_nil] at he hkeeps
      obtain rfl := Option.some.inj (hdir.symm.trans he)
      rcases hkeeps with hne | hyes
      · exact absurd rfl hne
      · cases hrefused.symm.trans hyes
  | cons name names =>
      have hbelow : p ++ [name] <+: p ++ name :: names := by simp
      have hsome : t.entry (p ++ name :: names) ≠ none := by
        rw [he]
        exact Option.some_ne_none e
      refine ⟨name, ?_, _, e, hbelow, he, hkeeps⟩
      by_cases heq : p ++ [name] = p ++ name :: names
      · rw [heq]
        exact hsome
      · rw [entry_above hsome hbelow heq]
        exact Option.some_ne_none _

/-- The system removes a directory exactly if nothing keeps it, when what
is below it is done. -/
theorem Pruned.removable_iff {done : List (List ν)} (h : Pruned refused t t' done)
    (hdone : ∀ name, t.entry (p ++ [name]) ≠ none → p ++ [name] ∈ done) :
    (t'.entry p = some .dir ∧ (∀ name, t'.entry (p ++ [name]) = none) ∧ refused p = false) ↔
      Hollow refused t p ∧ p ∉ done := by
  constructor
  · rintro ⟨hdir, hnone, hrefused⟩
    have hkept : ¬ (p ∈ done ∧ Hollow refused t p) := by
      intro hgone
      rw [(h p).1 hgone] at hdir
      cases hdir
    have hdirt : t.entry p = some .dir := ((h p).2 hkept).symm.trans hdir
    have hollow : Hollow refused t p := by
      refine ⟨hdirt, fun hholds => ?_⟩
      obtain ⟨name, hsome, hchild⟩ := hholds.child hdirt hrefused
      exact hsome (((h _).2 fun hgone => hgone.2.2 hchild).symm.trans (hnone name))
    exact ⟨hollow, fun hmem => hkept ⟨hmem, hollow⟩⟩
  · rintro ⟨hollow, hnot⟩
    refine ⟨((h p).2 fun hgone => hnot hgone.1).trans hollow.1, fun name => ?_, ?_⟩
    · by_contra hsome
      have hchild := h.entry_mono hsome
      refine hsome ((h _).1 ⟨hdone name hchild, ?_⟩)
      by_contra hkeeps
      exact hollow.2 ((holds_of_not_hollow hchild hkeeps).above (List.prefix_append ..))
    · by_contra hyes
      exact hollow.2 ⟨p, .dir, List.prefix_rfl, hollow.1, .inr (Bool.not_eq_false _ ▸ hyes)⟩

/-- One turn of the loop. -/
theorem Pruned.rmdir {done : List (List ν)} (h : Pruned refused t t' done) (hp : p ≠ [])
    (hdone : ∀ name, t.entry (p ++ [name]) ≠ none → p ++ [name] ∈ done)
    (hknown : ∀ name, t.entry (p ++ [name]) ≠ none → p ++ [name] ∈ known) :
    Pruned refused t (PathTree.rmdir known refused t' p) (done ++ [p]) := by
  have hempty := isEmptyAt_iff (t := t') (p := p) fun name hname => hknown name (h.entry_mono hname)
  have hremoves : (isDirAt t' p && isEmptyAt known t' p && !refused p) = true ↔
      Hollow refused t p ∧ p ∉ done := by
    rw [Bool.and_eq_true, Bool.and_eq_true, isDirAt_iff, hempty, Bool.not_eq_true', and_assoc]
    exact h.removable_iff hdone
  intro q
  rw [PathTree.rmdir]
  by_cases heq : q = p
  · subst heq
    have hmem : q ∈ done ++ [q] := by simp
    split
    · rename_i hremoved
      have hnone := hempty.mp (Bool.and_eq_true_iff.mp (Bool.and_eq_true_iff.mp hremoved).1).2
      rw [entry_erase_empty hp hnone, if_pos rfl]
      exact ⟨fun _ => rfl, fun hkept => absurd ⟨hmem, (hremoves.mp hremoved).1⟩ hkept⟩
    · rename_i hstays
      have hiff : q ∈ done ++ [q] ∧ Hollow refused t q ↔ q ∈ done ∧ Hollow refused t q := by
        refine ⟨fun hgone => ⟨?_, hgone.2⟩, fun hgone => ⟨hmem, hgone.2⟩⟩
        by_contra hnot
        exact hstays (hremoves.mpr ⟨hgone.2, hnot⟩)
      rw [hiff]
      exact h q
  · have hmem : q ∈ done ++ [p] ↔ q ∈ done := by simp [heq]
    rw [hmem]
    split
    · rename_i hremoved
      have hnone := hempty.mp (Bool.and_eq_true_iff.mp (Bool.and_eq_true_iff.mp hremoved).1).2
      rw [entry_erase_empty hp hnone, if_neg heq]
      exact h q
    · exact h q

/-- The whole loop, over all that is below a directory. -/
theorem pruned_prune {paths : List (List ν)} {base : List ν}
    (hpaths : ∀ q, q ∈ paths ↔ q ∈ below base ∧ t.entry q ≠ none)
    (hdeep : paths.Pairwise fun p q => q.length ≤ p.length) :
    Pruned refused t (prune paths refused t paths) paths := by
  suffices hloop : ∀ (rest done : List (List ν)) (t' : PathTree ν β), done ++ rest = paths →
      Pruned refused t t' done → Pruned refused t (rest.foldl (rmdir paths refused) t') paths from
    hloop paths [] t rfl fun q => ⟨fun h => absurd h.1 List.not_mem_nil, fun _ => rfl⟩
  intro rest
  induction rest with
  | nil =>
      intro done t' hsplit h
      rw [List.append_nil] at hsplit
      exact hsplit ▸ h
  | cons p rest ih =>
      intro done t' hsplit h
      have hmem : p ∈ paths := hsplit ▸ List.mem_append_right _ (List.mem_cons_self ..)
      obtain ⟨hbelow, -⟩ := (hpaths p).mp hmem
      have hp : p ≠ [] := by
        rintro rfl
        exact hbelow.2 (List.prefix_nil.mp hbelow.1).symm
      have hknown : ∀ name, t.entry (p ++ [name]) ≠ none → p ++ [name] ∈ paths := fun name hname =>
        (hpaths _).mpr ⟨below_mono hbelow (List.prefix_append ..), hname⟩
      -- a longer path does not come later
      have hlater : ∀ q ∈ p :: rest, q.length ≤ p.length := by
        rw [← hsplit] at hdeep
        have hrest := (List.pairwise_append.mp hdeep).2.1
        exact List.forall_mem_cons.mpr ⟨Nat.le_refl _, (List.pairwise_cons.mp hrest).1⟩
      have hdone : ∀ name, t.entry (p ++ [name]) ≠ none → p ++ [name] ∈ done := by
        intro name hname
        have hchild := hsplit ▸ hknown name hname
        refine (List.mem_append.mp hchild).resolve_right fun hin => ?_
        have hle := hlater _ hin
        rw [List.length_append, List.length_singleton] at hle
        omega
      exact ih (done ++ [p]) _ (by rw [List.append_assoc]; exact hsplit) (h.rmdir hp hdone hknown)

/-- **One pass** leaves of the directories below the base those that hold
something, and touches nothing else. -/
theorem entry_prune {paths : List (List ν)} {base : List ν}
    (hpaths : ∀ q, q ∈ paths ↔ q ∈ below base ∧ t.entry q ≠ none)
    (hdeep : paths.Pairwise fun p q => q.length ≤ p.length) (q : List ν) :
    (q ∈ below base ∧ Hollow refused t q → (prune paths refused t paths).entry q = none) ∧
      (¬ (q ∈ below base ∧ Hollow refused t q) →
        (prune paths refused t paths).entry q = t.entry q) := by
  have hpruned := @pruned_prune _ _ _ refused t _ _ hpaths hdeep q
  have hiff : q ∈ paths ∧ Hollow refused t q ↔ q ∈ below base ∧ Hollow refused t q := by
    constructor
    · exact fun h => ⟨((hpaths q).mp h.1).1, h.2⟩
    · exact fun h => ⟨(hpaths q).mpr ⟨h.1, by rw [h.2.1]; exact Option.some_ne_none _⟩, h.2⟩
  rw [hiff] at hpruned
  exact hpruned

end PathTree

end Zmux
