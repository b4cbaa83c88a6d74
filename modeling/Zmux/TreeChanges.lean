import Mathlib.Data.Set.Basic
import Zmux.PathTree

/-!
# Changing a tree within a region

`put` makes or overwrites what stands at one path. `Confined region t t'`
says that from `t` to `t'` only files and directories of the region have
been made, changed or taken away: what stands outside is what stood there,
and no link has come or gone. So every path resolves to what it resolved to
(`Confined.resolve`), and a region that had no link has none.

`below base` is what is strictly below a path, `withIn base` that and the
path itself.
-/

namespace Zmux

namespace PathTree

variable {ν β : Type*} {t t' t'' : PathTree ν β} {p q r base : List ν}
variable {region region' : Set (List ν)} {e : TreeEntry ν β}

def below (base : List ν) : Set (List ν) := {q | base <+: q ∧ q ≠ base}

def withIn (base : List ν) : Set (List ν) := {q | base <+: q}

theorem below_subset (base : List ν) : below base ⊆ withIn base := fun _ h => h.1

theorem mem_below {names : List ν} (h : names ≠ []) : base ++ names ∈ below base :=
  ⟨List.prefix_append .., fun heq => h (List.append_right_eq_self.mp heq)⟩

theorem below_mono (hp : p ∈ below base) (hq : p <+: q) : q ∈ below base := by
  refine ⟨hp.1.trans hq, fun heq => hp.2 ?_⟩
  rw [heq] at hq
  exact List.IsPrefix.eq_of_length_le hq hp.1.length_le

/-- A file, a directory or nothing. -/
def Plain (t : PathTree ν β) (p : List ν) : Prop := ∀ e, t.entry p = some e → e.isLink = false

theorem plain_of_none (h : t.entry p = none) : Plain t p := fun e he => by
  rw [h] at he
  cases he

theorem plain_of_some (h : t.entry p = some e) (he : e.isLink = false) : Plain t p :=
  fun e' he' => by rwa [← Option.some.inj (h.symm.trans he')]

theorem Plain.not_link (h : Plain t p) (absolute : Bool) (target : List (Hop ν)) :
    t.entry p ≠ some (.link absolute target) := fun he => by cases h _ he

/-- Nothing of a region is a link. -/
def Linkless (region : Set (List ν)) (t : PathTree ν β) : Prop := ∀ q ∈ region, Plain t q

theorem Linkless.mono (h : Linkless region t) (hsub : region' ⊆ region) : Linkless region' t :=
  fun q hq => h q (hsub hq)

/-! ## Paths below a directory -/

/-- Nothing on the way down from a path is a link. -/
def Down (t : PathTree ν β) (path names : List ν) : Prop :=
  ∀ q ∈ below path, q <+: path ++ names → Plain t q

theorem Linkless.down (h : Linkless (below p) t) (names : List ν) : Down t p names :=
  fun q hq _ => h q hq

theorem down_singleton {name : ν} (h : Plain t (p ++ [name])) : Down t p [name] := by
  intro q hq hle
  rcases List.prefix_concat_iff.mp hle with rfl | hle
  · exact h
  · exact absurd (List.IsPrefix.eq_of_length_le hle hq.1.length_le) hq.2

theorem walk_names {follow : List ν → List (Hop ν) → Option (List ν)} {names : List ν} :
    ∀ {path : List ν}, Down t path names →
      walk follow t path (names.map .into) = some (path ++ names) := by
  induction names with
  | nil => exact fun _ => congrArg some (List.append_nil _).symm
  | cons name names ih =>
      intro path h
      have hassoc : path ++ name :: names = path ++ [name] ++ names := by
        rw [List.append_assoc]
        rfl
      have hname : path ++ [name] ∈ below path := mem_below (List.cons_ne_nil _ _)
      rw [List.map_cons, walk]
      split
      · rename_i hlink
        exact absurd hlink ((h _ hname (hassoc ▸ List.prefix_append ..)).not_link _ _)
      · rw [Down, hassoc] at h
        rw [hassoc]
        exact ih fun q hq => h q (below_mono hname hq.1)

theorem walk_append_names {follow : List ν → List (Hop ν) → Option (List ν)} {names : List ν}
    (hfollow : ∀ path hops, follow path hops = some r →
      follow path (hops ++ names.map .into) = some (r ++ names))
    (hdown : Down t r names) {hops : List (Hop ν)} :
    ∀ {path : List ν}, walk follow t path hops = some r →
      walk follow t path (hops ++ names.map .into) = some (r ++ names) := by
  induction hops with
  | nil =>
      intro path h
      obtain rfl := Option.some.inj h
      exact walk_names hdown
  | cons hop hops ih =>
      intro path h
      cases hop with
      | up => exact ih h
      | into name =>
          rw [walk] at h
          rw [List.cons_append, walk]
          split at h
          · rw [← List.append_assoc]
            exact hfollow _ _ h
          · exact ih h

/-- Where no link is on the way down, the names of a longer path are taken
as they are. -/
theorem resolve_append_names {limit : ℕ} {path names : List ν} {hops : List (Hop ν)}
    (h : resolve t limit path hops = some r) (hdown : Down t r names) :
    resolve t limit path (hops ++ names.map .into) = some (r ++ names) := by
  induction limit generalizing path hops with
  | zero => exact walk_append_names (fun _ _ h => by cases h) hdown h
  | succ limit ih => exact walk_append_names (fun _ _ h => ih h) hdown h

/-- A path without links resolves to itself. -/
theorem resolve_into (h : Direct t p) (limit : ℕ) : resolve t limit [] (p.map .into) = some p := by
  have hdirect : Direct t ([] ++ p) := h
  have hself := @resolve_direct _ _ t limit [] p [] hdirect
  rw [List.append_nil, List.nil_append] at hself
  rw [hself, resolve_eq_walk]
  rfl

theorem walk_congr {follow follow' : List ν → List (Hop ν) → Option (List ν)}
    (hfollow : ∀ path hops, follow' path hops = follow path hops)
    (hlinks : ∀ q absolute target,
      t'.entry q = some (.link absolute target) ↔ t.entry q = some (.link absolute target))
    {hops : List (Hop ν)} :
    ∀ {path : List ν}, walk follow' t' path hops = walk follow t path hops := by
  induction hops with
  | nil => exact rfl
  | cons hop hops ih =>
      intro path
      cases hop with
      | up => exact ih
      | into name =>
          rw [walk, walk]
          split
          · rename_i absolute target hlink
            rw [(hlinks _ _ _).mp hlink]
            exact hfollow _ _
          · rename_i hlink
            split
            · rename_i absolute target hlink'
              exact absurd ((hlinks _ _ _).mpr hlink') (hlink _ _)
            · exact ih

/-- Only the links of a tree decide how paths resolve. -/
theorem resolve_congr (hlinks : ∀ q absolute target,
      t'.entry q = some (.link absolute target) ↔ t.entry q = some (.link absolute target))
    (limit : ℕ) (path : List ν) (hops : List (Hop ν)) :
    resolve t' limit path hops = resolve t limit path hops := by
  induction limit generalizing path hops with
  | zero => exact walk_congr (fun _ _ => rfl) hlinks
  | succ limit ih => exact walk_congr ih hlinks

theorem dir_dropLast (h : t.entry p = some .dir) : t.entry p.dropLast = some .dir := by
  rcases List.eq_nil_or_concat p with rfl | ⟨front, name, rfl⟩
  · exact t.root
  · rw [List.concat_eq_append] at h ⊢
    rw [List.dropLast_concat]
    exact t.parent front name (by rw [h]; exact Option.some_ne_none _)

/-! ## Confined changes -/

def Confined (region : Set (List ν)) (t t' : PathTree ν β) : Prop :=
  ∀ q, t'.entry q = t.entry q ∨ q ∈ region ∧ Plain t q ∧ Plain t' q

namespace Confined

theorem refl (region : Set (List ν)) (t : PathTree ν β) : Confined region t t :=
  fun _ => Or.inl rfl

theorem plain_iff (h : Confined region t t') (q : List ν) : Plain t' q ↔ Plain t q := by
  rcases h q with heq | ⟨-, ht, ht'⟩
  · rw [Plain, Plain, heq]
  · exact ⟨fun _ => ht, fun _ => ht'⟩

theorem trans (h : Confined region t t') (h' : Confined region t' t'') :
    Confined region t t'' := by
  intro q
  rcases h' q with heq' | ⟨hq, ht', ht''⟩
  · rcases h q with heq | ⟨hq, ht, ht'⟩
    · exact Or.inl (heq'.trans heq)
    · refine Or.inr ⟨hq, ht, fun e he => ht' e ?_⟩
      rwa [← heq']
  · exact Or.inr ⟨hq, (h.plain_iff q).mp ht', ht''⟩

theorem entry (h : Confined region t t') (hq : q ∉ region) : t'.entry q = t.entry q :=
  (h q).resolve_right fun h => hq h.1

theorem linkless (h : Confined region t t') (hplain : Linkless region' t) : Linkless region' t' :=
  fun q hq => (h.plain_iff q).mpr (hplain q hq)

theorem resolve (h : Confined region t t') (limit : ℕ) (path : List ν) (hops : List (Hop ν)) :
    t'.resolve limit path hops = t.resolve limit path hops := by
  refine resolve_congr (fun q absolute target => ?_) limit path hops
  rcases h q with heq | ⟨-, ht, ht'⟩
  · rw [heq]
  · exact iff_of_false (ht'.not_link _ _) (ht.not_link _ _)

end Confined

/-! ## One entry -/

/-- A directory is at the path. -/
def isDirAt (t : PathTree ν β) (p : List ν) : Bool :=
  match t.entry p with
  | some .dir => true
  | _ => false

theorem isDirAt_iff : isDirAt t p = true ↔ t.entry p = some .dir := by
  rw [isDirAt]
  split
  · rename_i h
    exact iff_of_true rfl h
  · rename_i h
    exact iff_of_false Bool.false_ne_true h

/-- Something that is no directory can come to stand at the path, or a new
directory. -/
structure Puts (t : PathTree ν β) (p : List ν) : Prop where
  above : t.entry p.dropLast = some .dir
  place : t.entry p ≠ some .dir

instance (t : PathTree ν β) (p : List ν) : Decidable (Puts t p) :=
  decidable_of_iff (isDirAt t p.dropLast = true ∧ ¬isDirAt t p = true)
    ⟨fun h => ⟨isDirAt_iff.mp h.1, fun he => h.2 (isDirAt_iff.mpr he)⟩,
      fun h => ⟨isDirAt_iff.mpr h.above, fun he => h.place (isDirAt_iff.mp he)⟩⟩

theorem Puts.ne_nil (h : Puts t p) : p ≠ [] := by
  rintro rfl
  exact h.place t.root

section Changes

variable [DecidableEq ν]

def put (t : PathTree ν β) (p : List ν) (e : TreeEntry ν β) (h : Puts t p) : PathTree ν β where
  entry q := if q = p then some e else t.entry q
  root := by rw [if_neg h.ne_nil.symm, t.root]
  parent q name hsome := by
    have hdir : t.entry q = some .dir := by
      by_cases heq : q ++ [name] = p
      · have habove := h.above
        rwa [← heq, List.dropLast_concat] at habove
      · rw [if_neg heq] at hsome
        exact t.parent q name hsome
    have hne : q ≠ p := by
      rintro rfl
      exact h.place hdir
    rw [if_neg hne, hdir]

@[simp] theorem entry_put (h : Puts t p) (q : List ν) :
    (t.put p e h).entry q = if q = p then some e else t.entry q := rfl

theorem entry_put_self (h : Puts t p) : (t.put p e h).entry p = some e := if_pos rfl

theorem entry_put_ne (h : Puts t p) (hne : q ≠ p) : (t.put p e h).entry q = t.entry q := if_neg hne

theorem confined_put (h : Puts t p) (hp : p ∈ region) (hplain : Plain t p)
    (he : e.isLink = false) : Confined region t (t.put p e h) := by
  intro q
  by_cases heq : q = p
  · rw [heq]
    exact Or.inr ⟨hp, hplain, plain_of_some (entry_put_self h) he⟩
  · exact Or.inl (entry_put_ne h heq)

theorem confined_erase (hp : p ≠ []) (hregion : withIn p ⊆ region)
    (hplain : Linkless (withIn p) t) :
    Confined region t (t.erase p) := by
  intro q
  rw [entry_erase t hp]
  by_cases hq : p <+: q
  · rw [if_pos hq]
    refine Or.inr ⟨hregion hq, hplain q hq, plain_of_none ?_⟩
    rw [entry_erase t hp, if_pos hq]
  · exact Or.inl (if_neg hq)

theorem confined_relocate (h : Relocates t p r) (hdir : t.entry r.dropLast = some .dir)
    (hsource : withIn p ⊆ region) (hplain : Linkless (withIn p) t) (htarget : withIn r ⊆ region)
    (hplain' : Linkless (withIn r) t) : Confined region t (t.relocate p r h) := by
  intro q
  by_cases hr : r <+: q
  · refine Or.inr ⟨htarget hr, hplain' q hr, fun e he => ?_⟩
    have hmoved : relocated t p r q = some e := he
    rw [relocated, if_pos hr] at hmoved
    exact hplain _ (List.prefix_append ..) e hmoved
  · by_cases hp : p <+: q
    · refine Or.inr ⟨hsource hp, hplain q hp, fun e he => ?_⟩
      have hmoved : relocated t p r q = some e := he
      rw [relocated, if_neg hr, if_pos hp] at hmoved
      cases hmoved
    · refine Or.inl ?_
      change relocated t p r q = _
      rw [relocated, if_neg hr, if_neg hp, if_neg]
      rintro ⟨hq, hnone⟩
      -- what is above the target is there
      have habove : q <+: r.dropLast := by
        obtain ⟨names, rfl⟩ := hq
        rcases List.eq_nil_or_concat names with rfl | ⟨front, name, rfl⟩
        · rw [List.append_nil] at hr
          exact absurd List.prefix_rfl hr
        · rw [List.concat_eq_append, ← List.append_assoc, List.dropLast_concat]
          exact List.prefix_append ..
      by_cases heq : q = r.dropLast
      · rw [← heq, hnone] at hdir
        cases hdir
      · rw [entry_above (by rw [hdir]; exact Option.some_ne_none _) habove heq] at hnone
        cases hnone

/-! ## A tree from a list -/

/-- Each entry is at a path below the root, or below a directory that comes
first for its path. -/
def Closed (entries : List (List ν × TreeEntry ν β)) : Prop :=
  ∀ x ∈ entries, x.1 ≠ [] ∧ (x.1.dropLast = []
    ∨ (entries.find? fun y => y.1 = x.1.dropLast) = some (x.1.dropLast, .dir))

instance [DecidableEq β] (entries : List (List ν × TreeEntry ν β)) : Decidable (Closed entries) :=
  inferInstanceAs (Decidable (∀ x ∈ entries, x.1 ≠ [] ∧ (x.1.dropLast = []
    ∨ (entries.find? fun y => y.1 = x.1.dropLast) = some (x.1.dropLast, .dir))))

def ofList (entries : List (List ν × TreeEntry ν β)) (h : Closed entries) : PathTree ν β where
  entry p := if p = [] then some .dir else (entries.find? fun x => x.1 = p).map (·.2)
  root := if_pos rfl
  parent p name hsome := by
    rw [if_neg (List.append_ne_nil_of_right_ne_nil _ (List.cons_ne_nil _ _)), ne_eq,
      Option.map_eq_none_iff] at hsome
    obtain ⟨x, hx⟩ := Option.ne_none_iff_exists'.mp hsome
    have hfound : decide (x.1 = p ++ [name]) = true := by
      have hsome := List.find?_some hx
      exact hsome
    have hpath := of_decide_eq_true hfound
    have habove := (h x (List.mem_of_find?_eq_some hx)).2
    rw [hpath, List.dropLast_concat] at habove
    rcases habove with rfl | hdir
    · exact if_pos rfl
    · by_cases hp : p = []
      · exact if_pos hp
      · rw [if_neg hp, hdir]
        rfl

theorem entry_ofList {entries : List (List ν × TreeEntry ν β)} {h : Closed entries}
    (he : (ofList entries h).entry q = some e) : q = [] ∧ e = .dir ∨ (q, e) ∈ entries := by
  by_cases hq : q = []
  · rw [hq, (ofList entries h).root] at he
    exact Or.inl ⟨hq, (Option.some.inj he).symm⟩
  · change (if q = [] then _ else _) = _ at he
    rw [if_neg hq] at he
    obtain ⟨x, hx, rfl⟩ := Option.map_eq_some_iff.mp he
    have hfound : decide (x.1 = q) = true := by
      have hsome := List.find?_some hx
      exact hsome
    refine Or.inr ?_
    rw [← of_decide_eq_true hfound]
    exact List.mem_of_find?_eq_some hx

theorem linkless_ofList {entries : List (List ν × TreeEntry ν β)} {h : Closed entries}
    (region : Set (List ν)) (hplain : ∀ x ∈ entries, x.2.isLink = false) :
    Linkless region (ofList entries h) := by
  intro q _ e he
  rcases entry_ofList he with ⟨-, rfl⟩ | hmem
  · rfl
  · exact hplain _ hmem

end Changes

end PathTree

end Zmux
