import Mathlib.Data.List.Induction
import Mathlib.Data.List.Infix
import Mathlib.Tactic.SplitIfs

/-!
# A tree of files, directories and symbolic links

A tree is what stands at each path, where a path is the list of names from
the root and only directories have something below them. `resolve` follows
the links in a path as `realpath` does, up to a limit on their number, and
what it returns has no link on it (`direct_resolve`). The last name of a
path may be a link itself: then the path is not what it resolves to
(`resolve_last`).

`erase` takes an entry away with all that is below it, `relocate` moves it.
-/

namespace Zmux

/-- One step of a path that is not resolved yet. -/
inductive Hop (ν : Type*) where
  /-- `..`. -/
  | up
  | into (name : ν)
deriving DecidableEq

inductive TreeEntry (ν β : Type*) where
  | dir
  | file (content : β)
  | link (absolute : Bool) (target : List (Hop ν))
deriving DecidableEq

namespace TreeEntry

variable {ν β : Type*}

def isLink : TreeEntry ν β → Bool
  | link _ _ => true
  | _ => false

def isDir : TreeEntry ν β → Bool
  | dir => true
  | _ => false

end TreeEntry

@[ext]
structure PathTree (ν β : Type*) where
  entry : List ν → Option (TreeEntry ν β)
  root : entry [] = some .dir
  /-- What is below a path is below a directory. -/
  parent : ∀ path name, entry (path ++ [name]) ≠ none → entry path = some .dir

namespace PathTree

variable {ν β : Type*} {t : PathTree ν β} {p q r : List ν}

/-! ## Resolving paths -/

/-- Hop by hop; `follow` is for the hops of a link and the rest. -/
def walk (follow : List ν → List (Hop ν) → Option (List ν)) (t : PathTree ν β) :
    List ν → List (Hop ν) → Option (List ν)
  | path, [] => some path
  | path, .up :: hops => walk follow t path.dropLast hops
  | path, .into name :: hops =>
    match t.entry (path ++ [name]) with
    | some (.link absolute target) => follow (if absolute then [] else path) (target ++ hops)
    | _ => walk follow t (path ++ [name]) hops

/-- At most so many links are followed; with more of them there is no
result. -/
def resolve (t : PathTree ν β) : ℕ → List ν → List (Hop ν) → Option (List ν)
  | 0 => walk (fun _ _ => none) t
  | limit + 1 => walk (resolve t limit) t

/-- How a link is followed. -/
def follow (t : PathTree ν β) : ℕ → List ν → List (Hop ν) → Option (List ν)
  | 0 => fun _ _ => none
  | limit + 1 => resolve t limit

theorem resolve_eq_walk (t : PathTree ν β) (limit : ℕ) :
    resolve t limit = walk (follow t limit) t := by
  cases limit <;> rfl

/-- Nothing on the path is a link. -/
def Direct (t : PathTree ν β) (path : List ν) : Prop :=
  ∀ front e, front <+: path → t.entry front = some e → e.isLink = false

theorem direct_nil (t : PathTree ν β) : Direct t [] := by
  intro front e hfront he
  rw [List.prefix_nil.mp hfront, t.root] at he
  obtain rfl := Option.some.inj he
  rfl

theorem Direct.front (h : Direct t p) (hq : q <+: p) : Direct t q :=
  fun front e hfront he => h front e (hfront.trans hq) he

theorem Direct.snoc (h : Direct t p) {name : ν}
    (hname : ∀ e, t.entry (p ++ [name]) = some e → e.isLink = false) : Direct t (p ++ [name]) := by
  intro front e hfront he
  rcases List.prefix_concat_iff.mp hfront with rfl | hfront
  · exact hname e he
  · exact h front e hfront he

theorem direct_walk {follow : List ν → List (Hop ν) → Option (List ν)}
    (hfollow : ∀ path hops r, Direct t path → follow path hops = some r → Direct t r)
    {hops : List (Hop ν)} : ∀ {path : List ν}, Direct t path → walk follow t path hops = some r →
      Direct t r := by
  induction hops with
  | nil =>
      intro path hpath h
      obtain rfl := Option.some.inj h
      exact hpath
  | cons hop hops ih =>
      intro path hpath h
      cases hop with
      | up => exact ih (hpath.front (List.dropLast_prefix path)) h
      | into name =>
          rw [walk] at h
          split at h
          · refine hfollow _ _ _ ?_ h
            split
            · exact direct_nil t
            · exact hpath
          · rename_i hlink
            refine ih (hpath.snoc fun e he => ?_) h
            cases e with
            | link absolute target => exact absurd he (hlink absolute target)
            | _ => rfl

/-- No link is left on a resolved path. -/
theorem direct_resolve {limit : ℕ} {path : List ν} {hops : List (Hop ν)} (hpath : Direct t path)
    (h : resolve t limit path hops = some r) : Direct t r := by
  induction limit generalizing path hops r with
  | zero => exact direct_walk (fun _ _ _ _ h => by cases h) hpath h
  | succ limit ih => exact direct_walk (fun _ _ _ hpath h => ih hpath h) hpath h

theorem walk_mono {follow follow' : List ν → List (Hop ν) → Option (List ν)}
    (hfollow : ∀ path hops r, follow path hops = some r → follow' path hops = some r)
    {hops : List (Hop ν)} : ∀ {path : List ν}, walk follow t path hops = some r →
      walk follow' t path hops = some r := by
  induction hops with
  | nil => exact fun h => h
  | cons hop hops ih =>
      intro path h
      cases hop with
      | up => exact ih h
      | into name =>
          rw [walk] at h ⊢
          split at h
          · exact hfollow _ _ _ h
          · exact ih h

theorem resolve_succ {limit : ℕ} {path : List ν} {hops : List (Hop ν)}
    (h : resolve t limit path hops = some r) : resolve t (limit + 1) path hops = some r := by
  induction limit generalizing path hops r with
  | zero => exact walk_mono (fun _ _ _ h => by cases h) h
  | succ limit ih => exact walk_mono (fun _ _ _ h => ih h) h

theorem resolve_mono {limit limit' : ℕ} {path : List ν} {hops : List (Hop ν)}
    (h : resolve t limit path hops = some r) (hle : limit ≤ limit') :
    resolve t limit' path hops = some r := by
  induction hle with
  | refl => exact h
  | step _ ih => exact resolve_succ ih

/-- A resolved path resolves to itself. -/
theorem resolve_direct {limit : ℕ} {hops : List (Hop ν)} :
    ∀ {back front : List ν}, Direct t (front ++ back) →
      resolve t limit front (back.map .into ++ hops) = resolve t limit (front ++ back) hops := by
  intro back
  induction back with
  | nil =>
      intro front _
      rw [List.append_nil]
      rfl
  | cons name back ih =>
      intro front hdirect
      have hassoc : front ++ name :: back = front ++ [name] ++ back := by
        rw [List.append_assoc]
        rfl
      rw [hassoc] at hdirect ⊢
      rw [List.map_cons, List.cons_append, resolve_eq_walk, walk]
      split
      · rename_i absolute target he
        have hno := hdirect _ _ (List.prefix_append _ _) he
        cases hno
      · rw [← resolve_eq_walk]
        exact ih hdirect

theorem walk_append {n : ℕ} {follow : List ν → List (Hop ν) → Option (List ν)}
    {back : List (Hop ν)}
    (hrest : ∀ path, walk follow t path back = some r → resolve t n path back = some r)
    (hfollow : ∀ path hops, follow path (hops ++ back) = some r →
      ∃ q limit, limit ≤ n ∧ follow path hops = some q ∧ resolve t limit q back = some r)
    {front : List (Hop ν)} : ∀ {path : List ν}, walk follow t path (front ++ back) = some r →
      ∃ q limit, limit ≤ n ∧ walk follow t path front = some q
        ∧ resolve t limit q back = some r := by
  induction front with
  | nil => exact fun h => ⟨_, n, Nat.le_refl n, rfl, hrest _ h⟩
  | cons hop front ih =>
      intro path h
      cases hop with
      | up => exact ih h
      | into name =>
          rw [List.cons_append, walk] at h
          rw [walk]
          split at h
          · rw [← List.append_assoc] at h
            exact hfollow _ _ h
          · exact ih h

/-- The first hops, and then the others with the links that are left. -/
theorem resolve_append {limit : ℕ} {path : List ν} {front back : List (Hop ν)}
    (h : resolve t limit path (front ++ back) = some r) :
    ∃ q limit', limit' ≤ limit ∧ resolve t limit path front = some q
      ∧ resolve t limit' q back = some r := by
  induction limit generalizing path front with
  | zero => exact walk_append (n := 0) (fun _ h => h) (fun _ _ h => by cases h) h
  | succ limit ih =>
      refine walk_append (n := limit + 1) (fun _ h => h) (fun _ _ h => ?_) h
      obtain ⟨q, limit', hle, hq, hr⟩ := ih h
      exact ⟨q, limit', Nat.le_succ_of_le hle, hq, hr⟩

/-- One name more: the path itself, unless it is a link. -/
theorem resolve_last {limit : ℕ} {path : List ν} {name : ν} (hpath : Direct t path)
    (h : resolve t limit path [.into name] = some r) :
    Direct t r ∧ ((∃ e, t.entry (path ++ [name]) = some e ∧ e.isLink = true)
      ∨ r = path ++ [name] ∧ Direct t (path ++ [name])) := by
  have hdirect := direct_resolve hpath h
  refine ⟨hdirect, ?_⟩
  rw [resolve_eq_walk, walk] at h
  split at h
  · rename_i he
    exact .inl ⟨_, he, rfl⟩
  · obtain rfl := Option.some.inj h
    exact .inr ⟨rfl, hdirect⟩

/-! ## What is below a path -/

/-- What stands on the way to something is a directory. -/
theorem entry_above (hq : t.entry q ≠ none) (hp : p <+: q) (hne : p ≠ q) :
    t.entry p = some .dir := by
  obtain ⟨below, rfl⟩ := hp
  induction below using List.reverseRecOn with
  | nil => exact absurd (List.append_nil p).symm hne
  | append_singleton below name ih =>
      rw [← List.append_assoc] at hq
      have hdir := t.parent _ _ hq
      by_cases hbelow : below = []
      · rw [hbelow, List.append_nil] at hdir
        exact hdir
      · refine ih (by rw [hdir]; nofun) fun heq => hbelow ?_
        exact List.append_cancel_left (heq.symm.trans (List.append_nil p).symm)

/-- Nothing is below what is no directory. -/
theorem entry_below {e : TreeEntry ν β} (hp : t.entry p = some e) (he : e ≠ .dir) (hq : p <+: q)
    (hne : p ≠ q) : t.entry q = none := by
  by_contra hsome
  exact he (Option.some.inj (hp.symm.trans (entry_above hsome hq hne)))

section Changes

variable [DecidableEq ν]

/-! ## Taking away -/

/-- An entry other than the root, and all that is below it. -/
def erase (t : PathTree ν β) (p : List ν) : PathTree ν β where
  entry q := if p ≠ [] ∧ p <+: q then none else t.entry q
  root := by
    rw [if_neg fun h => h.1 (List.prefix_nil.mp h.2)]
    exact t.root
  parent q name hsome := by
    have hno : ¬(p ≠ [] ∧ p <+: q ++ [name]) := fun h => hsome (if_pos h)
    rw [if_neg hno] at hsome
    rw [if_neg fun h => hno ⟨h.1, h.2.trans (List.prefix_append _ _)⟩]
    exact t.parent q name hsome

theorem entry_erase (t : PathTree ν β) (hp : p ≠ []) (q : List ν) :
    (t.erase p).entry q = if p <+: q then none else t.entry q := by
  simp only [erase, hp, ne_eq, not_false_eq_true, true_and]

/-! ## Moving -/

/-- What stands at a path when `p` has been moved to `r`. Directories that
are missing on the way to `r` are made. -/
def relocated (t : PathTree ν β) (p r q : List ν) : Option (TreeEntry ν β) :=
  if r <+: q then t.entry (p ++ q.drop r.length)
  else if p <+: q then none
  else if q <+: r ∧ t.entry q = none then some .dir
  else t.entry q

/-- It can be moved there: not into itself, and only directories are on
the way. -/
structure Relocates (t : PathTree ν β) (p r : List ν) : Prop where
  source : p ≠ []
  target : r ≠ []
  apart : ¬p <+: r
  way : ∀ q ∈ r.inits, q ≠ r → ∀ e ∈ t.entry q, e.isDir = true

theorem relocated_way (h : Relocates t p r) (hq : q <+: r) (hne : q ≠ r) :
    relocated t p r q = some .dir := by
  have hr : ¬r <+: q := fun hr => hne (List.IsPrefix.eq_of_length_le hq hr.length_le)
  rw [relocated, if_neg hr, if_neg fun hp => h.apart (hp.trans hq)]
  cases he : t.entry q with
  | none => rw [if_pos ⟨hq, rfl⟩]
  | some e =>
      have hdir := h.way q ((List.mem_inits _ _).mpr hq) hne e he
      rw [if_neg fun h => by cases h.2]
      cases e with
      | dir => rfl
      | _ => cases hdir

instance (t : PathTree ν β) (p r : List ν) : Decidable (Relocates t p r) :=
  decidable_of_iff (p ≠ [] ∧ r ≠ [] ∧ ¬p <+: r
      ∧ ∀ q ∈ r.inits, q ≠ r → ∀ e ∈ t.entry q, e.isDir = true)
    ⟨fun ⟨hp, hr, hapart, hway⟩ => ⟨hp, hr, hapart, hway⟩,
      fun h => ⟨h.source, h.target, h.apart, h.way⟩⟩

def relocate (t : PathTree ν β) (p r : List ν) (h : Relocates t p r) : PathTree ν β where
  entry := relocated t p r
  root := relocated_way h List.nil_prefix h.target.symm
  parent q name hsome := by
    have hone : q <+: q ++ [name] := List.prefix_append _ _
    by_cases hr : r <+: q ++ [name]
    · rcases List.prefix_concat_iff.mp hr with heq | hr'
      · refine relocated_way h (heq ▸ hone) fun hq => ?_
        have hlength := congrArg List.length (hq.trans heq)
        rw [List.length_append, List.length_singleton] at hlength
        omega
      · rw [relocated, if_pos hr, List.drop_append_of_le_length hr'.length_le,
          ← List.append_assoc] at hsome
        rw [relocated, if_pos hr']
        exact t.parent _ name hsome
    · by_cases hway : q ++ [name] <+: r
      · refine relocated_way h (hone.trans hway) ?_
        rintro rfl
        exact hr hone
      · have hp : ¬p <+: q ++ [name] := by
          intro hp
          rw [relocated, if_neg hr, if_pos hp] at hsome
          exact hsome rfl
        rw [relocated, if_neg hr, if_neg hp, if_neg fun h => hway h.1] at hsome
        have hdir := t.parent q name hsome
        rw [relocated, if_neg fun h => hr (h.trans hone), if_neg fun h => hp (h.trans hone), hdir,
          if_neg fun h => by cases h.2]

/-- To where it is. -/
theorem relocated_self (hp : t.entry p ≠ none) (q : List ν) : relocated t p p q = t.entry q := by
  rw [relocated]
  by_cases hq : p <+: q
  · rw [if_pos hq, List.prefix_iff_eq_append.mp hq]
  · rw [if_neg hq, if_neg hq]
    refine if_neg fun h => ?_
    have hdir := entry_above hp h.1 fun heq => hq (heq ▸ List.prefix_rfl)
    rw [hdir] at h
    cases h.2

theorem relocated_source {e : TreeEntry ν β} (hp : t.entry p = some e) (he : e ≠ .dir)
    (hne : p ≠ r) : relocated t p r p = none := by
  by_cases hr : r <+: p
  · rw [relocated, if_pos hr]
    refine entry_below hp he (List.prefix_append _ _) fun heq => hne ?_
    have hdrop := List.self_eq_append_right.mp heq
    exact (List.IsPrefix.eq_of_length_le hr (List.drop_eq_nil_iff.mp hdrop)).symm
  · rw [relocated, if_neg hr, if_pos List.prefix_rfl]

theorem relocated_other (hq : t.entry q ≠ none) (hr : ¬r <+: q) (hp : ¬p <+: q) :
    relocated t p r q = t.entry q := by
  rw [relocated, if_neg hr, if_neg hp, if_neg fun h => hq h.2]

/-- Moving something else is not moving a link, wherever to. -/
theorem relocated_ne {s c : List ν} {e e' : TreeEntry ν β} (hp : t.entry p = some e)
    (he : e.isLink = true) (hs : t.entry s = some e') (he' : e'.isLink = false)
    (hcp : ¬c <+: p) (hcs : ¬c <+: s) : ∃ q, relocated t s c q ≠ relocated t p r q := by
  have hnodir : e ≠ .dir := by
    rintro rfl
    cases he
  have hpsome : t.entry p ≠ none := by rw [hp]; nofun
  have hssome : t.entry s ≠ none := by rw [hs]; nofun
  have hsp : s ≠ p := by
    rintro rfl
    rw [Option.some.inj (hs.symm.trans hp), he] at he'
    cases he'
  have hgone : relocated t s c s = none := by
    rw [relocated, if_neg hcs, if_pos List.prefix_rfl]
  by_cases hbelow : s <+: p
  · by_cases hrs : r <+: s
    · -- What the link would take the place of is gone with the directory.
      by_cases heq : r = s
      · refine ⟨s, ?_⟩
        rw [hgone, heq, relocated, if_pos List.prefix_rfl, List.drop_length, List.append_nil, hp]
        nofun
      · have hrdir := entry_above hssome hrs heq
        refine ⟨r, ?_⟩
        rw [relocated_other (by rw [hrdir]; nofun) (fun h => hcs (h.trans hrs))
          fun h => heq (List.IsPrefix.eq_of_length_le hrs h.length_le), hrdir, relocated,
          if_pos List.prefix_rfl, List.drop_length, List.append_nil, hp]
        exact fun h => hnodir (Option.some.inj h).symm
    · refine ⟨s, ?_⟩
      rw [hgone, relocated_other hssome hrs fun h =>
        hsp (List.IsPrefix.eq_of_length_le hbelow h.length_le), hs]
      nofun
  · by_cases heq : r = p
    · refine ⟨s, ?_⟩
      rw [hgone, heq, relocated_self hpsome, hs]
      nofun
    · refine ⟨p, ?_⟩
      rw [relocated_other hpsome hcp hbelow, relocated_source hp hnodir (Ne.symm heq), hp]
      nofun

end Changes

end PathTree

end Zmux
