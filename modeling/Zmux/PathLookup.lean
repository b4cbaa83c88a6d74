import Zmux.TreeChanges

/-!
# Looking up a path

`find` follows a path as the system does when it opens it: what is on the
way has to be a directory, and only the last name may be missing. Where it
finds something it is where the path resolves to (`resolve_of_find`), but a
path resolves through what is missing too. A directory that is found is
still found in a tree with more in it (`find_mono`).
-/

namespace Zmux

namespace PathTree

variable {ν β : Type*} {t t' : PathTree ν β} {p q r : List ν}

/-- `follow` is for the hops of a link and the rest. -/
def look (follow : List ν → List (Hop ν) → Option (List ν)) (t : PathTree ν β) :
    List ν → List (Hop ν) → Option (List ν)
  | path, [] => some path
  | path, .up :: hops => look follow t path.dropLast hops
  | path, .into name :: hops =>
    match t.entry (path ++ [name]) with
    | some (.link absolute target) => follow (if absolute then [] else path) (target ++ hops)
    | some .dir => look follow t (path ++ [name]) hops
    | _ => if hops.isEmpty then some (path ++ [name]) else none

/-- At most so many links are followed. -/
def find (t : PathTree ν β) : ℕ → List ν → List (Hop ν) → Option (List ν)
  | 0 => look (fun _ _ => none) t
  | limit + 1 => look (find t limit) t

theorem walk_of_look {follow follow' : List ν → List (Hop ν) → Option (List ν)}
    (hfollow : ∀ path hops, follow path hops = some q → follow' path hops = some q)
    {hops : List (Hop ν)} : ∀ {path : List ν}, look follow t path hops = some q →
      walk follow' t path hops = some q := by
  induction hops with
  | nil => exact fun h => h
  | cons hop hops ih =>
      intro path h
      cases hop with
      | up => exact ih h
      | into name =>
          rw [look] at h
          rw [walk]
          split at h
          · rename_i hlink
            rw [hlink]
            exact hfollow _ _ h
          · rename_i hdir
            rw [hdir]
            exact ih h
          · rename_i hlink hdir
            split_ifs at h with hlast
            split
            · rename_i hlink'
              exact absurd hlink' (hlink _ _)
            · rw [List.isEmpty_iff.mp hlast]
              exact h

/-- What is found is where the path resolves to. -/
theorem resolve_of_find {limit : ℕ} {path : List ν} {hops : List (Hop ν)}
    (h : find t limit path hops = some q) : resolve t limit path hops = some q := by
  induction limit generalizing path hops with
  | zero => exact walk_of_look (fun _ _ h => by cases h) h
  | succ limit ih => exact walk_of_look (fun _ _ h => ih h) h

theorem look_mono {follow follow' : List ν → List (Hop ν) → Option (List ν)}
    (hfollow : ∀ path hops, follow' path hops = some q → follow path hops = some q)
    (hsub : ∀ p e, t'.entry p = some e → t.entry p = some e) (hdir : t'.entry q = some .dir)
    {hops : List (Hop ν)} : ∀ {path : List ν}, look follow' t' path hops = some q →
      look follow t path hops = some q := by
  induction hops with
  | nil => exact fun h => h
  | cons hop hops ih =>
      intro path h
      cases hop with
      | up => exact ih h
      | into name =>
          rw [look] at h ⊢
          split at h
          · rename_i hlink
            rw [hsub _ _ hlink]
            exact hfollow _ _ h
          · rename_i he
            rw [hsub _ _ he]
            exact ih h
          · rename_i hlink hno
            split_ifs at h
            obtain rfl := Option.some.inj h
            exact absurd hdir hno

/-- With more in the tree a directory is found as before. -/
theorem find_mono {limit : ℕ} {path : List ν} {hops : List (Hop ν)}
    (hsub : ∀ p e, t'.entry p = some e → t.entry p = some e) (hdir : t'.entry q = some .dir)
    (h : find t' limit path hops = some q) : find t limit path hops = some q := by
  induction limit generalizing path hops with
  | zero => exact look_mono (fun _ _ h => by cases h) hsub hdir h
  | succ limit ih => exact look_mono (fun _ _ h => ih h) hsub hdir h

theorem find_into {limit : ℕ} {path : List ν} {name : ν} {hops : List (Hop ν)}
    (he : t.entry (path ++ [name]) = some .dir) :
    find t limit path (.into name :: hops) = find t limit (path ++ [name]) hops := by
  cases limit with
  | zero => rw [find, look, he, ← find]
  | succ limit => rw [find, look, he, ← find]

/-- The way down through directories. -/
theorem find_dirs {limit : ℕ} {hops : List (Hop ν)} :
    ∀ {back front : List ν}, t.entry (front ++ back) = some .dir →
      find t limit front (back.map .into ++ hops) = find t limit (front ++ back) hops := by
  intro back
  induction back with
  | nil =>
      intro front _
      rw [List.append_nil]
      rfl
  | cons name back ih =>
      intro front he
      have hassoc : front ++ name :: back = front ++ [name] ++ back := by
        rw [List.append_assoc]
        rfl
      rw [hassoc] at he ⊢
      have hname : t.entry (front ++ [name]) = some .dir := by
        by_cases hback : back = []
        · rwa [hback, List.append_nil] at he
        · refine entry_above (he ▸ Option.some_ne_none _) (List.prefix_append _ _) fun h => hback ?_
          exact List.append_right_eq_self.mp h.symm
      rw [List.map_cons, List.cons_append, find_into hname, ih he]

theorem direct_dir (h : t.entry p = some .dir) : t.Direct p := by
  intro front e hfront he
  by_cases hp : front = p
  · rw [hp, h] at he
    obtain rfl := Option.some.inj he
    rfl
  · rw [entry_above (h ▸ Option.some_ne_none _) hfront hp] at he
    obtain rfl := Option.some.inj he
    rfl

theorem find_dir {limit : ℕ} (he : t.entry p = some .dir) :
    find t limit [] (p.map .into) = some p := by
  have h := @find_dirs _ _ t limit [] p [] he
  rw [List.append_nil, List.nil_append] at h
  rw [h]
  cases limit <;> rfl

/-- What is in a directory and is not a link is found where it is. -/
theorem find_entry {limit : ℕ} {name : ν} {e : TreeEntry ν β} (hp : t.entry p = some .dir)
    (he : t.entry (p ++ [name]) = some e) (hlink : e.isLink = false) :
    find t limit [] ((p ++ [name]).map .into) = some (p ++ [name]) := by
  have h := @find_dirs _ _ t limit [.into name] p [] hp
  rw [List.map_append, List.map_cons, List.map_nil, h, List.nil_append]
  cases e with
  | dir =>
      rw [find_into he]
      cases limit <;> rfl
  | file content => cases limit <;> (rw [find, look, he]; rfl)
  | link absolute target => cases hlink

end PathTree

end Zmux
