import Zmux.Ls
import Zmux.PreOrder

/-!
# The recursive listing of `ls`

The loop of `_ls_recursive` keeps a stack; `Ls.listing` is the recursion it
stands for, directory by directory in pre-order, into what is a directory
itself and not a link to one. `recursive_listing` says that they give the
same sections, if every entry can be stat'ed, and what they list: the
directories that are reached from the target through entries that are
shown and are not links, each one once (`mem_listing_iff`,
`nodup_listing`), in the order of `_ls_entries` (`lsEntries_ok`).
-/

namespace Zmux

namespace Ls

open FileCommands (Word Context FileError)

variable {β : Type*} {τ : Type} {d : Disk β τ} {flags : Flags} {p q : FilePath} {name : Word}

/-! ## What the system answers -/

/-- `stat` says something of every entry; so no link leads nowhere. -/
def Disk.Statable (d : Disk β τ) : Prop := ∀ p, d.tree.entry p ≠ none → ∃ s, d.statOf p = .ok s

theorem lookup_dir (h : d.tree.entry p = some .dir) : d.lookup p = some p := by
  rw [Disk.lookup, PathTree.find_dir h, Option.filter_some_pos]
  rw [h]
  rfl

theorem iterdir_dir (h : d.tree.entry p = some .dir) :
    d.iterdir p = .ok ((d.names p).map fun name => p ++ [name]) := by
  rw [Disk.iterdir, lookup_dir h]
  exact if_pos (PathTree.isDirAt_iff.mpr h)

/-- The two tests look at the entry itself. -/
theorem entersDir_entry (hp : d.tree.entry p = some .dir)
    (hname : d.tree.entry (p ++ [name]) ≠ none) :
    entersDir d (p ++ [name]) = true ↔ d.tree.entry (p ++ [name]) = some .dir := by
  obtain ⟨e, he⟩ := Option.ne_none_iff_exists'.mp hname
  have hlink : d.isSymlink (p ++ [name]) = e.isLink := by
    rw [Disk.isSymlink, List.dropLast_concat, PathTree.find_dir hp, List.getLast?_concat]
    dsimp only
    rw [he]
    rfl
  cases e with
  | dir =>
      have hdir : d.isDir (p ++ [name]) = true := by
        rw [Disk.isDir, lookup_dir he]
        exact PathTree.isDirAt_iff.mpr he
      rw [entersDir, hdir, hlink, he]
      exact iff_of_true rfl rfl
  | file content =>
      have hdir : d.isDir (p ++ [name]) = false := by
        rw [Disk.isDir, Disk.lookup, PathTree.find_entry hp he rfl, Option.filter_some_pos (by
          rw [he]
          rfl)]
        dsimp only
        rw [PathTree.isDirAt, he]
      rw [entersDir, hdir, he]
      exact iff_of_false Bool.false_ne_true (by simp)
  | link absolute target =>
      rw [entersDir, hlink, he]
      exact iff_of_false (by simp [TreeEntry.isLink]) (by simp)

/-- So they do for a target: `_path` has resolved it. -/
theorem entersDir_target (hp : d.tree.Direct p) :
    entersDir d p = true ↔ d.tree.entry p = some .dir := by
  constructor
  · intro h
    have hdir : d.isDir p = true := (Bool.and_eq_true_iff.mp h).1
    rw [Disk.isDir] at hdir
    split at hdir
    · rename_i r hlookup
      have hfind := (Option.filter_eq_some_iff.mp hlookup).1
      have hresolve := PathTree.resolve_of_find hfind
      rw [PathTree.resolve_into hp] at hresolve
      obtain rfl := Option.some.inj hresolve
      exact PathTree.isDirAt_iff.mp hdir
    · cases hdir
  · intro h
    rcases List.eq_nil_or_concat' p with rfl | ⟨front, last, rfl⟩
    · have hdir : d.isDir [] = true := by
        rw [Disk.isDir, lookup_dir h]
        exact PathTree.isDirAt_iff.mpr h
      have hlink : d.isSymlink [] = false := by
        rw [Disk.isSymlink]
        split
        · rename_i hlast
          cases hlast
        · rfl
      rw [entersDir, hdir, hlink]
      rfl
    · have hne : d.tree.entry (front ++ [last]) ≠ none := h ▸ Option.some_ne_none _
      exact (entersDir_entry (d.tree.parent _ _ hne) hne).mpr h

/-! ## Entries -/

theorem sortBy_perm {α κ : Type*} [LinearOrder κ] (key : α → κ) (descending : Bool) (l : List α) :
    (sortBy key descending l).Perm l := List.mergeSort_perm ..

theorem pairwise_sortBy {α κ : Type*} [LinearOrder κ] (key : α → κ) (descending : Bool)
    (l : List α) : (sortBy key descending l).Pairwise fun a b =>
      if descending then key b ≤ key a else key a ≤ key b := by
  have htrans : ∀ a b c : α,
      (if descending then decide (key b ≤ key a) else decide (key a ≤ key b)) = true →
      (if descending then decide (key c ≤ key b) else decide (key b ≤ key c)) = true →
      (if descending then decide (key c ≤ key a) else decide (key a ≤ key c)) = true := by
    intro a b c
    cases descending with
    | true => simpa using fun hab hbc => le_trans hbc hab
    | false => simpa using fun hab hbc => le_trans hab hbc
  have htotal : ∀ a b : α,
      ((if descending then decide (key b ≤ key a) else decide (key a ≤ key b))
        || if descending then decide (key a ≤ key b) else decide (key b ≤ key a)) = true := by
    intro a b
    cases descending with
    | true => simpa using le_total (key b) (key a)
    | false => simpa using le_total (key a) (key b)
  refine (List.pairwise_mergeSort htrans htotal l).imp fun {a b} h => ?_
  cases descending with
  | true => exact of_decide_eq_true h
  | false => exact of_decide_eq_true h

/-- What a directory has to show, as `iterdir` yields it. -/
def shown (d : Disk β τ) (flags : Flags) (p : FilePath) : List FilePath :=
  ((d.names p).map fun name => p ++ [name]).filter flags.shows

/-- The keys of `-t` with their entries. -/
def keyed (d : Disk β τ) (entries : List FilePath) : Except FileError (List (τ × FilePath)) :=
  entries.mapM fun e => do return ((← d.statOf e).mtime, e)

theorem mem_shown {e : FilePath} (h : e ∈ shown d flags p) :
    ∃ name, e = p ++ [name] ∧ d.tree.entry e ≠ none ∧ flags.shows e = true := by
  obtain ⟨he, hshows⟩ := List.mem_filter.mp h
  obtain ⟨name, hname, rfl⟩ := List.mem_map.mp he
  exact ⟨name, rfl, (d.mem_names p name).mp hname, hshows⟩

theorem keyed_snd {entries : List FilePath} {keys : List (τ × FilePath)}
    (h : keyed d entries = .ok keys) : keys.map Prod.snd = entries := by
  induction entries generalizing keys with
  | nil =>
      cases h
      rfl
  | cons e entries ih =>
      rw [keyed, List.mapM_cons] at h
      cases hs : d.statOf e with
      | error error =>
          rw [hs] at h
          cases h
      | ok s =>
          cases hrest : keyed d entries with
          | error error =>
              rw [hs] at h
              change keyed d entries >>= _ = _ at h
              rw [hrest] at h
              cases h
          | ok rest =>
              rw [hs] at h
              change keyed d entries >>= _ = _ at h
              rw [hrest] at h
              cases h
              rw [List.map_cons, ih hrest]

theorem keyed_ok {entries : List FilePath} (h : ∀ e ∈ entries, ∃ s, d.statOf e = .ok s) :
    ∃ keys, keyed d entries = .ok keys
      ∧ ∀ k ∈ keys, ∃ s, d.statOf k.2 = .ok s ∧ k.1 = s.mtime := by
  induction entries with
  | nil => exact ⟨[], rfl, by simp⟩
  | cons e entries ih =>
      obtain ⟨s, hs⟩ := h e List.mem_cons_self
      obtain ⟨keys, hkeys, hmtime⟩ := ih fun e he => h e (List.mem_cons_of_mem _ he)
      refine ⟨(s.mtime, e) :: keys, ?_, ?_⟩
      · rw [keyed, List.mapM_cons, hs]
        change keyed d entries >>= _ = _
        rw [hkeys]
        rfl
      · intro k hk
        rcases List.mem_cons.mp hk with rfl | hk
        · exact ⟨s, hs, rfl⟩
        · exact hmtime k hk

variable [LinearOrder τ]

/-- `a` may stand ahead of `b`. -/
def InOrder (d : Disk β τ) (flags : Flags) (a b : FilePath) : Prop :=
  if flags.byTime then
    ∃ s s', d.statOf a = .ok s ∧ d.statOf b = .ok s'
      ∧ if flags.reverse then s.mtime ≤ s'.mtime else s'.mtime ≤ s.mtime
  else if flags.reverse then baseName b ≤ baseName a else baseName a ≤ baseName b

theorem lsEntries_dir (flags : Flags) (hp : d.tree.entry p = some .dir) :
    lsEntries d flags p = if flags.byTime then
        (keyed d (shown d flags p)).map fun keys =>
          (sortBy Prod.fst flags.descending keys).map Prod.snd
      else .ok (sortBy baseName flags.descending (shown d flags p)) := by
  rw [lsEntries, iterdir_dir hp]
  cases flags.byTime with
  | true =>
      change keyed d (shown d flags p) >>= _ = _
      cases keyed d (shown d flags p) <;> rfl
  | false => rfl

/-- `_ls_entries` on a directory leaves nothing out. -/
theorem lsEntries_perm {entries : List FilePath} (hp : d.tree.entry p = some .dir)
    (h : lsEntries d flags p = .ok entries) : entries.Perm (shown d flags p) := by
  rw [lsEntries_dir flags hp] at h
  split at h
  · cases hkeys : keyed d (shown d flags p) with
    | error error =>
        rw [hkeys] at h
        cases h
    | ok keys =>
        rw [hkeys] at h
        cases h
        rw [← keyed_snd hkeys]
        exact (sortBy_perm ..).map _
  · cases h
    exact sortBy_perm ..

/-- It brings them in order. -/
theorem lsEntries_ok (hstat : d.Statable) (flags : Flags) (hp : d.tree.entry p = some .dir) :
    ∃ entries, lsEntries d flags p = .ok entries ∧ entries.Pairwise (InOrder d flags) := by
  rw [lsEntries_dir flags hp]
  cases hflag : flags.byTime with
  | true =>
      obtain ⟨keys, hkeys, hmtime⟩ := keyed_ok fun e (he : e ∈ shown d flags p) => by
        obtain ⟨name, -, hne, -⟩ := mem_shown he
        exact hstat e hne
      rw [if_pos rfl, hkeys]
      refine ⟨_, rfl, List.pairwise_map.mpr ?_⟩
      refine (pairwise_sortBy Prod.fst flags.descending keys).imp_of_mem ?_
      intro k k' hk hk' hle
      obtain ⟨s, hs, hkey⟩ := hmtime k ((sortBy_perm ..).mem_iff.mp hk)
      obtain ⟨s', hs', hkey'⟩ := hmtime k' ((sortBy_perm ..).mem_iff.mp hk')
      rw [hkey, hkey', Flags.descending, hflag, if_pos rfl] at hle
      rw [InOrder, hflag, if_pos rfl]
      refine ⟨s, s', hs, hs', ?_⟩
      cases hreverse : flags.reverse with
      | true => simpa [hreverse] using hle
      | false => simpa [hreverse] using hle
  | false =>
      rw [if_neg Bool.false_ne_true]
      refine ⟨_, rfl, (pairwise_sortBy baseName flags.descending _).imp fun {a b} hle => ?_⟩
      rw [Flags.descending, hflag] at hle
      rw [InOrder, hflag]
      exact hle

/-! ## The recursion -/

/-- What `_ls_entries` gives; nothing if it raises. -/
def entriesOf (d : Disk β τ) (flags : Flags) (p : FilePath) : List FilePath :=
  match lsEntries d flags p with
  | .ok entries => entries
  | .error _ => []

/-- The directories to list below a directory. -/
def subdirectories (d : Disk β τ) (flags : Flags) (p : FilePath) : List FilePath :=
  if d.tree.isDirAt p then (entriesOf d flags p).filter d.tree.isDirAt else []

theorem shows_snoc (p : FilePath) (name : Word) :
    flags.shows (p ++ [name]) = true ↔ flags.showAll = true ∨ hidden name = false := by
  simp [Flags.shows, baseName]

theorem mem_subdirectories {e : FilePath} (h : e ∈ subdirectories d flags p) :
    ∃ name, e = p ++ [name] ∧ d.tree.entry e = some .dir ∧ flags.shows e = true := by
  unfold subdirectories entriesOf at h
  split at h
  · rename_i hp
    obtain ⟨he, hdir⟩ := List.mem_filter.mp h
    split at he
    · rename_i entries hentries
      have hperm := lsEntries_perm (PathTree.isDirAt_iff.mp hp) hentries
      obtain ⟨name, rfl, -, hshows⟩ := mem_shown (hperm.mem_iff.mp he)
      exact ⟨name, rfl, PathTree.isDirAt_iff.mp hdir, hshows⟩
    · cases he
  · cases h

/-- The directories that are listed, as a forest. -/
def forest (d : Disk β τ) (flags : Flags) : Forest FilePath where
  children := subdirectories d flags
  rank p := d.depth + 1 - p.length
  rank_child {p e} he := by
    obtain ⟨name, rfl, hdir, -⟩ := mem_subdirectories he
    have hle := d.length_le _ (hdir ▸ Option.some_ne_none _)
    rw [List.length_append, List.length_singleton] at hle ⊢
    omega

/-- The recursive listing: depth first, a directory ahead of those in it. -/
def listing (d : Disk β τ) (flags : Flags) : FilePath → List FilePath := (forest d flags).preorder

/-- The section of a directory. -/
def part (d : Disk β τ) (flags : Flags) (p : FilePath) : Part :=
  (some p, match lsFormat d flags (entriesOf d flags p) with
    | .ok body => body
    | .error _ => [])

/-- The sections of a target. -/
def sections (d : Disk β τ) (flags : Flags) (target : FilePath) : List Part :=
  if d.tree.isDirAt target then (listing d flags target).map (part d flags)
  else [(none, baseName target ++ ['\n'])]

/-! ## The loop -/

theorem entriesOf_ok (hstat : d.Statable) (flags : Flags) (hp : d.tree.entry p = some .dir) :
    lsEntries d flags p = .ok (entriesOf d flags p) := by
  obtain ⟨entries, hentries, -⟩ := lsEntries_ok hstat flags hp
  rw [entriesOf, hentries]

theorem mem_entriesOf (hstat : d.Statable) (hp : d.tree.entry p = some .dir) {e : FilePath} :
    e ∈ entriesOf d flags p ↔ e ∈ shown d flags p :=
  (lsEntries_perm hp (entriesOf_ok hstat flags hp)).mem_iff

omit [LinearOrder τ] in
theorem lsFormat_ok (flags : Flags) {entries : List FilePath}
    (h : ∀ e ∈ entries, ∃ s, d.statOf e = .ok s) : ∃ body, lsFormat d flags entries = .ok body := by
  unfold lsFormat
  split
  · obtain ⟨lines, hlines⟩ : ∃ lines : List Word, entries.mapM (fun e => do
        return longLine (← d.statOf e) (baseName e)) = Except.ok (ε := FileError) lines := by
      induction entries with
      | nil => exact ⟨[], rfl⟩
      | cons e entries ih =>
          obtain ⟨s, hs⟩ := h e List.mem_cons_self
          obtain ⟨lines, hlines⟩ := ih fun e he => h e (List.mem_cons_of_mem _ he)
          refine ⟨longLine s (baseName e) :: lines, ?_⟩
          rw [List.mapM_cons, hs, hlines]
          rfl
    rw [hlines]
    exact ⟨_, rfl⟩
  · exact ⟨_, rfl⟩

theorem visit_ok (hstat : d.Statable) (flags : Flags) (hp : d.tree.entry p = some .dir) :
    visit d flags p = .ok (part d flags p, entriesOf d flags p) := by
  obtain ⟨body, hbody⟩ := lsFormat_ok (d := d) flags fun e he => by
    obtain ⟨name, -, hne, -⟩ := mem_shown ((mem_entriesOf hstat hp).mp he)
    exact hstat e hne
  rw [visit, entriesOf_ok hstat flags hp, part, hbody]
  change (lsFormat d flags (entriesOf d flags p) >>= _) = _
  rw [hbody]
  rfl

omit [LinearOrder τ] in
theorem push_eq (d : Disk β τ) (entries stack : List FilePath) :
    push d entries stack = entries.filter (entersDir d) ++ stack := by
  unfold push
  rw [List.foldl_reverse]
  induction entries with
  | nil => rfl
  | cons e entries ih =>
      rw [List.foldr_cons, ih, List.filter_cons]
      split <;> rfl

/-- The stack takes the subdirectories. -/
theorem push_entries (hstat : d.Statable) (hp : d.tree.entry p = some .dir)
    (stack : List FilePath) :
    push d (entriesOf d flags p) stack = subdirectories d flags p ++ stack := by
  rw [push_eq, subdirectories, if_pos (PathTree.isDirAt_iff.mpr hp)]
  congr 1
  refine List.filter_congr fun e he => ?_
  obtain ⟨name, rfl, hne, -⟩ := mem_shown ((mem_entriesOf hstat hp).mp he)
  exact Bool.eq_iff_iff.mpr ((entersDir_entry hp hne).trans PathTree.isDirAt_iff.symm)

theorem walk_eq (hstat : d.Statable) (flags : Flags) {fuel : ℕ} :
    ∀ {stack : List FilePath} {done : List Part}, (∀ p ∈ stack, d.tree.entry p = some .dir) →
      walk d flags fuel stack done
        = ((forest d flags).walk fuel stack).map fun ps => .ok (done ++ ps.map (part d flags)) := by
  induction fuel with
  | zero => exact fun _ => rfl
  | succ fuel ih =>
      intro stack done hdirs
      cases stack with
      | nil =>
          rw [walk, Forest.walk, Option.map_some, List.map_nil, List.append_nil]
      | cons p stack =>
          have hp := hdirs p List.mem_cons_self
          have hnext : ∀ q ∈ subdirectories d flags p ++ stack, d.tree.entry q = some .dir := by
            intro q hq
            rcases List.mem_append.mp hq with hq | hq
            · obtain ⟨name, -, hdir, -⟩ := mem_subdirectories hq
              exact hdir
            · exact hdirs q (List.mem_cons_of_mem _ hq)
          rw [walk, visit_ok hstat flags hp]
          dsimp only
          rw [push_entries hstat hp, ih hnext, Forest.walk, Option.map_map]
          congr 1
          funext ps
          simp

/-- A target takes as many turns as it has directories. -/
theorem walkTargets_eq (hstat : d.Statable) (flags : Flags) {fuel : ℕ} {targets : List FilePath} :
    ∀ {done : List Part}, (∀ target ∈ targets, d.tree.Direct target) →
      (∀ target ∈ targets, (listing d flags target).length < fuel) →
      walkTargets d flags fuel targets done
        = some (.ok (done ++ targets.flatMap (sections d flags))) := by
  induction targets with
  | nil => simp [walkTargets]
  | cons target targets ih =>
      intro done hdirect hfuel
      have hrest : ∀ {done}, walkTargets d flags fuel targets done
          = some (.ok (done ++ targets.flatMap (sections d flags))) :=
        ih (fun t ht => hdirect t (List.mem_cons_of_mem _ ht))
          fun t ht => hfuel t (List.mem_cons_of_mem _ ht)
      have henters := entersDir_target (hdirect target List.mem_cons_self)
      rw [walkTargets, List.flatMap_cons]
      by_cases hdir : d.tree.entry target = some .dir
      · have hlisting : (forest d flags).walk fuel [target] = some (listing d flags target) := by
          have hall : [target].flatMap (forest d flags).preorder = listing d flags target := by
            rw [List.flatMap_singleton]
            rfl
          rw [← hall]
          exact Forest.walk_eq (by
            rw [hall]
            exact hfuel target List.mem_cons_self)
        rw [if_pos (henters.mpr hdir), walk_eq hstat flags (by simpa using hdir), hlisting]
        dsimp only [Option.map_some]
        rw [hrest, sections, if_pos (PathTree.isDirAt_iff.mpr hdir), List.append_assoc]
      · rw [if_neg fun h => hdir (henters.mp h), hrest, sections,
          if_neg fun h => hdir (PathTree.isDirAt_iff.mp h), List.append_assoc]

/-! ## What is listed -/

theorem mem_subdirectories_iff (hstat : d.Statable) {e : FilePath} :
    e ∈ subdirectories d flags p ↔ ∃ name, e = p ++ [name] ∧ d.tree.entry e = some .dir
      ∧ (flags.showAll = true ∨ hidden name = false) := by
  constructor
  · intro he
    obtain ⟨name, rfl, hdir, hshows⟩ := mem_subdirectories he
    exact ⟨name, rfl, hdir, (shows_snoc p name).mp hshows⟩
  · rintro ⟨name, rfl, hdir, hshows⟩
    have hne : d.tree.entry (p ++ [name]) ≠ none := hdir ▸ Option.some_ne_none _
    have hp := d.tree.parent p name hne
    rw [subdirectories, if_pos (PathTree.isDirAt_iff.mpr hp)]
    refine List.mem_filter.mpr ⟨(mem_entriesOf hstat hp).mpr ?_, PathTree.isDirAt_iff.mpr hdir⟩
    refine List.mem_filter.mpr ⟨?_, (shows_snoc p name).mpr hshows⟩
    exact List.mem_map.mpr ⟨name, (d.mem_names p name).mpr hne, rfl⟩

/-- A directory below the target, on a way of directories that are shown;
so there is no link on it. -/
def Reached (d : Disk β τ) (flags : Flags) (target q : FilePath) : Prop :=
  ∃ names, q = target ++ names ∧ d.tree.entry q = some .dir
    ∧ (flags.showAll = true ∨ ∀ name ∈ names, hidden name = false)

theorem mem_listing_iff (hstat : d.Statable) {target : FilePath}
    (htarget : d.tree.entry target = some .dir) :
    q ∈ listing d flags target ↔ Reached d flags target q := by
  rw [listing, Forest.mem_preorder_iff]
  constructor
  · intro h
    induction h with
    | refl => exact ⟨[], (List.append_nil _).symm, htarget, Or.inr (by simp)⟩
    | tail _ hchild ih =>
        obtain ⟨names, rfl, -, hshown⟩ := ih
        obtain ⟨name, rfl, hdir, hname⟩ := (mem_subdirectories_iff hstat).mp hchild
        refine ⟨names ++ [name], List.append_assoc .., hdir, ?_⟩
        rcases hshown with hall | hshown
        · exact Or.inl hall
        · refine hname.imp_right fun hname n hn => ?_
          rcases List.mem_append.mp hn with hn | hn
          · exact hshown n hn
          · exact List.mem_singleton.mp hn ▸ hname
  · rintro ⟨names, rfl, hdir, hshown⟩
    induction names using List.reverseRecOn with
    | nil => rw [List.append_nil]
    | append_singleton names name ih =>
        rw [← List.append_assoc] at hdir ⊢
        have habove := d.tree.parent _ name (hdir ▸ Option.some_ne_none _)
        refine (ih habove (hshown.imp_right fun h n hn => h n (List.mem_append_left _ hn))).tail ?_
        refine (mem_subdirectories_iff hstat).mpr ⟨name, rfl, hdir, ?_⟩
        exact hshown.imp_right fun h => h name (by simp)

theorem nodup_listing (hstat : d.Statable) (flags : Flags) (target : FilePath) :
    (listing d flags target).Nodup := by
  refine Forest.nodup_preorder (fun {p p' e} h h' => ?_) (fun p => ?_) target
  · obtain ⟨name, rfl, -⟩ := mem_subdirectories h
    obtain ⟨name', heq, -⟩ := mem_subdirectories h'
    exact (List.append_inj' heq rfl).1
  · change (subdirectories d flags p).Nodup
    unfold subdirectories
    split
    · rename_i hp
      have hdir := PathTree.isDirAt_iff.mp hp
      have hperm := lsEntries_perm hdir (entriesOf_ok hstat flags hdir)
      refine List.Nodup.filter _ (hperm.nodup_iff.mpr (List.Nodup.filter _ ?_))
      refine (d.nodup_names p).map fun name name' heq => ?_
      exact List.singleton_inj.mp (List.append_cancel_left heq)
    · exact List.nodup_nil

/-- **The loop of `ls -R`** comes to an end with the sections of the
recursive listing. Of a target that is a directory this lists what is
reached through entries that are shown, none of them a link, each directory
once; those in one directory in the order of `_ls_entries`. -/
theorem recursive_listing (hstat : d.Statable) (flags : Flags) {targets : List FilePath}
    (hdirect : ∀ target ∈ targets, d.tree.Direct target) :
    (∃ bound, ∀ fuel, bound ≤ fuel →
      walkTargets d flags fuel targets [] = some (.ok (targets.flatMap (sections d flags)))
      ∧ lsRecursive d flags fuel targets
        = some (.ok (render (targets.flatMap (sections d flags)))))
    ∧ (∀ target, d.tree.entry target = some .dir →
      (listing d flags target).Nodup
      ∧ ∀ q, q ∈ listing d flags target ↔ Reached d flags target q)
    ∧ ∀ p, d.tree.entry p = some .dir → ∃ entries, lsEntries d flags p = .ok entries
      ∧ entries.Perm (shown d flags p) ∧ entries.Pairwise (InOrder d flags)
      ∧ listing d flags p
        = p :: (entries.filter d.tree.isDirAt).flatMap (listing d flags) := by
  refine ⟨⟨(targets.flatMap (listing d flags)).length + 1, fun fuel hfuel => ?_⟩,
    fun target htarget =>
      ⟨nodup_listing hstat flags target, fun q => mem_listing_iff hstat htarget⟩,
    fun p hp => ?_⟩
  · have hwalk := @walkTargets_eq _ _ d _ hstat flags fuel targets [] hdirect
      fun target htarget => by
        obtain ⟨before, after, rfl⟩ := List.append_of_mem htarget
        simp only [List.flatMap_append, List.flatMap_cons, List.length_append] at hfuel
        omega
    rw [List.nil_append] at hwalk
    rw [lsRecursive, hwalk]
    exact ⟨rfl, rfl⟩
  · obtain ⟨entries, hentries, hordered⟩ := lsEntries_ok hstat flags hp
    refine ⟨entries, hentries, lsEntries_perm hp hentries, hordered, ?_⟩
    have hchildren : (forest d flags).children p = entries.filter d.tree.isDirAt := by
      change subdirectories d flags p = _
      rw [subdirectories, if_pos (PathTree.isDirAt_iff.mpr hp), entriesOf, hentries]
    rw [listing, Forest.preorder_eq, hchildren]

omit [LinearOrder τ] in
theorem split_path {p : FilePath} (hp : p ≠ []) : p.dropLast ++ [baseName p] = p := by
  rw [baseName, List.getLast?_eq_some_getLast hp, Option.getD_some]
  exact List.dropLast_append_getLast hp

/-- A disk with these entries; the names in a directory are in their order. -/
def Disk.ofList (entries : List (FilePath × TreeEntry Word β)) (h : PathTree.Closed entries)
    (hnodup : (entries.map Prod.fst).Nodup) (limit : ℕ) (stat : FilePath → Stat τ) : Disk β τ where
  tree := PathTree.ofList entries h
  limit := limit
  names p := (entries.filter fun x => x.1.dropLast = p).map fun x => baseName x.1
  stat := stat
  depth := (entries.flatMap Prod.fst).length
  nodup_names p := by
    refine List.Nodup.map_on ?_ (List.Nodup.filter _ (List.Nodup.of_map _ hnodup))
    intro x hx y hy heq
    obtain ⟨hx, hxp⟩ := List.mem_filter.mp hx
    obtain ⟨hy, hyp⟩ := List.mem_filter.mp hy
    refine List.inj_on_of_nodup_map hnodup hx hy ?_
    rw [← split_path (h x hx).1, ← split_path (h y hy).1, heq, of_decide_eq_true hxp,
      of_decide_eq_true hyp]
  mem_names p name := by
    constructor
    · intro hname
      obtain ⟨x, hx, rfl⟩ := List.mem_map.mp hname
      obtain ⟨hmem, hxp⟩ := List.mem_filter.mp hx
      have hpath : p ++ [baseName x.1] = x.1 := by
        rw [← of_decide_eq_true hxp]
        exact split_path (h x hmem).1
      rw [hpath]
      change (if x.1 = [] then _ else _) ≠ none
      rw [if_neg (h x hmem).1, ne_eq, Option.map_eq_none_iff, List.find?_eq_none]
      exact fun hnone => hnone x hmem (by simp)
    · intro hne
      obtain ⟨e, he⟩ := Option.ne_none_iff_exists'.mp hne
      rcases PathTree.entry_ofList he with ⟨hnil, -⟩ | hmem
      · exact absurd hnil (by simp)
      · refine List.mem_map.mpr ⟨_, List.mem_filter.mpr ⟨hmem, ?_⟩, ?_⟩
        · simp
        · simp [baseName]
  length_le p hp := by
    obtain ⟨e, he⟩ := Option.ne_none_iff_exists'.mp hp
    rcases PathTree.entry_ofList he with ⟨rfl, -⟩ | hmem
    · exact Nat.zero_le _
    · obtain ⟨before, after, heq⟩ := List.append_of_mem hmem
      simp only [heq, List.flatMap_append, List.flatMap_cons, List.length_append]
      omega

/-- `/a` with a hidden directory, a file, and a directory with a link back
to `/a`. -/
def sampleEntries : List (FilePath × TreeEntry Word ℕ) :=
  [(["a".toList], .dir), (["a".toList, ".h".toList], .dir), (["a".toList, "f".toList], .file 0),
    (["a".toList, "c".toList], .dir),
    (["a".toList, "c".toList, "up".toList], .link false [.up])]

def sampleDisk : Disk ℕ ℕ :=
  .ofList sampleEntries (by decide) (by decide) 40 fun p => ⟨0o644, 0, p.length⟩

theorem sampleDisk_statable : sampleDisk.Statable := by
  have hall : (sampleEntries.all fun x => (sampleDisk.lookup x.1).isSome) = true := by
    decide +kernel
  intro p hp
  obtain ⟨r, hr⟩ : ∃ r, sampleDisk.lookup p = some r := by
    obtain ⟨e, he⟩ := Option.ne_none_iff_exists'.mp hp
    have hentry := @PathTree.entry_ofList Word ℕ p e _ sampleEntries (by decide) he
    rcases hentry with ⟨rfl, rfl⟩ | hmem
    · exact ⟨[], lookup_dir he⟩
    · exact Option.isSome_iff_exists.mp (List.all_eq_true.mp hall _ hmem)
  exact ⟨sampleDisk.stat r, by rw [Disk.statOf, hr]⟩

/-- `ls -aRt`. -/
def sampleFlags : Flags := ⟨true, false, true, true, false⟩

theorem sampleDisk_listing : ∃ bound, ∀ fuel, bound ≤ fuel →
    lsRecursive sampleDisk sampleFlags fuel [["a".toList]]
      = some (.ok (render ([["a".toList]].flatMap (sections sampleDisk sampleFlags)))) := by
  have hdirect : ∀ target ∈ [["a".toList]], sampleDisk.tree.Direct target := by
    intro target htarget
    rw [List.mem_singleton.mp htarget]
    exact PathTree.direct_dir (by decide)
  obtain ⟨⟨bound, hbound⟩, -⟩ := recursive_listing sampleDisk_statable sampleFlags hdirect
  exact ⟨bound, fun fuel hfuel => (hbound fuel hfuel).2⟩

/-! ## The command -/

omit [LinearOrder τ] in
theorem direct_targets {context : Context} {values : List Word} {targets : List FilePath}
    (h : values.mapM (context.path d.tree) = .ok targets) :
    ∀ target ∈ targets, d.tree.Direct target := by
  induction values generalizing targets with
  | nil =>
      cases h
      simp
  | cons value values ih =>
      rw [List.mapM_cons] at h
      cases hvalue : context.path d.tree value with
      | error e =>
          rw [hvalue] at h
          cases h
      | ok target =>
          cases hrest : values.mapM (context.path d.tree) with
          | error e =>
              rw [hvalue, hrest] at h
              cases h
          | ok rest =>
              rw [hvalue, hrest] at h
              cases h
              intro t ht
              rcases List.mem_cons.mp ht with rfl | ht
              · exact FileCommands.direct_path hvalue
              · exact ih hrest t ht

/-- `ls -R` prints the recursive listing of its operands. -/
theorem cmdLs_recursive {context : Context} {args operands : List Word} {targets : List FilePath}
    (hstat : d.Statable)
    (hargs : parseArgs args false ⟨false, false, false, false, false⟩ [] = .ok (flags, operands))
    (hrecursive : flags.recursive = true)
    (htargets : (if operands = [] then [['.']] else operands).mapM (context.path d.tree)
      = .ok targets)
    (hexist : ∀ target ∈ targets, d.lookup target ≠ none) :
    ∃ bound, ∀ fuel, bound ≤ fuel → cmdLs d context fuel args
      = some (.ok (render (targets.flatMap (sections d flags)))) := by
  obtain ⟨⟨bound, hbound⟩, -⟩ := recursive_listing hstat flags (direct_targets htargets)
  refine ⟨bound, fun fuel hfuel => ?_⟩
  have hall : (targets.any fun target => (d.lookup target).isNone) = false := by
    simpa using hexist
  rw [cmdLs, hargs]
  dsimp only
  rw [htargets]
  dsimp only
  rw [hall, if_neg Bool.false_ne_true, if_pos hrecursive, (hbound fuel hfuel).2]

end Ls

end Zmux
