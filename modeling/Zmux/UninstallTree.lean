import Zmux.FileCommands
import Zmux.PruneDirs
import Zmux.ZpipInstall

/-!
# What `uninstall` leaves on disk

The two loops of `uninstall` on a tree of files, directories and links: the
recorded files are resolved and unlinked if they are files below
`USER_PACKAGES_DIR`, and then the directories below it are removed from the
deepest up, as far as they are empty.

The record comes from `packages.json`, so its names may be anything.
`uninstall_exact` says what is left for any record and any tree. For the
records that `install` writes, in a directory without links, the files are
those of `Zmux.removeFiles` (`uninstall_refines`).
-/

namespace Zmux

namespace UninstallTree

open FileCommands (Word hop parts)
open PathTree (Linkless below)

variable {β : Type*}

/-- What `uninstall` knows of the session and the system. -/
structure Site where
  /-- The names of `USER_PACKAGES_DIR`. -/
  directory : List Word
  /-- How many links a path may have. -/
  limit : ℕ
  /-- The system does not remove the directory. -/
  refused : List Word → Bool
  /-- All paths of the disk, in the order in which `rglob` comes by them. -/
  paths : List (List Word)

namespace Site

variable (site : Site)

/-- `USER_PACKAGES_DIR / relative`. -/
def join (relative : Word) : List (Hop Word) :=
  if relative.head? = some '/' then (parts relative).map hop
  else site.directory.map .into ++ (parts relative).map hop

/-- `USER_PACKAGES_DIR.resolve()`. -/
def base (t : PathTree Word β) : Option (List Word) :=
  t.resolve site.limit [] (site.directory.map .into)

/-- `USER_PACKAGES_DIR.rglob("*")`. -/
def rglob (t : PathTree Word β) (base : List Word) : List (List Word) :=
  site.paths.filter fun q => base.isPrefixOf q && decide (q ≠ base) && (t.entry q).isSome

end Site

/-- `path.is_file()` of a path that is resolved. -/
def isFileAt (t : PathTree Word β) (p : List Word) : Bool :=
  match t.entry p with
  | some (.file _) => true
  | _ => false

section Uninstall

variable (site : Site)

/-- One recorded file; `none` is the `RuntimeError` of `resolve`. -/
def unlinkOne : PathTree Word β × ℕ → Word → Option (PathTree Word β × ℕ)
  | (t, removed), relative =>
    match t.resolve site.limit [] (site.join relative), site.base t with
    | some target, some base =>
      if base.isPrefixOf target && decide (target ≠ base) && isFileAt t target then
        some (t.erase target, removed + 1)
      else some (t, removed)
    | _, _ => none

def unlinkFiles (t : PathTree Word β) (files : List Word) : Option (PathTree Word β × ℕ) :=
  files.foldlM (unlinkOne site) (t, 0)

/-- `sorted(…, key=lambda p: len(p.parts), reverse=True)`. -/
def deepestFirst (paths : List (List Word)) : List (List Word) :=
  paths.mergeSort fun p q => decide (q.length ≤ p.length)

/-- The tree after `uninstall` of a record with these files, and the number
it reports. -/
def uninstallTree (t : PathTree Word β) (files : List Word) : Option (PathTree Word β × ℕ) :=
  (unlinkFiles site t files).bind fun (t, removed) =>
    (site.base t).map fun base =>
      let paths := deepestFirst (site.rglob t base)
      (PathTree.prune paths site.refused t paths, removed)

end Uninstall

/-- A file below the directory that a name of the record leads to. -/
def Recorded (site : Site) (t : PathTree Word β) (base : List Word) (files : List Word)
    (q : List Word) : Prop :=
  q ∈ below base ∧ (∃ content, t.entry q = some (.file content)) ∧
    ∃ relative ∈ files, t.resolve site.limit [] (site.join relative) = some q

variable {site : Site} {t t' : PathTree Word β} {base p q : List Word}

theorem isFileAt_iff : isFileAt t p = true ↔ ∃ content, t.entry p = some (.file content) := by
  rw [isFileAt]
  split
  · rename_i content h
    exact iff_of_true rfl ⟨content, h⟩
  · rename_i h
    exact iff_of_false Bool.false_ne_true fun ⟨content, hcontent⟩ => h content hcontent

theorem mem_below_iff : (base.isPrefixOf q && decide (q ≠ base)) = true ↔ q ∈ below base := by
  simp [below]

/-! ## The recorded files -/

/-- A tree without some files. -/
structure Unlinked (t t' : PathTree Word β) (gone : List (List Word)) : Prop where
  nodup : gone.Nodup
  files : ∀ q ∈ gone, ∃ content, t.entry q = some (.file content)
  absent : ∀ q ∈ gone, t'.entry q = none
  kept : ∀ q, q ∉ gone → t'.entry q = t.entry q

theorem entry_erase_file {content : β} (h : t.entry p = some (.file content)) (q : List Word) :
    (t.erase p).entry q = if q = p then none else t.entry q := by
  have hp : p ≠ [] := by
    rintro rfl
    cases t.root.symm.trans h
  rw [PathTree.entry_erase t hp]
  by_cases heq : q = p
  · rw [if_pos (heq ▸ List.prefix_rfl), if_pos heq]
  · rw [if_neg heq]
    split
    · rename_i hq
      exact (PathTree.entry_below h (fun hdir => by cases hdir) hq fun h => heq h.symm).symm
    · rfl

/-- No link is gone, so every path leads where it led. -/
theorem Unlinked.resolve {gone : List (List Word)} (h : Unlinked t t' gone) (limit : ℕ)
    (hops : List (Hop Word)) : t'.resolve limit [] hops = t.resolve limit [] hops := by
  refine PathTree.resolve_congr (fun q absolute target => ?_) limit [] hops
  by_cases hq : q ∈ gone
  · obtain ⟨content, hfile⟩ := h.files q hq
    rw [h.absent q hq, hfile]
    exact iff_of_false (fun he => by cases he) fun he => by cases he
  · rw [h.kept q hq]

theorem Unlinked.listed {gone : List (List Word)} (h : Unlinked t t' gone)
    {paths : List (List Word)} (hpaths : ∀ q, t.entry q ≠ none → q ∈ paths) :
    ∀ q, t'.entry q ≠ none → q ∈ paths := by
  intro q hq
  by_cases hgone : q ∈ gone
  · exact absurd (h.absent q hgone) hq
  · exact hpaths q (h.kept q hgone ▸ hq)

theorem Unlinked.erase {gone : List (List Word)} (h : Unlinked t t' gone) {content : β}
    (hfile : t'.entry p = some (.file content)) : Unlinked t (t'.erase p) (gone ++ [p]) where
  nodup := by
    refine List.nodup_append.mpr ⟨h.nodup, List.nodup_singleton p, fun q hq q' hq' heq => ?_⟩
    obtain rfl := List.mem_singleton.mp hq'
    rw [heq] at hq
    cases (h.absent _ hq).symm.trans hfile
  files := by
    intro q hq
    rcases List.mem_append.mp hq with hq | hq
    · exact h.files q hq
    · obtain rfl := List.mem_singleton.mp hq
      have hkept : q ∉ gone := fun hgone => by cases (h.absent q hgone).symm.trans hfile
      exact ⟨content, (h.kept q hkept).symm.trans hfile⟩
  absent := by
    intro q hq
    rw [entry_erase_file hfile]
    split
    · rfl
    · rename_i hne
      exact h.absent q
        ((List.mem_append.mp hq).resolve_right fun h => hne (List.mem_singleton.mp h))
  kept := by
    intro q hq
    obtain ⟨hgone, hne⟩ := not_or.mp (fun h => hq (List.mem_append.mpr h))
    rw [entry_erase_file hfile, if_neg fun h => hne (List.mem_singleton.mpr h), h.kept q hgone]

/-- The first loop removes the recorded files, each once. -/
theorem unlinked_unlinkFiles {removed : ℕ} (hbase : site.base t = some base) :
    ∀ {files : List Word}, unlinkFiles site t files = some (t', removed) →
      ∃ gone, Unlinked t t' gone ∧ gone.length = removed ∧
        ∀ q, q ∈ gone ↔ Recorded site t base files q := by
  intro files
  induction files using List.reverseRecOn generalizing t' removed with
  | nil =>
      intro h
      obtain ⟨rfl, rfl⟩ := Prod.mk.inj (Option.some.inj h)
      refine ⟨[], ⟨List.nodup_nil, ?_, ?_, fun _ _ => rfl⟩, rfl, fun q => ?_⟩
      · exact fun q hq => absurd hq List.not_mem_nil
      · exact fun q hq => absurd hq List.not_mem_nil
      · exact iff_of_false List.not_mem_nil fun ⟨_, _, _, hmem, _⟩ => absurd hmem List.not_mem_nil
  | append_singleton files relative ih =>
      intro h
      rw [unlinkFiles, List.foldlM_append] at h
      obtain ⟨⟨t₁, removed₁⟩, hfiles, hlast⟩ := Option.bind_eq_some_iff.mp h
      obtain ⟨gone, hgone, hlength, hmem⟩ := ih hfiles
      have hlast : unlinkOne site (t₁, removed₁) relative = some (t', removed) := by
        simpa only [List.foldlM_cons, List.foldlM_nil, bind_pure] using hlast
      have hbase₁ : site.base t₁ = some base := (hgone.resolve ..).trans hbase
      -- the names that are recorded now
      have hrecorded (q : List Word) : Recorded site t base (files ++ [relative]) q ↔
          Recorded site t base files q ∨
            q ∈ below base ∧ (∃ content, t.entry q = some (.file content))
              ∧ t.resolve site.limit [] (site.join relative) = some q := by
        constructor
        · rintro ⟨hq, hfile, name, hname, hresolve⟩
          rcases List.mem_append.mp hname with hname | hname
          · exact .inl ⟨hq, hfile, name, hname, hresolve⟩
          · obtain rfl := List.mem_singleton.mp hname
            exact .inr ⟨hq, hfile, hresolve⟩
        · rintro (⟨hq, hfile, name, hname, hresolve⟩ | ⟨hq, hfile, hresolve⟩)
          · exact ⟨hq, hfile, name, List.mem_append_left _ hname, hresolve⟩
          · exact ⟨hq, hfile, relative, by simp, hresolve⟩
      rw [unlinkOne, hbase₁, hgone.resolve] at hlast
      cases hresolve : t.resolve site.limit [] (site.join relative) with
      | none =>
          rw [hresolve] at hlast
          cases hlast
      | some target =>
          rw [hresolve] at hlast hrecorded
          dsimp only at hlast
          split at hlast
          · rename_i htest
            obtain ⟨rfl, rfl⟩ := Prod.mk.inj (Option.some.inj hlast)
            rw [Bool.and_eq_true, mem_below_iff] at htest
            obtain ⟨content, hfile⟩ := isFileAt_iff.mp htest.2
            have hnow := hgone.erase hfile
            refine ⟨gone ++ [target], hnow, by simp [hlength], fun q => ?_⟩
            rw [hrecorded, List.mem_append, List.mem_singleton, hmem]
            refine or_congr_right ⟨?_, fun h => (Option.some.inj h.2.2).symm⟩
            rintro rfl
            exact ⟨htest.1, hnow.files q (by simp), rfl⟩
          · rename_i htest
            obtain ⟨rfl, rfl⟩ := Prod.mk.inj (Option.some.inj hlast)
            refine ⟨gone, hgone, hlength, fun q => ?_⟩
            rw [hrecorded, hmem]
            refine (or_iff_left_of_imp ?_).symm
            rintro ⟨hq, hfile, hq'⟩
            obtain rfl := Option.some.inj hq'
            by_contra hnot
            rw [← hmem] at hnot
            refine htest (Bool.and_eq_true_iff.mpr ⟨mem_below_iff.mpr hq, isFileAt_iff.mpr ?_⟩)
            rwa [hgone.kept _ hnot]

/-! ## The directories -/

theorem mem_rglob (hpaths : ∀ q, t.entry q ≠ none → q ∈ site.paths) :
    q ∈ site.rglob t base ↔ q ∈ below base ∧ t.entry q ≠ none := by
  rw [Site.rglob, List.mem_filter, Bool.and_eq_true, mem_below_iff, Option.isSome_iff_ne_none]
  exact and_iff_right_of_imp fun h => hpaths q h.2

theorem pairwise_deepestFirst (paths : List (List Word)) :
    (deepestFirst paths).Pairwise fun p q => q.length ≤ p.length := by
  have hsorted := @List.pairwise_mergeSort _ (fun p q : List Word => decide (q.length ≤ p.length))
    (by intro a b c; simp; omega) (by intro a b; simp; omega) paths
  exact hsorted.imp fun h => of_decide_eq_true h

/-- What keeps a directory: a file that is not recorded, a link, or a
directory that the system does not remove. -/
def Keeps (site : Site) (t : PathTree Word β) (base : List Word) (files : List Word)
    (p : List Word) : Prop :=
  ∃ r e, p <+: r ∧ t.entry r = some e ∧ ¬ Recorded site t base files r ∧
    (e ≠ .dir ∨ site.refused r = true)

/-- **What `uninstall` leaves**, for any record: the files below the package
directory that the record leads to are gone, and their number is reported;
so are the directories there that hold nothing any more; and nothing else is
changed. -/
theorem uninstall_exact {files : List Word} {removed : ℕ} (hbase : site.base t = some base)
    (hpaths : ∀ q, t.entry q ≠ none → q ∈ site.paths)
    (h : uninstallTree site t files = some (t', removed)) :
    (∃ gone : List (List Word), gone.Nodup ∧ gone.length = removed ∧
        ∀ q, q ∈ gone ↔ Recorded site t base files q) ∧
      ∀ q, (Recorded site t base files q → t'.entry q = none) ∧
        (q ∈ below base → t.entry q = some .dir → ¬ Keeps site t base files q →
          t'.entry q = none) ∧
        (¬ Recorded site t base files q →
          (q ∈ below base → t.entry q = some .dir → Keeps site t base files q) →
          t'.entry q = t.entry q) := by
  obtain ⟨⟨t₁, removed₁⟩, hunlinked, hrest⟩ := Option.bind_eq_some_iff.mp h
  obtain ⟨gone, hgone, hlength, hmem⟩ := unlinked_unlinkFiles hbase hunlinked
  have hbase₁ : site.base t₁ = some base := (hgone.resolve ..).trans hbase
  dsimp only at hrest
  rw [hbase₁, Option.map_some] at hrest
  obtain ⟨rfl, rfl⟩ := Prod.mk.inj (Option.some.inj hrest)
  have hlisted (q : List Word) : q ∈ deepestFirst (site.rglob t₁ base) ↔
      q ∈ below base ∧ t₁.entry q ≠ none := by
    rw [deepestFirst, List.mem_mergeSort, mem_rglob (hgone.listed hpaths)]
  have hpruned (q : List Word) := @PathTree.entry_prune _ _ _ site.refused t₁ _ base hlisted
    (pairwise_deepestFirst _) q
  refine ⟨⟨gone, hgone.nodup, hlength, hmem⟩, fun q => ?_⟩
  have hholds (q : List Word) :
      PathTree.Holds site.refused t₁ q ↔ Keeps site t base files q := by
    constructor
    · rintro ⟨r, e, hr, he, hkeeps⟩
      have hnot : r ∉ gone := fun hin => by cases (hgone.absent r hin).symm.trans he
      exact ⟨r, e, hr, (hgone.kept r hnot).symm.trans he, fun hrec => hnot ((hmem r).mpr hrec),
        hkeeps⟩
    · rintro ⟨r, e, hr, he, hrec, hkeeps⟩
      exact ⟨r, e, hr, (hgone.kept r fun hin => hrec ((hmem r).mp hin)).trans he, hkeeps⟩
  obtain ⟨hhollow, hkept⟩ := hpruned q
  refine ⟨fun hrec => ?_, fun hq hdir hnot => ?_, fun hrec hdir => ?_⟩
  · have hnone := hgone.absent q ((hmem q).mpr hrec)
    by_cases hq : q ∈ below base ∧ PathTree.Hollow site.refused t₁ q
    · exact hhollow hq
    · exact (hkept hq).trans hnone
  · refine hhollow ⟨hq, ?_, fun h => hnot ((hholds q).mp h)⟩
    refine (hgone.kept q fun hin => ?_).trans hdir
    obtain ⟨content, hfile⟩ := hgone.files q hin
    cases hdir.symm.trans hfile
  · have hsame := hgone.kept q fun hin => hrec ((hmem q).mp hin)
    refine (hkept ?_).trans hsame
    rintro ⟨hq, hdir₁, hnot⟩
    exact hnot ((hholds q).mpr (hdir hq (hsame.symm.trans hdir₁)))

/-- `/p` with a package `a` of one module and a directory of the cache, and
a directory `b` with a file of the user. -/
def sampleEntries : List (List Word × TreeEntry Word Content) :=
  [(["p".toList], .dir), (["p".toList, "a".toList], .dir),
    (["p".toList, "a".toList, "m.py".toList], .file [1]),
    (["p".toList, "a".toList, "c".toList], .dir), (["p".toList, "b".toList], .dir),
    (["p".toList, "b".toList, "n".toList], .file [2])]

def sampleTree : PathTree Word Content := .ofList sampleEntries (by decide)

def sampleSite : Site where
  directory := ["p".toList]
  limit := 40
  refused _ := false
  paths := [] :: sampleEntries.map Prod.fst

theorem samplePaths : ∀ q, sampleTree.entry q ≠ none → q ∈ sampleSite.paths := by
  intro q hq
  obtain ⟨e, he⟩ := Option.ne_none_iff_exists'.mp hq
  rcases PathTree.entry_ofList he with ⟨rfl, -⟩ | hmem
  · exact List.mem_cons_self ..
  · exact List.mem_cons_of_mem _ (List.mem_map.mpr ⟨_, hmem, rfl⟩)

theorem uninstall_sample : ∃ t', uninstallTree sampleSite sampleTree ["a/m.py".toList]
      = some (t', 1) ∧ t'.entry ["p".toList, "a".toList] = none ∧
        t'.entry ["p".toList, "b".toList] = some .dir := by
  obtain ⟨t', h⟩ : ∃ t', uninstallTree sampleSite sampleTree ["a/m.py".toList] = some (t', 1) :=
    ⟨_, rfl⟩
  have hexact := (uninstall_exact (rfl : sampleSite.base sampleTree = some ["p".toList])
    samplePaths h).2
  refine ⟨t', h, (hexact _).2.1 ⟨by decide, by decide⟩ rfl ?_, ?_⟩
  · rintro ⟨r, e, hr, he, hrecorded, hkeeps⟩
    rcases PathTree.entry_ofList he with ⟨rfl, -⟩ | hmem
    · exact absurd hr (by decide)
    · simp only [sampleEntries, List.mem_cons, Prod.mk.injEq, List.not_mem_nil, or_false] at hmem
      rcases hmem with ⟨rfl, rfl⟩ | ⟨rfl, rfl⟩ | ⟨rfl, rfl⟩ | ⟨rfl, rfl⟩ | ⟨rfl, rfl⟩ | ⟨rfl, rfl⟩
      · exact absurd hr (by decide)
      · simp [sampleSite] at hkeeps
      · exact hrecorded ⟨⟨by decide, by decide⟩, ⟨[1], rfl⟩, _, List.mem_singleton_self _, rfl⟩
      · simp [sampleSite] at hkeeps
      · simp [sampleSite] at hkeeps
      · exact absurd hr (by decide)
  · refine ((hexact _).2.2 ?_ fun _ _ => ⟨["p".toList, "b".toList, "n".toList], .file [2], ?_, rfl,
      ?_, .inl fun h => by cases h⟩).trans rfl
    · rintro ⟨-, ⟨content, hfile⟩, -⟩
      cases hfile
    · exact ⟨["n".toList], rfl⟩
    · rintro ⟨-, -, relative, hrelative, hresolve⟩
      obtain rfl := List.mem_singleton.mp hrelative
      exact absurd (Option.some.inj hresolve) (by decide)

/-! ## Records of `install` -/

/-- The files below the directory. -/
def files (base : List Word) (t : PathTree Word Content) : Tree := fun p =>
  match t.entry (base ++ p.map String.toList) with
  | some (.file content) => some content
  | _ => none

section Refines

variable {t t' : PathTree Word Content}

theorem parts_raw (f : RelName) : parts f.raw.toList = f.path.map String.toList := by
  rw [RelName.path, pathParts, List.filter_map, List.map_map, parts]
  have htext : String.toList ∘ String.ofList = id := by
    funext name
    simp
  rw [htext, List.map_id]
  refine List.filter_congr fun name _ => ?_
  have hempty : String.ofList name = "" ↔ name = [] := by
    rw [← String.toList_inj]
    simp
  have hdot : String.ofList name = "." ↔ name = ['.'] := by
    rw [← String.toList_inj]
    simp
  simp [hempty, hdot]

/-- A safe name is joined with its components. -/
theorem join_raw (f : RelName) :
    site.join f.raw.toList = site.directory.map .into ++ (f.path.map String.toList).map .into := by
  have hsafe := f.safe
  rw [safePath, Bool.and_eq_true, Bool.not_eq_true', Bool.not_eq_true'] at hsafe
  have hrelative : ¬ f.raw.toList.head? = some '/' := by
    have hnot := hsafe.1
    rw [isAbsolute] at hnot
    exact of_decide_eq_false hnot
  have hdots : ".." ∉ f.path := by
    intro hmem
    rw [RelName.path] at hmem
    simp [hmem] at hsafe
  rw [Site.join, if_neg hrelative, parts_raw, List.map_map, List.map_map]
  congr 1
  refine List.map_congr_left fun name hname => if_neg fun hup => hdots ?_
  have heq : name = ".." := String.toList_inj.mp hup
  exact heq ▸ hname

theorem resolve_raw (hbase : site.base t = some base) (hlinks : Linkless (below base) t)
    (f : RelName) :
    t.resolve site.limit [] (site.join f.raw.toList) = some (base ++ f.path.map String.toList) := by
  rw [join_raw]
  exact PathTree.resolve_append_names hbase (hlinks.down _)

theorem base_append_inj {p p' : Path} :
    base ++ p.map String.toList = base ++ p'.map String.toList ↔ p = p' := by
  rw [List.append_cancel_left_eq]
  exact (List.map_injective_iff.mpr fun _ _ h => String.toList_inj.mp h).eq_iff

/-- One file less. -/
theorem files_erase {f : RelName} {content : Content}
    (hfile : t.entry (base ++ f.path.map String.toList) = some (.file content)) :
    files base (t.erase (base ++ f.path.map String.toList))
      = Function.update (files base t) f.path none := by
  funext p
  rw [files, entry_erase_file hfile]
  by_cases heq : p = f.path
  · rw [if_pos (base_append_inj.mpr heq), heq, Function.update_self]
  · rw [if_neg fun h => heq (base_append_inj.mp h), Function.update_of_ne heq, files]

/-- One turn of the first loop. -/
theorem unlinkOne_refines (hbase : site.base t = some base) (hlinks : Linkless (below base) t)
    (f : RelName) (removed : ℕ) :
    ∃ t₁ removed₁ gone, unlinkOne site (t, removed) f.raw.toList = some (t₁, removed₁) ∧
      Unlinked t t₁ gone ∧ files base t₁ = removeFiles (files base t) [f] := by
  have hremoved : removeFiles (files base t) [f]
      = if f.path = [] then files base t else Function.update (files base t) f.path none := rfl
  have hself : Unlinked t t [] :=
    ⟨List.nodup_nil, fun q hq => absurd hq List.not_mem_nil,
      fun q hq => absurd hq List.not_mem_nil, fun _ _ => rfl⟩
  have hbelow : base ++ f.path.map String.toList ∈ below base ↔ f.path ≠ [] := by
    simp [below]
  rw [unlinkOne, resolve_raw hbase hlinks, hbase, hremoved]
  dsimp only
  split
  · rename_i htest
    rw [Bool.and_eq_true, mem_below_iff, hbelow] at htest
    obtain ⟨content, hfile⟩ := isFileAt_iff.mp htest.2
    refine ⟨_, _, [] ++ [base ++ f.path.map String.toList], rfl, hself.erase hfile, ?_⟩
    rw [if_neg htest.1, files_erase hfile]
  · rename_i htest
    refine ⟨t, removed, [], rfl, hself, ?_⟩
    rw [Bool.and_eq_true, mem_below_iff, hbelow, not_and] at htest
    split
    · rfl
    · rename_i hpath
      have hnone : files base t f.path = none := by
        rw [files]
        split
        · rename_i content hfile
          exact absurd (isFileAt_iff.mpr ⟨content, hfile⟩) (htest hpath)
        · rfl
      exact (Function.update_eq_self_iff.mpr hnone.symm).symm

theorem Unlinked.linkless {gone : List (List Word)} (h : Unlinked t t' gone)
    {region : Set (List Word)} (hlinks : Linkless region t) : Linkless region t' := by
  intro q hq e he
  by_cases hgone : q ∈ gone
  · cases (h.absent q hgone).symm.trans he
  · exact hlinks q hq e ((h.kept q hgone).symm.trans he)

theorem unlinkFiles_refines (fs : List RelName) : ∀ {t : PathTree Word Content} (removed : ℕ),
    site.base t = some base → Linkless (below base) t →
    ∃ t₁ removed₁, (fs.map fun f => f.raw.toList).foldlM (unlinkOne site) (t, removed)
        = some (t₁, removed₁) ∧
      files base t₁ = removeFiles (files base t) fs := by
  induction fs with
  | nil => exact fun {t} removed _ _ => ⟨t, removed, rfl, rfl⟩
  | cons f fs ih =>
      intro t removed hbase hlinks
      obtain ⟨t₁, removed₁, gone, hone, hgone, hfiles⟩ :=
        unlinkOne_refines hbase hlinks f removed
      obtain ⟨t₂, removed₂, hrest, hfiles₂⟩ := ih removed₁ ((hgone.resolve ..).trans hbase)
        (hgone.linkless hlinks)
      refine ⟨t₂, removed₂, ?_, ?_⟩
      · rw [List.map_cons, List.foldlM_cons, hone]
        exact hrest
      · rw [hfiles₂, hfiles]
        rfl

/-- The second loop takes no file away. -/
theorem files_prune {paths : List (List Word)} {refused : List Word → Bool}
    (hpaths : ∀ q, q ∈ paths ↔ q ∈ below base ∧ t.entry q ≠ none)
    (hdeep : paths.Pairwise fun p q => q.length ≤ p.length) :
    files base (PathTree.prune paths refused t paths) = files base t := by
  funext p
  obtain ⟨hgone, hkept⟩ := @PathTree.entry_prune _ _ _ refused t _ base hpaths hdeep
    (base ++ p.map String.toList)
  rw [files, files]
  by_cases hollow : base ++ p.map String.toList ∈ below base
      ∧ PathTree.Hollow refused t (base ++ p.map String.toList)
  · rw [hgone hollow, hollow.2.1]
  · rw [hkept hollow]

/-- **Refinement**: for a record as `install` writes it, in a directory
without links, `uninstall` ends, and the files it leaves are those of the
model in which only files exist. -/
theorem uninstall_refines (hbase : site.base t = some base) (hlinks : Linkless (below base) t)
    (hpaths : ∀ q, t.entry q ≠ none → q ∈ site.paths) (fs : List RelName) :
    ∃ t' removed, uninstallTree site t (fs.map fun f => f.raw.toList) = some (t', removed) ∧
      files base t' = removeFiles (files base t) fs := by
  obtain ⟨t₁, removed, hunlinked, hfiles⟩ := unlinkFiles_refines fs 0 hbase hlinks
  obtain ⟨gone, hgone, -, -⟩ := unlinked_unlinkFiles hbase hunlinked
  have hbase₁ : site.base t₁ = some base := (hgone.resolve ..).trans hbase
  have hlisted (q : List Word) : q ∈ deepestFirst (site.rglob t₁ base) ↔
      q ∈ below base ∧ t₁.entry q ≠ none := by
    rw [deepestFirst, List.mem_mergeSort, mem_rglob (hgone.listed hpaths)]
  have hpruned := @files_prune base t₁ _ site.refused hlisted (pairwise_deepestFirst _)
  refine ⟨_, removed, ?_, hpruned.trans hfiles⟩
  rw [uninstallTree, unlinkFiles, hunlinked, Option.bind_some]
  dsimp only
  rw [hbase₁]
  rfl

theorem uninstall_sample_files : ∃ t' removed,
    uninstallTree sampleSite sampleTree ["a/m.py".toList] = some (t', removed) ∧
      files ["p".toList] t' = removeFiles (files ["p".toList] sampleTree) [⟨"a/m.py", by decide⟩] :=
  uninstall_refines rfl (PathTree.linkless_ofList _ (by decide)) samplePaths [⟨"a/m.py", by decide⟩]

end Refines

end UninstallTree

end Zmux
