import Zmux.Runs
import Zmux.ZpipRollback

/-!
# Who owns which file

The database lists the files of every package under the names the wheel
spelled them with. What it says is accounted for (`Accounted`) when every
listed file exists and no file belongs to two packages, where names are
compared by the path they denote: `./x` and `x` are one file.

The state changes by wheels that are committed and packages that are
removed (`Change`). An `install` that succeeds is a run of such changes,
one commit for the package and one for every dependency it pulls in
(`install_changes`).

The collision check and the removal of obsolete files compare the names
as they are spelled. So a commit keeps the accounts precisely when the
wheel spells every file it shares with the database as the database does
(`accounted_commit_iff`). A new spelling for a file of another package
slips through the collision check, and one for a file of the package
itself is unlinked as obsolete right after it is installed.
-/

namespace Zmux

/-! ## Accounts -/

/-- `n` lists the file `f`. -/
def Records (db : Db) (n : Name) (f : RelName) : Prop :=
  ∃ record, db.lookup n = some record ∧ f ∈ record.files

structure Accounted (w : World) : Prop where
  present : ∀ n f, Records w.db n f → (w.user f.path).isSome = true
  single : ∀ n m f g, Records w.db n f → Records w.db m g → f.path = g.path → n = m

theorem accounted_empty {w : World} (hempty : w.db = ∅) : Accounted w := by
  have hnone : ∀ n f, ¬Records w.db n f := by
    rintro n f ⟨record, hlookup, -⟩
    rw [hempty, AList.lookup_empty] at hlookup
    cases hlookup
  exact ⟨fun n f hf => (hnone n f hf).elim, fun n _ f _ hf _ _ => (hnone n f hf).elim⟩

theorem mem_previousFiles {db : Db} {package : Name} {f : RelName} :
    f ∈ previousFiles db package ↔ Records db package f := by
  unfold previousFiles Records
  cases db.lookup package <;> simp

/-! ## Changes -/

inductive Change where
  /-- `uuid4` in `install`. -/
  | transaction
  | commit (env : Env) (channel : String) (stack : List Name) (t : Txn) (package : Name)
      (manifest : Manifest) (new : List Name)
  | remove (package : Name)

/-- The state after a change that succeeds. -/
def change (w : World) : Change → Option World
  | .transaction => some { w with txns := w.txns + 1 }
  | .commit env channel stack t package manifest new =>
    match installWheel env channel stack t package manifest new w with
    | (.installed _, w) => some w
    | (.failed _, _) => none
  | .remove package => if (w.db.lookup package).isSome then some (uninstall package w) else none

/-- `f` is a file of the wheel that the manifest's URL is answered with. -/
def WheelFile (env : Env) (t : Txn) (manifest : Manifest) (f : RelName) : Prop :=
  ∃ response listing members, env.fetch t manifest.url = some response
    ∧ response.archive = some listing ∧ safeMembers listing = .ok members
    ∧ f ∈ members.map Prod.fst

/-- What the wheel and the database both have, they spell alike. -/
def SpeltAlike (w : World) : Change → Prop
  | .commit env _ _ t _ manifest _ => ∀ f, WheelFile env t manifest f →
      ∀ n g, Records w.db n g → g.path = f.path → g = f
  | _ => True

/-- The changes that an `install` with this channel makes: what it commits
it has resolved. -/
def OfInstall (env : Env) (channel : String) : World → Change → Prop
  | _, .transaction => True
  | _, .commit env' channel' _ t package manifest _ => env' = env ∧ channel' = channel ∧
      ∃ version, resolve env t package version channel = .ok manifest
  | _, .remove _ => False

/-! ## A commit -/

/-- The staged files are those of the wheel. -/
theorem mem_stage {env : Env} {t : Txn} {package : Name} {manifest : Manifest} {db : Db}
    {staged : Staged} (h : stage env t package manifest db = .ok staged) (f : RelName) :
    f ∈ staged.files ↔ WheelFile env t manifest f := by
  obtain ⟨response, hdownload, hextract, -, -⟩ := stage_ok h
  obtain ⟨hfetch, -⟩ := download_ok hdownload
  obtain ⟨listing, members, harchive, hmembers, hfiles, -⟩ := extract_members hextract
  rw [hfiles]
  refine ⟨fun hf => ⟨response, listing, members, hfetch, harchive, hmembers, hf⟩, ?_⟩
  rintro ⟨response', listing', members', hfetch', harchive', hmembers', hf⟩
  obtain rfl := Option.some.inj (hfetch.symm.trans hfetch')
  obtain rfl := Option.some.inj (harchive.symm.trans harchive')
  obtain rfl := Except.ok.inj (hmembers.symm.trans hmembers')
  exact hf

/-- The collision check, as far as it goes. -/
theorem not_records_of_collisions {db : Db} {package n : Name} {files : List RelName}
    {f : RelName} (h : collisions db package files = []) (hf : f ∈ files) (hn : n ≠ package) :
    ¬Records db n f := by
  rintro ⟨record, hlookup, hrecord⟩
  have howned : (f, n) ∈ owners db package := by
    refine List.mem_flatMap.mpr ⟨⟨n, record⟩, ?_, List.mem_map.mpr ⟨f, hrecord, rfl⟩⟩
    exact List.mem_filter.mpr ⟨AList.mem_lookup_iff.mp hlookup, by simpa using hn⟩
  have hcollides : f.raw ∈ collisions db package files := by
    refine (List.mem_insertionSort _).mpr (List.mem_map_of_mem (List.mem_filter.mpr ⟨hf, ?_⟩))
    exact List.any_eq_true.mpr ⟨(f, n), howned, by simp⟩
  rw [h] at hcollides
  cases hcollides

theorem commitTree_nodup {env : Env} {t : Txn} {package : Name} {db : Db} {staged : Staged}
    {user user' : Tree} (hstaged : AllStaged staged.staging staged.files)
    (h : commitTree env t package db staged user = (user', none)) :
    (staged.files.map RelName.path).Nodup := by
  rcases commitTree_cases env t package db user hstaged with
    ⟨done, f, rest, c, e, -, -, -, -, hcommit⟩ | ⟨hpass, -⟩
  · rw [hcommit] at h
    cases h
  · exact nodup_of_passes hpass

/-- What a commit that succeeds has checked and what it leaves. -/
theorem change_commit {env : Env} {channel : String} {stack : List Name} {t : Txn}
    {package : Name} {manifest : Manifest} {new : List Name} {w w' : World}
    (h : change w (.commit env channel stack t package manifest new) = some w') :
    ∃ staged : Staged, w' = withWheel env channel stack t package manifest staged w
      ∧ stage env t package manifest w.db = .ok staged ∧ (staged.files.map RelName.path).Nodup
      ∧ (∀ f, f ∈ staged.files ↔ WheelFile env t manifest f)
      ∧ ∀ f ∈ staged.files, ∀ n ≠ package, ¬Records w.db n f := by
  rcases installWheel_cases env channel stack t package manifest new w with
    ⟨e, user, heq, -⟩ | ⟨staged, r, hstage, heq⟩
  · rw [change, heq] at h
    cases h
  · rw [change, heq] at h
    obtain rfl := Option.some.inj h
    have hstaged := stage_allStaged hstage
    obtain ⟨-, -, -, hcollisions, -⟩ := stage_ok hstage
    refine ⟨staged, rfl, hstage, ?_, mem_stage hstage, fun f hf n hn =>
      not_records_of_collisions hcollisions hf hn⟩
    cases hcommit : commitTree env t package w.db staged w.user with
    | mk user err =>
        cases err with
        | none => exact commitTree_nodup hstaged hcommit
        | some e => simp [installWheel, hstage, hcommit] at heq

section WithWheel

variable {env : Env} {channel : String} {stack : List Name} {t : Txn} {package : Name}
  {manifest : Manifest} {staged : Staged} {w : World}

theorem records_withWheel_self {f : RelName} :
    Records (withWheel env channel stack t package manifest staged w).db package f
      ↔ f ∈ staged.files := by
  simp only [Records, withWheel, AList.lookup_insert, Option.some.injEq, exists_eq_left',
    newRecord, List.mem_insertionSort]

theorem records_withWheel_ne {n : Name} {f : RelName} (hn : n ≠ package) :
    Records (withWheel env channel stack t package manifest staged w).db n f
      ↔ Records w.db n f := by
  simp only [Records, withWheel, AList.lookup_insert_ne hn]

/-- The obsolete files are those of the previous version that the wheel
does not spell. -/
theorem mem_obsoleteFiles {f : RelName} :
    f ∈ obsoleteFiles env t (previousFiles w.db package) staged.files
      ↔ Records w.db package f ∧ f ∉ staged.files := by
  rw [obsoleteFiles, (env.order_perm t _).mem_iff, List.mem_filter, List.mem_dedup,
    mem_previousFiles, decide_eq_true_eq]

theorem withWheel_tree : (withWheel env channel stack t package manifest staged w).user
    = erased (patched w.user staged)
        (obsoleteFiles env t (previousFiles w.db package) staged.files) := rfl

/-- A path is there after the commit if it is a file of the wheel or was
there before, unless an obsolete file denotes it. -/
theorem withWheel_present {p : Path} (hstaged : AllStaged staged.staging staged.files)
    (hthere : p ∈ staged.files.map RelName.path ∨ (w.user p).isSome = true)
    (hobsolete : ∀ o, Records w.db package o → o ∉ staged.files → o.path ≠ p) :
    ((withWheel env channel stack t package manifest staged w).user p).isSome = true := by
  have hgone : p ∉ (obsoleteFiles env t (previousFiles w.db package)
      staged.files).map RelName.path := by
    intro hmem
    obtain ⟨o, ho, hop⟩ := List.mem_map.mp hmem
    obtain ⟨hrecord, hnew⟩ := mem_obsoleteFiles.mp ho
    exact hobsolete o hrecord hnew hop
  rw [withWheel_tree, erased, overlay_notMem hgone, patched]
  by_cases hmem : p ∈ staged.files.map RelName.path
  · rw [overlay_mem hmem]
    obtain ⟨f, hf, rfl⟩ := List.mem_map.mp hmem
    exact hstaged f hf
  · rw [overlay_notMem hmem]
    exact hthere.resolve_left hmem

theorem withWheel_obsolete {o : RelName} (ho : Records w.db package o)
    (hnew : o ∉ staged.files) :
    (withWheel env channel stack t package manifest staged w).user o.path = none := by
  rw [withWheel_tree, erased,
    overlay_mem (List.mem_map_of_mem (mem_obsoleteFiles.mpr ⟨ho, hnew⟩))]

end WithWheel

/-- What is recorded after a commit is of its wheel, or was recorded before. -/
theorem records_commit {env : Env} {channel : String} {stack : List Name} {t : Txn}
    {package n : Name} {manifest : Manifest} {new : List Name} {w w' : World} {f : RelName}
    (hcommit : change w (.commit env channel stack t package manifest new) = some w')
    (hf : Records w'.db n f) : WheelFile env t manifest f ∨ Records w.db n f := by
  obtain ⟨staged, rfl, -, -, hfiles, -⟩ := change_commit hcommit
  by_cases hn : n = package
  · subst hn
    exact Or.inl ((hfiles f).mp (records_withWheel_self.mp hf))
  · exact Or.inr ((records_withWheel_ne hn).mp hf)

/-- **A commit** keeps the accounts, and the files it has just installed,
precisely when the wheel spells shared files as the database does. -/
theorem accounted_commit_iff {env : Env} {channel : String} {stack : List Name} {t : Txn}
    {package : Name} {manifest : Manifest} {new : List Name} {w w' : World} (h : Accounted w)
    (hcommit : change w (.commit env channel stack t package manifest new) = some w') :
    (Accounted w' ∧ ∀ f, WheelFile env t manifest f → (w'.user f.path).isSome = true)
      ↔ SpeltAlike w (.commit env channel stack t package manifest new) := by
  obtain ⟨staged, rfl, hstage, hnodup, hfiles, hfree⟩ := change_commit hcommit
  have hstaged := stage_allStaged hstage
  constructor
  · rintro ⟨haccounted, hinstalled⟩ f hf n g hg hpath
    by_cases hn : n = package
    · subst hn
      -- an old spelling that the wheel does not repeat takes the file with it
      have hkept : g ∈ staged.files := by
        by_contra hnew
        have hgone := hinstalled f hf
        rw [← hpath, withWheel_obsolete hg hnew] at hgone
        cases hgone
      exact List.inj_on_of_nodup_map hnodup hkept ((hfiles f).mpr hf) hpath
    · exact (hn (haccounted.single n package g f ((records_withWheel_ne hn).mpr hg)
        (records_withWheel_self.mpr ((hfiles f).mpr hf)) hpath)).elim
  · intro halike
    have hinstalled : ∀ f ∈ staged.files,
        ((withWheel env channel stack t package manifest staged w).user f.path).isSome = true := by
      intro f hf
      refine withWheel_present hstaged (Or.inl (List.mem_map_of_mem hf)) fun o ho hnew hop => ?_
      exact hnew (halike f ((hfiles f).mp hf) package o ho hop ▸ hf)
    -- another package's file is neither in the wheel nor obsolete
    have hapart : ∀ n ≠ package, ∀ f ∈ staged.files, ∀ g, Records w.db n g →
        f.path ≠ g.path := by
      intro n hn f hf g hg hpath
      have heq := halike f ((hfiles f).mp hf) n g hg hpath.symm
      exact hfree f hf n hn (heq ▸ hg)
    refine ⟨⟨fun n f hf => ?_, fun n m f g hf hg hpath => ?_⟩, fun f hf =>
      hinstalled f ((hfiles f).mpr hf)⟩
    · by_cases hn : n = package
      · subst hn
        exact hinstalled f (records_withWheel_self.mp hf)
      · rw [records_withWheel_ne hn] at hf
        refine withWheel_present hstaged (Or.inr (h.present n f hf)) fun o ho _ hop => ?_
        exact hn (h.single n package f o hf ho hop.symm)
    · by_cases hn : n = package
      · by_cases hm : m = package
        · rw [hn, hm]
        · subst hn
          rw [records_withWheel_ne hm] at hg
          exact (hapart m hm f (records_withWheel_self.mp hf) g hg hpath).elim
      · rw [records_withWheel_ne hn] at hf
        by_cases hm : m = package
        · subst hm
          exact (hapart n hn g (records_withWheel_self.mp hg) f hf hpath.symm).elim
        · rw [records_withWheel_ne hm] at hg
          exact h.single n m f g hf hg hpath

/-! ## A removal -/

theorem removeFiles_of_notMem : ∀ {fs : List RelName} {user : Tree} {p : Path},
    p ∉ fs.map RelName.path → removeFiles user fs p = user p
  | [], _, _, _ => rfl
  | f :: fs, user, p, h => by
      rw [List.map_cons, List.mem_cons, not_or] at h
      rw [removeFiles, removeFiles_of_notMem h.2]
      split
      · rfl
      · exact Function.update_of_ne h.1 ..

/-- `uninstall` touches the files the package lists and no others. -/
theorem uninstall_touches {package : Name} {w : World} {p : Path}
    (h : (uninstall package w).user p ≠ w.user p) : ∃ f, Records w.db package f ∧ f.path = p := by
  rw [uninstall] at h
  split at h
  · exact (h rfl).elim
  · rename_i record hlookup
    by_contra hnone
    refine h (removeFiles_of_notMem fun hmem => hnone ?_)
    obtain ⟨f, hf, hpath⟩ := List.mem_map.mp hmem
    exact ⟨f, ⟨record, hlookup, hf⟩, hpath⟩

theorem records_uninstall {package n : Name} {w : World} {f : RelName}
    (h : Records (uninstall package w).db n f) : n ≠ package ∧ Records w.db n f := by
  obtain ⟨record, hlookup, hf⟩ := h
  have hn : n ≠ package := by
    rintro rfl
    rw [uninstall_lookup_self] at hlookup
    cases hlookup
  rw [uninstall_lookup_ne hn] at hlookup
  exact ⟨hn, record, hlookup, hf⟩

theorem accounted_uninstall {package : Name} {w : World} (h : Accounted w) :
    Accounted (uninstall package w) where
  present n f hf := by
    obtain ⟨hn, hrecord⟩ := records_uninstall hf
    by_contra hgone
    have htouched : (uninstall package w).user f.path ≠ w.user f.path := fun heq =>
      hgone (heq ▸ h.present n f hrecord)
    obtain ⟨g, hg, hpath⟩ := uninstall_touches htouched
    exact hn (h.single n package f g hrecord hg hpath.symm)
  single n m f g hf hg :=
    h.single n m f g (records_uninstall hf).2 (records_uninstall hg).2

theorem change_remove {package : Name} {w w' : World} (h : change w (.remove package) = some w') :
    w' = uninstall package w := by
  rw [change] at h
  split at h
  · exact (Option.some.inj h).symm
  · cases h

/-! ## Runs -/

theorem accounted_change {w w' : World} {c : Change} (h : Accounted w) (halike : SpeltAlike w c)
    (hchange : change w c = some w') : Accounted w' := by
  cases c with
  | transaction =>
      obtain rfl := Option.some.inj hchange
      exact ⟨h.present, h.single⟩
  | commit env channel stack t package manifest new =>
      exact ((accounted_commit_iff h hchange).mpr halike).1
  | remove package =>
      rw [change_remove hchange]
      exact accounted_uninstall h

/-- **An install** that succeeds is a run of changes: those of the
dependencies it pulls in, and last the commit of its own wheel. -/
theorem install_changes {env : Env} {channel : String} :
    ∀ {fuel : Nat} {stack : List Name} {name : String} {version : Option String}
      {w w' : World} {r : Installed},
      install env channel fuel stack name version w = some (.installed r, w') →
      ∃ package manifest new w₁, canonicalize name = some package
        ∧ resolve env w.txns package version channel = .ok manifest
        ∧ Reach change (OfInstall env channel) w w₁
        ∧ change w₁ (.commit env channel stack w.txns package manifest new) = some w'
  | 0, _, _, _, _, _, _, h => by rw [install] at h; cases h
  | fuel + 1, stack, name, version, w, w', r, h => by
      rcases install_cases h with ⟨r, hr, -⟩ | ⟨package, hname, -, ⟨r, hr, -⟩ | hrun⟩
      · cases hr
      · cases hr
      obtain ⟨manifest, err, new, w₁, hresolve, hloop, ⟨e, r', -, hr, -⟩ | ⟨rfl, hwheel⟩⟩ := hrun
      · cases hr
      have hturn : ∀ pre r post s s', manifestRequirements env.packaging manifest
            = pre ++ r :: post → Reach change (OfInstall env channel) w s.2 →
          Turn env.packaging (install env channel fuel (stack ++ [package])) w.db r s s' →
          Reach change (OfInstall env channel) w s'.2 := by
        intro pre r post s s' _ hreach hturn
        cases hturn with
        | kept => exact hreach
        | pulled _ _ hinstall =>
            obtain ⟨_, _, _, w₂, -, hresolve, hdependencies, hcommit⟩ := install_changes hinstall
            refine .next (hreach.trans hdependencies) ?_ hcommit
            exact ⟨rfl, rfl, _, hresolve⟩
      have hbegun : Reach change (OfInstall env channel) w { w with txns := w.txns + 1 } :=
        .next (a := .transaction) .start trivial rfl
      rcases installDependencies_rule
          (fun _ s => Reach change (OfInstall env channel) w s.2) hturn
          (List.nil_append _).symm hbegun hloop with ⟨-, hreach⟩ | ⟨e, -, -, -, -, he, -⟩
      · refine ⟨package, manifest, new, w₁, hname, hresolve, hreach, ?_⟩
        rw [change, hwheel]
      · cases he

/-- **Ownership.** From an empty database, as long as wheels spell what
they share with the database alike, the database accounts for its files;
a commit keeps that, and what it installs, only then; and a removal
touches only files that no other package lists. -/
theorem ownership_kept {w₀ w : World} (hempty : w₀.db = ∅)
    (hrun : Reach change SpeltAlike w₀ w) :
    Accounted w
    ∧ (∀ env channel stack t package manifest new w',
        change w (.commit env channel stack t package manifest new) = some w' →
        ((Accounted w' ∧ ∀ f, WheelFile env t manifest f → (w'.user f.path).isSome = true)
          ↔ SpeltAlike w (.commit env channel stack t package manifest new)))
    ∧ (∀ package w', change w (.remove package) = some w' → ∀ p, w'.user p ≠ w.user p →
        (∃ f, Records w.db package f ∧ f.path = p)
          ∧ ∀ n g, Records w.db n g → g.path = p → n = package)
    ∧ ∀ env channel fuel stack name version r w',
        install env channel fuel stack name version w = some (.installed r, w') →
        ∃ package manifest new w₁, canonicalize name = some package
          ∧ resolve env w.txns package version channel = .ok manifest
          ∧ Reach change (OfInstall env channel) w w₁
          ∧ change w₁ (.commit env channel stack w.txns package manifest new) = some w' := by
  have haccounted : Accounted w := hrun.invariant Accounted (accounted_empty hempty)
    fun s c s' hs halike hchange => accounted_change hs halike hchange
  refine ⟨haccounted, fun _ _ _ _ _ _ _ _ hcommit => accounted_commit_iff haccounted hcommit,
    fun package w' hremove p hp => ?_, fun _ _ _ _ _ _ _ _ h => install_changes h⟩
  rw [change_remove hremove] at hp
  obtain ⟨f, hf, hpath⟩ := uninstall_touches hp
  refine ⟨⟨f, hf, hpath⟩, fun n g hg hgp => ?_⟩
  exact haccounted.single n package g f hg hf (hgp.trans hpath.symm)

/-! ## An upgrade that changes a spelling

Transaction 0 fetches a wheel with `./x.py`, every later one a wheel with
`x.py`. -/

def respeltWheel (file : String) : List Member :=
  [⟨file, 1, [1]⟩, ⟨"d.dist-info/WHEEL", 0, []⟩, ⟨"d.dist-info/RECORD", 0, []⟩]

def respeltEnv : Env :=
  { demoEnv [] with
    fetch := fun t _ =>
      some ⟨1, 1, demoDigest, some (respeltWheel (if t = 0 then "./x.py" else "x.py"))⟩ }

/-- The upgrade succeeds, lists `x.py`, and has just deleted it. -/
theorem upgrade_deletes_installed_file :
    ((install respeltEnv "stable" 1 [] "demo" none emptyWorld).bind fun first =>
      (install respeltEnv "stable" 1 [] "demo" none first.2).map fun second =>
        (first.1.ok, second.1.ok,
          (second.2.db.lookup "demo").any fun record => "x.py" ∈ record.files.map RelName.raw,
          second.2.user ["x.py"]))
      = some (true, true, true, none) := by
  decide +kernel

/-- Every wheel has `./x.py`. -/
def dottedEnv : Env :=
  { demoEnv [] with
    fetch := fun _ _ => some ⟨1, 1, demoDigest, some (respeltWheel "./x.py")⟩ }

theorem wheelFile_dotted {t t' : Txn} {manifest manifest' : Manifest} {f g : RelName}
    (hf : WheelFile dottedEnv t manifest f) (hg : WheelFile dottedEnv t' manifest' g)
    (hpath : g.path = f.path) : g = f := by
  have hspelt : ((((safeMembers (respeltWheel "./x.py")).toOption.getD []).map
      Prod.fst).map RelName.path).Nodup := by
    decide +kernel
  obtain ⟨response, listing, members, hresponse, hlisting, hmembers, hf⟩ := hf
  obtain ⟨response', listing', members', hresponse', hlisting', hmembers', hg⟩ := hg
  obtain rfl := Option.some.inj hresponse
  obtain rfl := Option.some.inj hresponse'
  obtain rfl := Option.some.inj hlisting
  obtain rfl := Option.some.inj hlisting'
  obtain rfl := Except.ok.inj (hmembers.symm.trans hmembers')
  rw [hmembers] at hspelt
  exact List.inj_on_of_nodup_map hspelt hg hf hpath

/-- Installing `demo` and upgrading it with a wheel that spells alike. -/
theorem ownership_kept_demo : ∃ w f, Reach change SpeltAlike emptyWorld w
    ∧ Records w.db "demo" f ∧ f.raw = "./x.py" ∧ (w.user f.path).isSome = true
    ∧ Accounted w := by
  have hnone : ∀ n g, ¬Records emptyWorld.db n g := by
    rintro n g ⟨record, hlookup, -⟩
    cases hlookup
  obtain ⟨w₁, hfirst⟩ := Option.isSome_iff_exists.mp
    (show (change emptyWorld (.commit dottedEnv "stable" [] 0 "demo" demoManifest [])).isSome
      = true by decide +kernel)
  have hinstalled : Reach change SpeltAlike emptyWorld w₁ :=
    .next .start (by exact fun f _ n g hg => (hnone n g hg).elim) hfirst
  have hrecorded : ∀ n g, Records w₁.db n g → WheelFile dottedEnv 0 demoManifest g :=
    fun n g hg => (records_commit hfirst hg).resolve_right (hnone n g)
  obtain ⟨w₂, hsecond⟩ : ∃ w₂,
      change w₁ (.commit dottedEnv "stable" [] 1 "demo" demoManifest []) = some w₂ := by
    have hboth : ((change emptyWorld (.commit dottedEnv "stable" [] 0 "demo" demoManifest [])).bind
        fun w => change w (.commit dottedEnv "stable" [] 1 "demo" demoManifest [])).isSome
        = true := by
      decide +kernel
    rw [hfirst] at hboth
    exact Option.isSome_iff_exists.mp hboth
  have hrun : Reach change SpeltAlike emptyWorld w₂ := by
    refine .next hinstalled ?_ hsecond
    intro f hf n g hg hpath
    exact wheelFile_dotted hf (hrecorded n g hg) hpath
  have haccounted := (ownership_kept rfl hrun).1
  have hlisted : Records w₂.db "demo" ⟨"./x.py", by decide +kernel⟩ := by
    obtain ⟨staged, rfl, -, -, hfiles, -⟩ := change_commit hsecond
    refine records_withWheel_self.mpr ((hfiles _).mpr ⟨_, _, _, rfl, rfl, rfl, ?_⟩)
    exact List.mem_cons_self
  exact ⟨w₂, _, hrun, hlisted, rfl, haccounted.present _ _ hlisted, haccounted⟩

end Zmux
