import Mathlib.Data.List.Induction
import Zmux.Scan
import Zmux.ZpipInstall

/-!
# The commit and its undo

The commit loop writes the staged tree over the package directory file by
file and keeps what it overwrites in the backup tree. As long as no file
name denotes a path that is committed already, the state after a prefix
`done` of the files is given in closed form by overlays (`Commit.after`),
and undoing it restores the directory.

Two things break the undo, and nothing else does:

- a later member that spells a committed path differently overwrites the
  backup of that path with the new content, or with the part of it that a
  raising copy has written, before its own source turns out to be missing
  (`BackupLost`);
- files of the previous version are unlinked without a backup, so an
  error after that loses them (`ObsoleteLost`).

`commitTree_restores_iff` says so for every fault pattern.
-/

namespace Zmux

/-! ## Closed form of the loop -/

/-- The commit state after `done`, whose members have pairwise distinct paths. -/
def Commit.after (user staging : Tree) (done : List RelName) : Commit where
  user := overlay staging user (done.map RelName.path)
  staging := overlay (fun _ => none) staging (done.map RelName.path)
  backup := overlay user (fun _ => none) (done.map RelName.path)
  committed := done

theorem Commit.after_user (user staging : Tree) (done : List RelName) :
    (Commit.after user staging done).user = overlay staging user (done.map RelName.path) := rfl

theorem Commit.after_staging (user staging : Tree) (done : List RelName) :
    (Commit.after user staging done).staging
      = overlay (fun _ => none) staging (done.map RelName.path) := rfl

theorem Commit.after_backup (user staging : Tree) (done : List RelName) :
    (Commit.after user staging done).backup
      = overlay user (fun _ => none) (done.map RelName.path) := rfl

/-- The turn of the commit loop for `f` goes through after `done`. -/
def FilePasses (fault : Op → Bool) (user : Tree) (done : List RelName) (f : RelName) : Prop :=
  f.path ∉ done.map RelName.path
    ∧ ((user f.path).isSome = true → fault (.backupCopy f) = false)
    ∧ fault (.makeParent f) = false ∧ fault (.replace f) = false

theorem backupOf_copied {raises : Bool} {copied : Option ℕ} {content saved : Option Content}
    (h : content.isSome = true → raises = false) :
    backupOf raises copied content saved = content.or saved := by
  cases content with
  | none => rfl
  | some content => rw [backupOf, h rfl]; rfl

theorem commitFile_passes {fault : Op → Bool} (copied : RelName → Option ℕ)
    {user staging : Tree} {done : List RelName} {f : RelName}
    (hsrc : (staging f.path).isSome = true) (h : FilePasses fault user done f) :
    commitFile fault copied (Commit.after user staging done) f
      = (Commit.after user staging (done ++ [f]), none) := by
  obtain ⟨hnew, hcopy, hparent, hreplace⟩ := h
  have huser : (Commit.after user staging done).user f.path = user f.path := by
    rw [Commit.after_user, overlay_notMem hnew]
  have hstaging : (Commit.after user staging done).staging f.path = staging f.path := by
    rw [Commit.after_staging, overlay_notMem hnew]
  have hcopy' : ((user f.path).isSome && fault (.backupCopy f)) = false := by
    cases hu : (user f.path).isSome with
    | true => simp [hcopy hu]
    | false => rfl
  have hbackup : Function.update (Commit.after user staging done).backup f.path
        (backupOf (fault (.backupCopy f)) (copied f) (user f.path)
          ((Commit.after user staging done).backup f.path))
      = (Commit.after user staging (done ++ [f])).backup := by
    have hsaved : (Commit.after user staging done).backup f.path = none := by
      rw [Commit.after_backup, overlay_notMem hnew]
    rw [backupOf_copied hcopy, hsaved, Option.or_none]
    simp only [Commit.after, List.map_append, List.map_cons, List.map_nil, overlay_snoc]
  have hmissing : (fault (.replace f) || (staging f.path).isNone) = false := by
    simp [hreplace, Option.isNone_eq_false_iff.mpr hsrc]
  simp only [commitFile, huser, hstaging, hcopy', hbackup, hparent, hmissing,
    Bool.false_eq_true, if_false]
  simp only [Commit.after, List.map_append, List.map_cons, List.map_nil, overlay_snoc]

/-! ## The undo -/

/-- The rollback reads the committed paths from the backup. -/
theorem rollback_eq_overlay : ∀ (done : List RelName) (user backup : Tree),
    (done.map RelName.path).Nodup →
      rollback done user backup = overlay backup user (done.map RelName.path)
  | [], user, backup, _ => by simp [rollback]
  | f :: fs, user, backup, hnodup => by
      rw [List.map_cons, List.nodup_cons] at hnodup
      obtain ⟨hf, hfs⟩ := hnodup
      have hmoved : overlay (Function.update backup f.path none)
          (Function.update user f.path (backup f.path)) (fs.map RelName.path)
          = overlay backup user ((f :: fs).map RelName.path) := by
        funext p
        by_cases hp : p = f.path
        · subst hp
          rw [overlay_notMem hf, Function.update_self, overlay_mem (by simp)]
        · by_cases hmem : p ∈ fs.map RelName.path
          · rw [overlay_mem hmem, overlay_mem (by simp [hmem]), Function.update_of_ne hp]
          · have hmem' : p ∉ (f :: fs).map RelName.path := by
              rw [List.map_cons, List.mem_cons]
              exact fun h => h.elim hp hmem
            rw [overlay_notMem hmem, overlay_notMem hmem', Function.update_of_ne hp]
      rw [← hmoved, rollback]
      cases hb : backup f.path with
      | some saved => exact rollback_eq_overlay fs _ _ hfs
      | none =>
          have hself : Function.update backup f.path none = backup :=
            Function.update_eq_self_iff.mpr hb.symm
          rw [hself]
          exact rollback_eq_overlay fs _ _ hfs

/-- When the undo of `done` gives `base` back. -/
theorem rollback_eq_iff {done : List RelName} {user backup base : Tree}
    (hnodup : (done.map RelName.path).Nodup) :
    rollback done.reverse user backup = base ↔
      (∀ p ∈ done.map RelName.path, backup p = base p)
        ∧ ∀ p, p ∉ done.map RelName.path → user p = base p := by
  rw [rollback_eq_overlay _ _ _ (by rwa [List.map_reverse, List.nodup_reverse]),
    overlay_eq_iff]
  simp

/-! ## Where the commit loop stops -/

theorem nodup_of_passes {fault : Op → Bool} {user : Tree} {done : List RelName}
    (h : Passes (FilePasses fault user) done) : (done.map RelName.path).Nodup := by
  induction done using List.reverseRecOn with
  | nil => simp
  | append_singleton done f ih =>
      have hnew : f.path ∉ done.map RelName.path := h.next.1
      rw [List.map_append, List.nodup_append]
      refine ⟨ih h.prefix, by simp, ?_⟩
      intro p hp q hq hpq
      rw [List.map_cons, List.map_nil, List.mem_singleton] at hq
      exact hnew (hq ▸ hpq ▸ hp)

/-- Every file of the wheel was extracted. -/
def AllStaged (staging : Tree) (files : List RelName) : Prop :=
  ∀ f ∈ files, (staging f.path).isSome = true

/-- Undoing `done` is exact precisely when the backup is right on its paths. -/
theorem rollback_after_iff {user staging backup : Tree} {done : List RelName}
    (hnodup : (done.map RelName.path).Nodup) :
    rollback done.reverse (Commit.after user staging done).user backup = user ↔
      ∀ p ∈ done.map RelName.path, backup p = user p := by
  rw [rollback_eq_iff hnodup]
  exact and_iff_left fun p hp => by rw [Commit.after_user, overlay_notMem hp]

/-- The turn raises when its source is missing or one of its operations
is faulty, and leaves the package directory and the list alone. -/
theorem commitFile_raises (fault : Op → Bool) (copied : RelName → Option ℕ) (c : Commit)
    (f : RelName)
    (h : (c.staging f.path).isNone = true ∨ ((c.user f.path).isSome && fault (.backupCopy f)) = true
      ∨ fault (.makeParent f) = true ∨ fault (.replace f) = true) :
    ∃ e, commitFile fault copied c f
      = ({ c with
          backup := Function.update c.backup f.path <|
            backupOf (fault (.backupCopy f)) (copied f) (c.user f.path) (c.backup f.path) },
          some e) := by
  simp only [commitFile]
  split
  · exact ⟨_, rfl⟩
  · rename_i hcopy
    split
    · exact ⟨_, rfl⟩
    · rename_i hparent
      rw [if_pos]
      · exact ⟨_, rfl⟩
      · rw [Bool.or_eq_true]
        rcases h with h | h | h | h
        · exact Or.inr h
        · exact absurd h hcopy
        · exact absurd h hparent
        · exact Or.inl h

/-- The backup of the path of `f` once `f` has come as the second spelling
of a committed path: the target has the wheel's content by then. -/
def aliasBackup (fault : Op → Bool) (copied : RelName → Option ℕ) (user staging : Tree)
    (f : RelName) : Option Content :=
  backupOf (fault (.backupCopy f)) (copied f) (staging f.path) (user f.path)

/-- A turn that does not go through raises, and the undo is exact but for
the backup of a committed path that was overwritten in this turn. -/
theorem commitFile_halts {fault : Op → Bool} (copied : RelName → Option ℕ) {user staging : Tree}
    {done : List RelName} {f : RelName} (hnodup : (done.map RelName.path).Nodup)
    (h : ¬FilePasses fault user done f) :
    ∃ c e, commitFile fault copied (Commit.after user staging done) f = (c, some e)
      ∧ rollback c.committed.reverse c.user c.backup
        = if f.path ∈ done.map RelName.path then
            Function.update user f.path (aliasBackup fault copied user staging f)
          else user := by
  by_cases hmem : f.path ∈ done.map RelName.path
  · -- the alias of a committed file: its source has been moved away
    have hsrc : ((Commit.after user staging done).staging f.path).isNone = true := by
      rw [Commit.after_staging, overlay_mem hmem]; rfl
    have huser : (Commit.after user staging done).user f.path = staging f.path := by
      rw [Commit.after_user, overlay_mem hmem]
    have hsaved : (Commit.after user staging done).backup f.path = user f.path := by
      rw [Commit.after_backup, overlay_mem hmem]
    obtain ⟨e, he⟩ := commitFile_raises fault copied _ f (Or.inl hsrc)
    refine ⟨_, e, he, ?_⟩
    rw [if_pos hmem, aliasBackup]
    dsimp only
    rw [huser, hsaved]
    refine (rollback_eq_iff hnodup).mpr ⟨fun p hp => ?_, fun p hp => ?_⟩
    · by_cases hpf : p = f.path
      · rw [hpf, Function.update_self, Function.update_self]
      · rw [Function.update_of_ne hpf, Function.update_of_ne hpf, Commit.after_backup,
          overlay_mem hp]
    · have hpf : p ≠ f.path := fun hpf => hp (hpf ▸ hmem)
      rw [Function.update_of_ne hpf, Commit.after_user, overlay_notMem hp]
  · have huser : (Commit.after user staging done).user f.path = user f.path := by
      rw [Commit.after_user, overlay_notMem hmem]
    have hfault : ((user f.path).isSome && fault (.backupCopy f)) = true
        ∨ fault (.makeParent f) = true ∨ fault (.replace f) = true := by
      by_contra hno
      simp only [not_or, Bool.and_eq_true, not_and, Bool.not_eq_true] at hno
      exact h ⟨hmem, hno.1, hno.2⟩
    obtain ⟨e, he⟩ := commitFile_raises fault copied
      (Commit.after user staging done) f (Or.inr (by rwa [huser]))
    refine ⟨_, e, he, ?_⟩
    rw [if_neg hmem]
    refine (rollback_after_iff hnodup).mpr fun p hp => ?_
    have hpf : p ≠ f.path := fun hpf => hmem (hpf ▸ hp)
    dsimp only
    rw [Function.update_of_ne hpf, Commit.after_backup, overlay_mem hp]

/-- The loop goes on until the end of the list or to the first turn that
does not go through, whose result it returns. -/
theorem commitFiles_stops (fault : Op → Bool) (copied : RelName → Option ℕ)
    (user staging : Tree) :
    ∀ (files done : List RelName), AllStaged staging (done ++ files) →
      Passes (FilePasses fault user) done →
      ∃ passed rest, files = passed ++ rest
        ∧ Passes (FilePasses fault user) (done ++ passed)
        ∧ (rest = [] ∧ commitFiles fault copied files (Commit.after user staging done)
              = (Commit.after user staging (done ++ passed), none)
          ∨ ∃ f tl c e, rest = f :: tl ∧ ¬FilePasses fault user (done ++ passed) f
            ∧ commitFile fault copied (Commit.after user staging (done ++ passed)) f = (c, some e)
            ∧ commitFiles fault copied files (Commit.after user staging done) = (c, some e))
  | [], done, _, hdone =>
      ⟨[], [], rfl, by simpa using hdone, Or.inl ⟨rfl, by simp [commitFiles]⟩⟩
  | f :: fs, done, hstaged, hdone => by
      by_cases hf : FilePasses fault user done f
      · have hturn := commitFile_passes copied (hstaged f (by simp)) hf
        have hstaged' : AllStaged staging (done ++ [f] ++ fs) := by simpa using hstaged
        obtain ⟨passed, rest, rfl, hpass, hstop⟩ :=
          commitFiles_stops fault copied user staging fs _ hstaged' (passes_snoc hdone hf)
        refine ⟨f :: passed, rest, rfl, by simpa using hpass, ?_⟩
        simp only [commitFiles, hturn]
        simpa only [List.append_assoc, List.cons_append, List.nil_append] using hstop
      · obtain ⟨c, e, hturn, -⟩ :=
          commitFile_halts copied (nodup_of_passes hdone) hf
        refine ⟨[], f :: fs, rfl, by simpa using hdone, Or.inr ⟨f, fs, c, e, rfl, ?_, ?_, ?_⟩⟩
        · simpa using hf
        · simpa using hturn
        · simp only [commitFiles, hturn]

/-! ## Where the removal of obsolete files stops -/

/-- `o` is a file when its turn comes after `gone`. -/
def Present (tree : Tree) (gone : List RelName) (o : RelName) : Prop :=
  (tree o.path).isSome = true ∧ o.path ∉ gone.map RelName.path

def UnlinkPasses (fault : Op → Bool) (tree : Tree) (gone : List RelName) (o : RelName) : Prop :=
  Present tree gone o → fault (.unlink o) = false

/-- The tree without the files of `gone`. -/
def erased (tree : Tree) (gone : List RelName) : Tree :=
  overlay (fun _ => none) tree (gone.map RelName.path)

theorem erased_snoc (tree : Tree) (gone : List RelName) (o : RelName) :
    erased tree (gone ++ [o]) = Function.update (erased tree gone) o.path none := by
  simp only [erased, List.map_append, List.map_cons, List.map_nil, overlay_snoc]

theorem present_iff {tree : Tree} {gone : List RelName} {o : RelName} :
    Present tree gone o ↔ (erased tree gone o.path).isSome = true := by
  by_cases h : o.path ∈ gone.map RelName.path
  · simp [Present, erased, overlay_mem h, h]
  · simp [Present, erased, overlay_notMem h, h]

theorem removeObsolete_stops (fault : Op → Bool) (tree : Tree) :
    ∀ (obsolete gone : List RelName), Passes (UnlinkPasses fault tree) gone →
      ∃ passed rest, obsolete = passed ++ rest
        ∧ Passes (UnlinkPasses fault tree) (gone ++ passed)
        ∧ (rest = [] ∧ removeObsolete fault obsolete (erased tree gone)
              = (erased tree (gone ++ passed), none)
          ∨ ∃ o tl e, rest = o :: tl ∧ ¬UnlinkPasses fault tree (gone ++ passed) o
            ∧ removeObsolete fault obsolete (erased tree gone)
              = (erased tree (gone ++ passed), some e))
  | [], gone, hgone =>
      ⟨[], [], rfl, by simpa using hgone, Or.inl ⟨rfl, by simp [removeObsolete]⟩⟩
  | o :: os, gone, hgone => by
      by_cases ho : UnlinkPasses fault tree gone o
      · have hturn : removeObsolete fault (o :: os) (erased tree gone)
            = removeObsolete fault os (erased tree (gone ++ [o])) := by
          rw [removeObsolete, erased_snoc]
          split
          · rename_i hnone
            rw [Option.isNone_iff_eq_none] at hnone
            rw [Function.update_eq_self_iff.mpr hnone.symm]
          · rename_i hsome
            rw [Bool.not_eq_true, Option.isNone_eq_false_iff, ← present_iff] at hsome
            rw [if_neg (by simp [ho hsome])]
        obtain ⟨passed, rest, rfl, hpass, hstop⟩ :=
          removeObsolete_stops fault tree os _ (passes_snoc hgone ho)
        refine ⟨o :: passed, rest, rfl, by simpa using hpass, ?_⟩
        rw [hturn]
        simpa only [List.append_assoc, List.cons_append, List.nil_append] using hstop
      · refine ⟨[], o :: os, rfl, by simpa using hgone,
          Or.inr ⟨o, os, .raised (.unlink o), rfl, by simpa using ho, ?_⟩⟩
        simp only [UnlinkPasses, Classical.not_imp, Bool.not_eq_false] at ho
        obtain ⟨hpresent, hfault⟩ := ho
        have hsome := present_iff.mp hpresent
        simp [removeObsolete, hfault, Option.isNone_eq_false_iff.mpr hsome]

/-! ## When the commit can be undone -/

/-- The files can be committed up to a member that denotes a committed
path under another spelling, and its backup copy, whole or cut off when it
raises, is not what was there before. -/
def BackupLost (fault : Op → Bool) (copied : RelName → Option ℕ) (user staging : Tree)
    (files : List RelName) : Prop :=
  ∃ done f rest, files = done ++ f :: rest ∧ Passes (FilePasses fault user) done
    ∧ f.path ∈ done.map RelName.path ∧ aliasBackup fault copied user staging f ≠ user f.path

/-- All files can be committed, and a file of the previous version that
the wheel does not have is unlinked before an unlink or the save raises. -/
def ObsoleteLost (fault : Op → Bool) (user staging : Tree) (files obsolete : List RelName) :
    Prop :=
  Passes (FilePasses fault user) files ∧ ∃ gone rest, obsolete = gone ++ rest
    ∧ Passes (UnlinkPasses fault (overlay staging user (files.map RelName.path))) gone
    ∧ Halts (UnlinkPasses fault (overlay staging user (files.map RelName.path))) gone rest
    ∧ (rest = [] → fault .saveDb = true)
    ∧ ∃ o ∈ gone, (user o.path).isSome = true ∧ o.path ∉ files.map RelName.path

theorem Commit.after_nil (user staging : Tree) :
    Commit.after user staging [] = ⟨user, staging, fun _ => none, []⟩ := by
  simp [Commit.after]

/-- A second spelling of a committed path is where the loop stops. -/
theorem alias_stops {fault : Op → Bool} {user : Tree} {done done' rest rest' : List RelName}
    {f f' : RelName} (hdone : Passes (FilePasses fault user) done)
    (hf : ¬FilePasses fault user done f) (heq : done ++ f :: rest = done' ++ f' :: rest')
    (hdone' : Passes (FilePasses fault user) done') (hmem : f'.path ∈ done'.map RelName.path) :
    done' = done ∧ f' = f := by
  have hhalt : Halts (FilePasses fault user) done (f :: rest) := by
    intro x tl hx
    obtain ⟨rfl, -⟩ := List.cons.inj hx
    exact hf
  have hhalt' : Halts (FilePasses fault user) done' (f' :: rest') := by
    intro x tl hx hpass
    obtain ⟨rfl, -⟩ := List.cons.inj hx
    exact hpass.1 hmem
  obtain ⟨rfl, hrest⟩ := stop_unique heq hdone hhalt hdone' hhalt'
  exact ⟨rfl, (List.cons.inj hrest).1.symm⟩

theorem backupLost_iff {fault : Op → Bool} {copied : RelName → Option ℕ} {user staging : Tree}
    {done rest : List RelName} {f : RelName} (hdone : Passes (FilePasses fault user) done)
    (hf : ¬FilePasses fault user done f) :
    BackupLost fault copied user staging (done ++ f :: rest) ↔
      f.path ∈ done.map RelName.path ∧ aliasBackup fault copied user staging f ≠ user f.path := by
  constructor
  · rintro ⟨done', f', rest', heq, hdone', hmem, hne⟩
    obtain ⟨rfl, rfl⟩ := alias_stops hdone hf heq hdone' hmem
    exact ⟨hmem, hne⟩
  · rintro ⟨hmem, hne⟩
    exact ⟨done, f, rest, rfl, hdone, hmem, hne⟩

theorem not_backupLost {fault : Op → Bool} {copied : RelName → Option ℕ} {user staging : Tree}
    {files : List RelName} (h : Passes (FilePasses fault user) files) :
    ¬BackupLost fault copied user staging files := by
  rintro ⟨done, f, rest, rfl, -, hmem, -⟩
  exact h.next.1 hmem

/-- After the obsolete files `gone` are unlinked, the undo is exact
precisely when none of them was lost. -/
theorem rollback_erased_iff {user staging : Tree} {files gone : List RelName}
    (hnodup : (files.map RelName.path).Nodup) :
    rollback files.reverse (erased (Commit.after user staging files).user gone)
        (Commit.after user staging files).backup = user ↔
      ¬∃ o ∈ gone, (user o.path).isSome = true ∧ o.path ∉ files.map RelName.path := by
  rw [rollback_eq_iff hnodup]
  have hin : ∀ p ∈ files.map RelName.path,
      (Commit.after user staging files).backup p = user p := fun p hp => by
    rw [Commit.after_backup, overlay_mem hp]
  constructor
  · rintro ⟨-, hout⟩ ⟨o, ho, hsome, hfiles⟩
    have hgone := hout o.path hfiles
    rw [erased, overlay_mem (List.mem_map_of_mem ho)] at hgone
    rw [← hgone] at hsome
    cases hsome
  · intro hno
    refine ⟨hin, fun p hp => ?_⟩
    by_cases hgone : p ∈ gone.map RelName.path
    · obtain ⟨o, ho, rfl⟩ := List.mem_map.mp hgone
      rw [erased, overlay_mem hgone]
      cases hu : user o.path with
      | none => rfl
      | some content => exact (hno ⟨o, ho, by simp [hu], hp⟩).elim
    · rw [erased, overlay_notMem hgone, Commit.after_user, overlay_notMem hp]

theorem obsoleteLost_iff {fault : Op → Bool} {user staging : Tree}
    {files gone rest : List RelName} (hfiles : Passes (FilePasses fault user) files)
    (hgone : Passes (UnlinkPasses fault (overlay staging user (files.map RelName.path))) gone)
    (hhalt : Halts (UnlinkPasses fault (overlay staging user (files.map RelName.path)))
      gone rest) :
    ObsoleteLost fault user staging files (gone ++ rest) ↔
      (rest = [] → fault .saveDb = true)
        ∧ ∃ o ∈ gone, (user o.path).isSome = true ∧ o.path ∉ files.map RelName.path := by
  constructor
  · rintro ⟨-, gone', rest', heq, hgone', hhalt', hsave, hlost⟩
    obtain ⟨rfl, rfl⟩ := stop_unique heq hgone hhalt hgone' hhalt'
    exact ⟨hsave, hlost⟩
  · rintro ⟨hsave, hlost⟩
    exact ⟨hfiles, gone, rest, rfl, hgone, hhalt, hsave, hlost⟩

/-! ## The whole commit -/

/-- The tree after all files are committed. -/
def patched (user : Tree) (staged : Staged) : Tree :=
  overlay staged.staging user (staged.files.map RelName.path)

/-- The three ways a commit ends: a turn of the commit loop raises, an
unlink of an obsolete file or the save raises, or all goes through. -/
theorem commitTree_cases (env : Env) (t : Txn) (package : Name) (db : Db) (user : Tree)
    {staged : Staged} (hstaged : AllStaged staged.staging staged.files) :
    (∃ done f rest c e, staged.files = done ++ f :: rest
        ∧ Passes (FilePasses (env.fault t) user) done
        ∧ ¬FilePasses (env.fault t) user done f
        ∧ commitFile (env.fault t) (env.copied t) (Commit.after user staged.staging done) f
          = (c, some e)
        ∧ commitTree env t package db staged user
          = (rollback c.committed.reverse c.user c.backup, some e))
    ∨ Passes (FilePasses (env.fault t) user) staged.files
      ∧ ∃ gone rest, obsoleteFiles env t (previousFiles db package) staged.files = gone ++ rest
        ∧ Passes (UnlinkPasses (env.fault t) (patched user staged)) gone
        ∧ Halts (UnlinkPasses (env.fault t) (patched user staged)) gone rest
        ∧ ((rest = [] → env.fault t .saveDb = true)
            ∧ (∃ e, commitTree env t package db staged user
              = (rollback staged.files.reverse (erased (patched user staged) gone)
                  (Commit.after user staged.staging staged.files).backup, some e))
          ∨ rest = [] ∧ env.fault t .saveDb = false
            ∧ commitTree env t package db staged user
              = (erased (patched user staged) gone, none)) := by
  obtain ⟨passed, rest, hfiles, hpass, hstop⟩ :=
    commitFiles_stops (env.fault t) (env.copied t) user staged.staging staged.files []
      (by simpa using hstaged) passes_nil
  simp only [List.nil_append, Commit.after_nil] at hpass hstop
  rcases hstop with ⟨rfl, hrun⟩ | ⟨f, tl, c, e, rfl, hf, hturn, hrun⟩
  · rw [List.append_nil] at hfiles
    subst hfiles
    obtain ⟨gone, rest, hsplit, hgone, hstop⟩ :=
      removeObsolete_stops (env.fault t) (patched user staged)
        (obsoleteFiles env t (previousFiles db package) staged.files) [] passes_nil
    have herased : erased (patched user staged) [] = patched user staged := by simp [erased]
    rw [List.nil_append] at hgone
    rw [List.nil_append, herased] at hstop
    refine Or.inr ⟨hpass, gone, rest, hsplit, hgone, ?_⟩
    rcases hstop with ⟨rfl, hremove⟩ | ⟨o, tl, e, rfl, ho, hremove⟩
    · refine ⟨by simp [Halts], ?_⟩
      cases hsave : env.fault t .saveDb with
      | true =>
          refine Or.inl ⟨fun _ => rfl, .raised .saveDb, ?_⟩
          simp only [commitTree, hrun, Commit.after_user]
          rw [← patched, hremove]
          simp only [hsave, if_true]
          rfl
      | false =>
          refine Or.inr ⟨rfl, rfl, ?_⟩
          simp only [commitTree, hrun, Commit.after_user]
          rw [← patched, hremove]
          simp [hsave]
    · refine ⟨?_, Or.inl ⟨nofun, e, ?_⟩⟩
      · intro x tl' hx
        obtain ⟨rfl, -⟩ := List.cons.inj hx
        exact ho
      · simp only [commitTree, hrun, Commit.after_user]
        rw [← patched, hremove]
        rfl
  · refine Or.inl ⟨passed, f, tl, c, e, hfiles, hpass, hf, hturn, ?_⟩
    simp only [commitTree, hrun]

/-- **The commit is undone exactly** unless a backup is overwritten by an
alias or an unlinked file of the previous version is lost. -/
theorem commitTree_restores_iff (env : Env) (t : Txn) (package : Name) (db : Db) (user : Tree)
    {staged : Staged} (hstaged : AllStaged staged.staging staged.files) :
    ((commitTree env t package db staged user).2.isSome = true →
        (commitTree env t package db staged user).1 = user) ↔
      ¬BackupLost (env.fault t) (env.copied t) user staged.staging staged.files
        ∧ ¬ObsoleteLost (env.fault t) user staged.staging staged.files
          (obsoleteFiles env t (previousFiles db package) staged.files) := by
  rcases commitTree_cases env t package db user hstaged with
    ⟨done, f, rest, c, e, hfiles, hdone, hf, hturn, hcommit⟩
    | ⟨hpass, gone, rest, hsplit, hgone, hhalt, hend⟩
  · obtain ⟨c', e', hturn', hundo⟩ :=
      commitFile_halts (env.copied t) (nodup_of_passes hdone) hf
    obtain ⟨rfl, -⟩ := Prod.mk.injEq .. |>.mp (hturn.symm.trans hturn')
    have hobsolete : ¬ObsoleteLost (env.fault t) user staged.staging staged.files
        (obsoleteFiles env t (previousFiles db package) staged.files) := by
      rintro ⟨hall, -⟩
      rw [hfiles] at hall
      exact hf hall.next
    simp only [hcommit, Option.isSome_some, forall_const, hundo, hobsolete, not_false_iff,
      and_true]
    rw [hfiles, backupLost_iff hdone hf]
    by_cases hmem : f.path ∈ done.map RelName.path
    · rw [if_pos hmem, Function.update_eq_self_iff, and_iff_right hmem, not_not]
    · rw [if_neg hmem]
      exact iff_of_true rfl fun hlost => hmem hlost.1
  · rw [and_iff_right (not_backupLost hpass), hsplit, obsoleteLost_iff hpass hgone hhalt]
    rcases hend with ⟨hsave, e, hcommit⟩ | ⟨rfl, hsave, hcommit⟩
    · rw [hcommit, and_iff_right hsave]
      simp only [Option.isSome_some, forall_const]
      exact rollback_erased_iff (nodup_of_passes hpass)
    · rw [hcommit]
      simp [hsave]

end Zmux
